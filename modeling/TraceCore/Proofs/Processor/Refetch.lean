/-
Which instruction a processor without a cache executes: the one whose bytes are fetched at its instruction
pointer, in one window or across the end of one. As long as nobody writes to these bytes and nothing is
taken from the mappings, it stays the same.
-/
import TraceCore.Proofs.Processor.Identity
import TraceCore.Proofs.Processor.Mapped
import TraceCore.Proofs.Processor.Plain

namespace TraceCore

/-- Memory has the instruction at the processor's instruction pointer, in one window or across its end. -/
inductive MappedRam.Offers (m : MappedRam) (c : Cpu) (instr : Instr) : Prop
  | inside (addr : UInt64) (n : Nat) (view : m.fetchView c c.rip = .ok (addr, n)) (fits : instr.len ≤ n)
      (decodes : m.ram.decode c.fetchMode addr = .complete instr)
  | across (addr : UInt64) (n : Nat) (addr' : UInt64) (n' : Nat) (view : m.fetchView c c.rip = .ok (addr, n))
      (crosses : n < instr.len) (reaches : c.Reaches (c.rip + UInt64.ofNat n))
      (next : m.fetchView c (c.rip + UInt64.ofNat n) = .ok (addr', n')) (fits : instr.len ≤ n + n')
      (decodes : decodeInstr (m.ram.slice addr n ++ m.ram.slice addr' maxInstrLen) c.fetchMode = .complete instr)

variable {γ δ : Type} {w : Board γ δ} {c : Cpu} {instr : Instr}

/-- The bytes of a window are all in memory. -/
theorem MappedRam.window_length {m : MappedRam} {rip addr : UInt64} {n : Nat} (h : m.fetchView c rip = .ok (addr, n)) :
    addr.toNat + n ≤ m.ram.bytes.size := by
  obtain ⟨-, hend, hin⟩ := Board.fetchView_le h
  have hoff := pageOffset_eq addr
  have ha := m.ram.aligned
  unfold toPageEnd pageSize at *
  omega

namespace Board

/-- What is decoded at a site is what memory has there. -/
theorem offers_of_decodeAt {addr : UInt64} {n : Nat} (hview : w.mem.fetchView c c.rip = .ok (addr, n))
    (h : (decodeAt bus decodeInstr ⟨addr, c.fetchMode, c.rip, n⟩ (nextWindow .none c) w).1 = .ok instr) :
    w.mem.Offers c instr := by
  obtain ⟨-, hend, hin⟩ := fetchView_le hview
  have hroom := MappedRam.window_length hview
  obtain ⟨page, hpage⟩ := Option.isSome_iff_exists.1 (Ram.isSome_page?.2 hin)
  have hwindow : ∀ k ≤ n, page.window (pageOffset addr) k = w.mem.ram.slice addr k := fun k hk => by
    rw [Ram.window_eq_slice hpage rfl, Nat.min_eq_left (by omega)]
  unfold decodeAt at h
  rw [show bus.codePage addr w = _ from hpage] at h
  dsimp only at h
  rw [hwindow _ (Nat.min_le_left ..)] at h
  split at h
  case h_1 => cases h
  case h_3 i hdec =>
    split at h
    case isFalse => cases h
    case isTrue =>
      cases h
      have hle := (len_of_decodeInstr hdec).2.2
      rw [Ram.length_slice] at hle
      exact .inside addr n hview (by omega) (Ram.decode_of_slice hdec)
  case h_2 hdec =>
    unfold decodeAcross at h
    split at h
    case isTrue => cases h
    case isFalse hlt =>
      dsimp only at h hlt
      rw [Nat.not_le] at hlt
      rw [Nat.min_eq_left (by omega)] at hdec
      have hlen : (w.mem.ram.slice addr n).length = n := by rw [Ram.length_slice]; omega
      rw [hwindow n (Nat.le_refl _), hlen] at h
      have hworld := openWindow_none c (c.rip + UInt64.ofNat n) w
      rcases hopen : nextWindow .none c (c.rip + UInt64.ofNat n) w with ⟨r, w'⟩
      rw [hopen] at h
      obtain rfl : w' = w := (congrArg Prod.snd hopen).symm.trans hworld
      cases r with
      | error fault => cases h
      | ok window =>
        dsimp only at h
        split at h
        case h_1 => cases h
        case h_2 o ho =>
          have hok : (nextWindow .none c (c.rip + UInt64.ofNat n) w').1 = .ok window := by rw [hopen]
          have hnext := fetchView_of_nextWindow hok ho
          obtain ⟨-, hend', hin'⟩ := fetchView_le hnext
          obtain ⟨tailPage, htail⟩ := Option.isSome_iff_exists.1 (Ram.isSome_page?.2 hin')
          rw [show bus.codePage (window.address o) w' = _ from htail] at h
          dsimp only at h
          rw [Ram.window_eq_slice htail rfl, Nat.min_eq_left (le_trans (Nat.min_le_left ..) hend')] at h
          split at h
          case h_1 => cases h
          case h_2 => cases h
          case h_3 i hdec' =>
            split at h
            case isFalse => cases h
            case isTrue =>
              cases h
              obtain ⟨-, hmax, hle⟩ := len_of_decodeInstr hdec'
              have hcross : n < instr.len := by
                by_contra hge
                -- the first window would have been enough
                have hfull : decodeInstr (w'.mem.ram.slice addr n) c.fetchMode = .complete instr :=
                  decodeInstr_congr hdec' (by rw [List.take_append_of_le_length (by omega)])
                rw [hdec] at hfull
                cases hfull
              rw [List.length_append, hlen, Ram.length_slice] at hle
              refine .across addr n (window.address o) (window.remaining o) hview hcross (reaches_of_nextWindow hok ho)
                hnext
                (by omega) (decodeInstr_congr hdec' ?_)
              simp only [List.take_append, hlen, Ram.take_slice]
              congr 2
              omega

end Board

namespace Processor

variable {d : Delivery (Board γ δ)} {i : Nat} {p : Processor}

/-- The instruction that is fetched and decoded anew is the one that memory has. -/
theorem refetch_eq_ok (hdecode : p.decode = decodeInstr) (hrip : p.cpu.Continues p.cpu.rip) :
    (p.refetch (Board.unwatched d i) w).1 = .ok instr ↔ w.mem.Offers p.cpu instr := by
  constructor
  · intro h
    cases hview : w.mem.fetchView p.cpu p.cpu.rip with
    | error e => rw [refetch_error hview] at h; cases h
    | ok place =>
      obtain ⟨addr, n⟩ := place
      rw [refetch_ok Guard.quiet_none hview, hdecode] at h
      exact Board.offers_of_decodeAt hview h
  · intro h
    cases h with
    | inside addr n view fits decodes =>
      obtain ⟨-, hend, -⟩ := Board.fetchView_le view
      rw [refetch_ok Guard.quiet_none view, hdecode]
      exact TraceCache.decodeAt_of_decode ⟨addr, p.cpu.fetchMode, p.cpu.rip, n⟩ hend decodes fits
    | across addr n addr' n' view crosses reaches next fits decodes =>
      have hroom := MappedRam.window_length view
      have hmax := (len_of_decodeInstr decodes).2.1
      obtain ⟨window, o, hopen, ho, hstart, hrem⟩ := Board.nextWindow_of_fetchView .none next reaches
      obtain ⟨-, hend', hin'⟩ := Board.fetchView_le next
      -- the first window ends with its page
      have hcont := Board.continues_nextWindow Guard.quiet_none ⟨addr, p.cpu.fetchMode, p.cpu.rip, n⟩ view hrip
      obtain ⟨hn, -⟩ := hcont.atStart window o (by dsimp only; omega) hopen ho
      dsimp only at hn
      rw [← hstart] at decodes hend' hin'
      rw [← hrem] at hend' fits
      rw [refetch_ok Guard.quiet_none view, hdecode]
      rw [hn] at crosses decodes hroom
      exact TraceCache.decodeAt_of_straddles ⟨addr, p.cpu.fetchMode, p.cpu.rip, n⟩ hn crosses hroom decodes
        (fun rip => Board.mem_openWindow Guard.quiet_none p.cpu rip w) hopen ho hin' hend' fits

end Processor

/-! ## The bytes of an instruction -/

namespace MappedRam

variable {m m' : MappedRam} {c' : Cpu} {addr : UInt64} {n : Nat}

/-- What is fetched at an instruction pointer lies at its linear address. -/
theorem Identical.codeAddress (hm : m.Identical) {rip : UInt64} (h : m.fetchView c rip = .ok (addr, n)) :
    c.codeAddress rip = addr := by
  obtain ⟨linear, bias, size, hat, htr, -, -⟩ := Board.fetchView_eq_ok.1 h
  rw [hm _ _ _ _ htr]
  exact Cpu.codeAddress_of_windowAt hat

/-- So do the bytes behind it in the window. -/
theorem Identical.codeAddress_add (hm : m.Identical) {rip : UInt64} (hr : c.Reaches rip)
    (h : m.fetchView c rip = .ok (addr, n))
    {k : Nat} (hk : k < n) : (c.codeAddress (rip + UInt64.ofNat k)).toNat = addr.toNat + k := by
  obtain ⟨-, hend, -⟩ := Board.fetchView_le h
  rw [hm.codeAddress (Board.fetchView_add h hr hk).1]
  exact (pageOf_add (Nat.lt_of_lt_of_le hk hend)).2.2.2

/-- An instruction is still there while its bytes are, and nothing was taken from the mappings. -/
theorem Offers.stays (h : m.Offers c instr) (hm : m.Identical) (hr : c.Reaches c.rip) (hc : c.SameContext c')
    (hrip : c'.rip = c.rip)
    (hgrows : m.Grows m') (hsize : m'.ram.bytes.size = m.ram.bytes.size)
    (hbytes : ∀ k < instr.len, m'.ram.bytes[(c.codeAddress (c.rip + UInt64.ofNat k)).toNat]? =
      m.ram.bytes[(c.codeAddress (c.rip + UInt64.ofNat k)).toNat]?) : m'.Offers c' instr := by
  have hview : ∀ {rip addr n}, m.fetchView c rip = .ok (addr, n) → m'.fetchView c' rip = .ok (addr, n) := fun hv => by
    rw [hc.sameFetch.fetchView]
    exact hgrows.fetchView hsize hv
  cases h with
  | inside addr n view fits decodes =>
    refine .inside addr n (by rw [hrip]; exact hview view) fits ?_
    rw [hc.fetchMode]
    refine Ram.decode_congr decodes (Ram.slice_eq fun k hk => ?_)
    rw [← hm.codeAddress_add hr view (show k < n by omega)]
    exact hbytes k hk
  | across addr n addr' n' view crosses reaches next fits decodes =>
    refine .across addr n addr' n' (by rw [hrip]; exact hview view) crosses (by rw [hrip]; exact hc.reaches.2 reaches)
      (by rw [hrip]; exact hview next) fits ?_
    rw [hc.fetchMode]
    have hmax := (len_of_decodeInstr decodes).2.1
    have hhead : m'.ram.slice addr n = m.ram.slice addr n := Ram.slice_eq fun k hk => by
      rw [← hm.codeAddress_add hr view hk]
      exact hbytes k (by omega)
    have htail : m'.ram.slice addr' (instr.len - n) = m.ram.slice addr' (instr.len - n) := Ram.slice_eq fun k hk => by
      rw [← hm.codeAddress_add reaches next (show k < n' by omega), UInt64.add_assoc, ← UInt64.ofNat_add]
      exact hbytes (n + k) (by omega)
    have hlen : n ≤ m.ram.bytes.size - addr.toNat := Nat.le_sub_of_add_le' (window_length view)
    have hshort : min (instr.len - n) maxInstrLen = instr.len - n := by omega
    refine decodeInstr_congr decodes ?_
    rw [hhead, List.take_append, List.take_append, Ram.length_slice, Nat.min_eq_left hlen, Ram.take_slice,
      Ram.take_slice,
      Ram.take_slice, hshort, htail]

end MappedRam

end TraceCore
