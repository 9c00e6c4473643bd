/-
Memory in which every page that can be reached lies at its own address, as without mappings. A physical
address is then fetched at one instruction pointer only, so a trace always starts where it started when
it was built, and both its pages are still where they were. Pages may be added all the while.
-/
import TraceCore.Proofs.Processor.Runs

namespace TraceCore

/-! ## Instruction pointers -/

/-- The instruction pointer has no bits that the running code does not have. -/
def Cpu.Masked (c : Cpu) (rip : UInt64) : Prop := rip &&& c.ipMask = rip

theorem Cpu.masked_iff {c : Cpu} {rip : UInt64} : c.Masked rip ↔ rip.toNat < 2 ^ c.codeSize.bits := by
  unfold Masked
  rw [← UInt64.toNat_inj, toNat_and_ipMask]
  constructor
  · intro h
    rw [← h]
    exact Nat.mod_lt _ (Nat.two_pow_pos _)
  · exact Nat.mod_eq_of_lt

theorem Cpu.masked_and (c : Cpu) (rip : UInt64) : c.Masked (rip &&& c.ipMask) := by
  unfold Masked
  rw [UInt64.and_assoc, UInt64.and_self]

theorem Cpu.Masked.reaches {c : Cpu} {rip : UInt64} (h : c.Masked rip) : c.Reaches rip := by
  have hreach := c.reaches_ipMask rip
  rwa [h] at hreach

theorem Cpu.SameContext.masked {c c' : Cpu} (h : c.SameContext c') {rip : UInt64} : c'.Masked rip ↔ c.Masked rip := by
  rw [Cpu.masked_iff, Cpu.masked_iff, h.codeSize]

/-! ## Pages at their own addresses -/

namespace MappedRam

/-- Whatever can be reached lies at its own address. -/
def Identical (m : MappedRam) : Prop :=
  ∀ linear access cpl addr, m.translate linear access cpl = .ok addr → addr = linear

/-- What could be reached still can, at the same place. -/
def Grows (m m' : MappedRam) : Prop :=
  ∀ linear access cpl addr, m.translate linear access cpl = .ok addr → m'.translate linear access cpl = .ok addr

variable {m m' m'' : MappedRam} {c c' : Cpu} {rip rip' addr addr' : UInt64} {n n' : Nat}

theorem Grows.trans (h : m.Grows m') (h' : m'.Grows m'') : m.Grows m'' :=
  fun linear access cpl addr ha => h' linear access cpl addr (h linear access cpl addr ha)

theorem grows_of_mappings (h : m'.mappings = m.mappings) : m.Grows m' :=
  fun linear access cpl addr ha => by rw [translate_congr h]; exact ha

/-- What could be fetched still can. -/
theorem Grows.fetchView (h : m.Grows m') (hsize : m'.ram.bytes.size = m.ram.bytes.size)
    (hview : m.fetchView c rip = .ok (addr, n)) : m'.fetchView c rip = .ok (addr, n) := by
  obtain ⟨linear, bias, size, hat, htr, hpage, hn⟩ := Board.fetchView_eq_ok.1 hview
  refine Board.fetchView_eq_ok.2 ⟨linear, bias, size, hat, h _ _ _ _ htr, ?_, hn⟩
  rw [Ram.isSome_page?] at hpage ⊢
  rw [hsize]
  exact hpage

/-- A physical address is fetched at one instruction pointer. -/
theorem Identical.fetchView_inj (hm : m.Identical) (hr : c.Masked rip) (hr' : c.Masked rip')
    (h : m.fetchView c rip = .ok (addr, n)) (h' : m.fetchView c rip' = .ok (addr, n')) : rip' = rip := by
  obtain ⟨linear, bias, size, hat, htr, -, -⟩ := Board.fetchView_eq_ok.1 h
  obtain ⟨linear', bias', size', hat', htr', -, -⟩ := Board.fetchView_eq_ok.1 h'
  obtain rfl := hm _ _ _ _ htr
  obtain rfl := hm _ _ _ _ htr'
  by_cases hb : c.codeSize = .b64
  · obtain ⟨-, hl, -, -⟩ := (windowAt_b64 hb).1 hat
    obtain ⟨-, hl', -, -⟩ := (windowAt_b64 hb).1 hat'
    rw [← hl, ← hl']
  · obtain ⟨-, hl, -, -⟩ := (windowAt_segment hb).1 hat
    obtain ⟨-, hl', -, -⟩ := (windowAt_segment hb).1 hat'
    have hlow : ∀ {r : UInt64}, c.Masked r → r.toNat < 2 ^ 32 := fun hr => by
      rcases hr.reaches with h64 | hlt
      · exact absurd h64 hb
      · exact hlt
    have hlt := hlow hr
    have hlt' := hlow hr'
    apply UInt64.toNat_inj.1
    omega

end MappedRam

/-- A kind of mappings under which pages lie at their own addresses. -/
structure Layout where
  holds : Option (Std.HashMap UInt64 Mapping) → Prop
  identical : ∀ {m : MappedRam}, holds m.mappings → m.Identical

/-- No mappings are in force. -/
def Layout.unmapped : Layout where
  holds mappings := mappings = none
  identical := by
    intro m h linear access cpl addr ha
    unfold MappedRam.translate at ha
    rw [h] at ha
    cases ha
    rfl

/-! ## Traces -/

/-- There is an instruction pointer where the trace is entered, and what can be fetched there has all of
it. -/
def Trace.Fits (t : Trace) (c : Cpu) (m : MappedRam) : Prop :=
  ∃ rip n, c.Masked rip ∧ m.fetchView c rip = .ok (t.addr, n) ∧ (t.tail = none → t.byteLen ≤ n) ∧
    ∀ second, t.tail = some second → n = toPageEnd t.addr ∧ c.Reaches (rip + UInt64.ofNat n) ∧
      ∃ n', m.fetchView c (rip + UInt64.ofNat n) = .ok (second.start, n') ∧ t.byteLen ≤ n + n'

/-- The trace is entered nowhere else. -/
theorem Trace.Fits.entered {t : Trace} {c : Cpu} {m : MappedRam} (h : t.Fits c m) (hm : m.Identical) {rip : UInt64}
    {n : Nat}
    (hr : c.Masked rip) (hview : m.fetchView c rip = .ok (t.addr, n)) : (t.tail = none → t.byteLen ≤ n) ∧
      ∀ second, t.tail = some second → n = toPageEnd t.addr ∧ c.Reaches (rip + UInt64.ofNat n) ∧
        ∃ n', m.fetchView c (rip + UInt64.ofNat n) = .ok (second.start, n') ∧ t.byteLen ≤ n + n' := by
  obtain ⟨rip', n', hr', hview', hrest⟩ := h
  obtain rfl := hm.fetchView_inj hr' hr hview' hview
  rw [hview'] at hview
  cases hview
  exact hrest

theorem Trace.Fits.goesOn {t : Trace} {c c' : Cpu} {m m' : MappedRam} (h : t.Fits c m) (hc : c.SameContext c')
    (hm : m.Grows m')
    (hsize : m'.ram.bytes.size = m.ram.bytes.size) : t.Fits c' m' := by
  have hview : ∀ {rip addr n}, m.fetchView c rip = .ok (addr, n) → m'.fetchView c' rip = .ok (addr, n) := fun hv => by
    rw [hc.sameFetch.fetchView]
    exact hm.fetchView hsize hv
  obtain ⟨rip, n, hr, hv, hstraight, hsplit⟩ := h
  refine ⟨rip, n, hc.masked.2 hr, hview hv, hstraight, fun second ht => ?_⟩
  obtain ⟨hn, hreach, n', hv', hle⟩ := hsplit second ht
  exact ⟨hn, hc.reaches.2 hreach, n', hview hv', hle⟩

/-- Histories of memory under such mappings, as long as they stay of their kind and take nothing away. -/
def Regime.identity (γ δ : Type) (L : Layout) : Regime γ δ where
  course w w' := w.Passes w' ∧ (L.holds w.mem.mappings → w.mem.Grows w'.mem ∧ L.holds w'.mem.mappings)
  cpu c := (c.codeSize = .b16 → c.cs.limit.toNat ≤ 0xFFFF) ∧ c.Masked c.rip
  mem m := L.holds m.mappings
  trace c m t := L.holds m.mappings ∧ t.Fits c m
  isCourse := by
    have hsame : ∀ {w w' : Board γ δ}, w.Passes w' → w'.mem.mappings = w.mem.mappings →
        w.Passes w' ∧ (L.holds w.mem.mappings → w.mem.Grows w'.mem ∧ L.holds w'.mem.mappings) :=
      fun hw hm => ⟨hw, fun h => ⟨MappedRam.grows_of_mappings hm, by rw [hm]; exact h⟩⟩
    have htrans : ∀ {a b c : Board γ δ},
        a.Passes b ∧ (L.holds a.mem.mappings → a.mem.Grows b.mem ∧ L.holds b.mem.mappings) →
        b.Passes c ∧ (L.holds b.mem.mappings → b.mem.Grows c.mem ∧ L.holds c.mem.mappings) →
          a.Passes c ∧ (L.holds a.mem.mappings → a.mem.Grows c.mem ∧ L.holds c.mem.mappings) := by
      intro a b c h h'
      refine ⟨h.1.trans h'.1, fun ha => ?_⟩
      obtain ⟨hgrows, hb⟩ := h.2 ha
      obtain ⟨hgrows', hc⟩ := h'.2 hb
      exact ⟨hgrows.trans hgrows', hc⟩
    exact
      { trans := htrans
        moves := fun h => h.1.moves
        quiet := fun h => hsame (Board.passes_quiet h) (by rw [h])
        write := fun addr src w => hsame (Board.passes_write addr src w) rfl
        register := fun p mask w => hsame (Board.registered_register w p mask).passes rfl }
  passes h := h.1
  stays h hm := (h.2 hm).2
  orderly h := ⟨h.1, Or.inl h.2.reaches⟩
  moves := by
    intro c c' h hc hr
    refine ⟨by rw [hc.codeSize, hc.2.1]; exact h.1, hc.masked.2 ?_⟩
    rcases hr with hr | ⟨target, hr⟩
    · rw [hr]
      exact h.2
    · rw [hr]
      exact c.masked_and target
  goesOn h hc hw := ⟨(hw.2 h.1).2, h.2.goesOn hc (hw.2 h.1).1 hw.1.moves.size⟩
  refresh := by
    intro c m t t' stamps h hrefresh
    obtain ⟨headStamp, tailStamp, rfl⟩ := Trace.refresh_eq hrefresh
    obtain ⟨hm, rip, n, hr, hv, hstraight, hsplit⟩ := h
    refine ⟨hm, rip, n, hr, hv, fun ht => hstraight (by simpa using ht), fun second ht => ?_⟩
    cases htail : t.tail with
    | none => simp [htail] at ht
    | some second' =>
      rw [htail] at ht
      cases ht
      exact hsplit second' htail
  fresh := by
    intro c w guard d site t hc hm hrip hmode hview hall haddr hmode' hfresh
    refine ⟨hm, c.rip, site.remaining, hc.2, by rw [haddr]; exact hview, fun htail => ?_, fun second htail => ?_⟩
    · cases hfresh with
      | run _ fits => exact fits
      | joined t' s k _ old tail' addr mode fits bytes =>
        -- the trace that the run meets is entered behind its own bytes, so in the same window
        have hk : k < site.remaining := by unfold maxInstrLen at fits; omega
        have hnext := MappedRam.fetchView_next hc.1 hview hk
        rw [← addr] at hnext
        have hle := ((hall s t' old).2.entered (L.identical hm) (c.masked_and _) hnext).1 tail'
        omega
      | split window offset second tail => rw [tail] at htail; cases htail
    · cases hfresh with
      | run tail => rw [tail] at htail; cases htail
      | joined t' s k tail => rw [tail] at htail; cases htail
      | split window offset second' tail short atEnd opens enters start fits =>
        rw [tail] at htail
        cases htail
        rw [hrip] at opens enters
        have hnext := Board.fetchView_of_nextWindow opens enters
        rw [← start] at hnext
        exact ⟨by rw [haddr]; exact atEnd, Board.reaches_of_nextWindow opens enters, _, hnext, fits⟩
  room h hm ht htail hview := (ht.2.entered (L.identical hm) h.2 hview).1 htail

namespace Processor

variable {γ δ : Type} {L : Layout} {g : Guard (Board γ δ)} {d : Delivery (Board γ δ)} {i : Nat} {p : Processor}
    {w : Board γ δ}

/-- Wherever the processor is on a trace, fetching and decoding anew gives the instruction that it is
before. -/
theorem OnTrace.refetch (hg : g.Quiet) (h : p.Sound (Regime.identity γ δ L) w) {index left k n : Nat} {t : Trace}
    (ht : p.OnTrace w index left t k n) : ∃ record, p.cache.pool[index]? = some record ∧
      (p.refetch (Board.socket g d i) w).1 = .ok record.instr := by
  obtain ⟨record, addr, hrecord, hview, hi⟩ := ht.instr h
  refine ⟨record, hrecord, ?_⟩
  obtain ⟨-, hend, hin⟩ := Board.fetchView_le hview
  rw [refetch_ok hg hview, h.decode]
  rcases hi with ⟨hdecode, hle⟩ | ⟨second, htail, rfl, hlen, hcross, hdecode⟩
  · exact TraceCache.decodeAt_of_decode ⟨addr, p.cpu.fetchMode, p.cpu.rip, n⟩ hend hdecode hle
  · obtain ⟨slot, hslot⟩ := ht.found
    have hfits : t.Fits p.cpu w.mem := (h.traces slot t hslot).2
    obtain ⟨hn, hreach, n', hnext, hle⟩ := (hfits.entered (L.identical h.mem) h.cpu.2 hview).2 second htail
    obtain ⟨window, o, hopen, ho, hstart, hrem⟩ := Board.nextWindow_of_fetchView g hnext hreach
    obtain ⟨-, hend', hin'⟩ := Board.fetchView_le hnext
    have hsize : t.addr.toNat + toPageEnd t.addr ≤ w.mem.ram.bytes.size := by
      have hoff := pageOffset_eq t.addr
      have ha := w.mem.ram.aligned
      unfold toPageEnd pageSize at *
      omega
    rw [← hstart] at hdecode hend' hin'
    rw [hlen, ← hrem] at hle
    rw [← hrem] at hend'
    exact TraceCache.decodeAt_of_straddles ⟨t.addr, p.cpu.fetchMode, p.cpu.rip, n⟩ hn hcross hsize hdecode
      (fun rip => Board.mem_openWindow hg p.cpu rip w) hopen ho hin' hend' hle

end Processor

end TraceCore
