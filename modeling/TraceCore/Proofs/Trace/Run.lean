/-
Runs of instructions: what `decodeRun` reads off a page of memory is what memory holds there, and it
stops before a full-length instruction could leave the bytes that may be fetched.
-/
import TraceCore.Proofs.Trace.Coherent
import TraceCore.Trace.Build

namespace TraceCore

variable {ram : Ram} {mode : FetchMode} {page : PageView} {meeting : UInt64 → Nat → Option Nat}

/-- How a run of instructions from `addr` on, with `remaining` bytes to fetch, comes out. -/
structure RunFrom (ram : Ram) (mode : FetchMode) (meeting : UInt64 → Nat → Option Nat) (room : Nat) (addr : UInt64)
    (remaining : Nat) (run : List Instr) (ending : RunEnd) : Prop where
  decodes : ram.Decodes mode addr run
  length_le : run.length ≤ room
  bytes_le : Ram.bytesOf run ≤ remaining
  plain : ending ≠ .ended → ∀ i ∈ run, i.ends = false
  meets : ∀ slot, ending = .meets slot → run ≠ [] ∧ maxInstrLen + Ram.bytesOf run ≤ remaining ∧
    ∃ left, run.length + left ≤ room ∧ meeting (addr + UInt64.ofNat (Ram.bytesOf run)) left = some slot
  empty : run = [] → 0 < room →
    ending = .short ∧ decodeInstr (ram.slice addr (min remaining maxInstrLen)) mode = .short ∨
      ending = .invalid ∧ decodeInstr (ram.slice addr (min remaining maxInstrLen)) mode = .invalid

/-- The address behind an instruction that does not reach the end of the page. -/
theorem pageOf_add {addr : UInt64} {n : Nat} (h : n < toPageEnd addr) :
    pageOf (addr + UInt64.ofNat n) = pageOf addr ∧ pageOffset (addr + UInt64.ofNat n) = pageOffset addr + n ∧
      toPageEnd (addr + UInt64.ofNat n) = toPageEnd addr - n ∧ (addr + UInt64.ofNat n).toNat = addr.toNat + n := by
  have ho := pageOffset_eq addr
  have hlt := addr.toNat_lt
  unfold toPageEnd at *
  have hadd : (addr + UInt64.ofNat n).toNat = addr.toNat + n := by
    apply Ram.toNat_add_ofNat
    unfold pageSize at *
    omega
  have ho' := pageOffset_eq (addr + UInt64.ofNat n)
  rw [hadd] at ho'
  refine ⟨UInt64.toNat_inj.1 ?_, ?_, ?_, hadd⟩
  · rw [toNat_pageOf, toNat_pageOf, hadd]
    unfold pageSize at *
    omega
  · unfold pageSize at *; omega
  · unfold pageSize at *; omega

theorem PageView.length_window_le (page : PageView) (offset len : Nat) : (page.window offset len).length ≤ len := by
  simp only [window, Array.length_toList, Array.size_extract]
  omega

theorem PageView.length_window_inside (page : PageView) (offset len : Nat) :
    min offset pageSize + (page.window offset len).length ≤ pageSize := by
  simp only [window, Array.length_toList, Array.size_extract]
  omega

/-- The shape of a run, whatever decoded it: it keeps to its room and to the bytes that may be fetched, control stays in
it up to its last instruction, and it meets a trace only where control goes on. -/
structure RunShape (meeting : UInt64 → Nat → Option Nat) (room : Nat) (addr : UInt64) (remaining : Nat)
    (run : List Instr) (ending : RunEnd) : Prop where
  length_le : run.length ≤ room
  bytes_le : Ram.bytesOf run ≤ remaining
  inner : ∀ i ∈ run.dropLast, i.ends = false
  plain : ending ≠ .ended → ∀ i ∈ run, i.ends = false
  meets : ∀ slot, ending = .meets slot → run ≠ [] ∧ maxInstrLen + Ram.bytesOf run ≤ remaining ∧
    ∃ left, run.length + left ≤ room ∧ meeting (addr + UInt64.ofNat (Ram.bytesOf run)) left = some slot

theorem RunShape.nil {room : Nat} {addr : UInt64} {remaining : Nat} {ending : RunEnd}
    (h : ∀ slot, ending ≠ .meets slot) : RunShape meeting room addr remaining [] ending :=
  ⟨Nat.zero_le _, Nat.zero_le _, fun _ hi => (nomatch hi), fun _ _ hi => (nomatch hi), fun slot hs => absurd hs (h slot)⟩

/-- An instruction that ends the run. -/
theorem RunShape.one {room : Nat} {addr : UInt64} {remaining : Nat} {i : Instr} (hlen : i.len ≤ remaining) :
    RunShape meeting (room + 1) addr remaining [i] .ended :=
  ⟨Nat.succ_le_succ (Nat.zero_le _), by simpa using hlen, fun _ hj => (nomatch hj), fun h => absurd rfl h, nofun⟩

/-- An instruction behind which a trace begins. -/
theorem RunShape.met {room : Nat} {addr : UInt64} {remaining slot : Nat} {i : Instr} (hends : i.ends = false)
    (hlen : maxInstrLen + i.len ≤ remaining) (h : meeting (addr + UInt64.ofNat i.len) room = some slot) :
    RunShape meeting (room + 1) addr remaining [i] (.meets slot) := by
  have hbytes : Ram.bytesOf [i] = i.len := by simp
  refine ⟨Nat.succ_le_succ (Nat.zero_le _), by rw [hbytes]; omega, fun _ hj => (nomatch hj), fun _ j hj => ?_,
    fun s hs => ?_⟩
  · rw [List.mem_singleton.1 hj]
    exact hends
  · cases hs
    exact ⟨List.cons_ne_nil _ _, by rw [hbytes]; exact hlen, room, by simp [Nat.add_comm], by rw [hbytes]; exact h⟩

/-- An instruction that control goes on behind. -/
theorem RunShape.cons {room : Nat} {addr : UInt64} {remaining : Nat} {i : Instr} {run : List Instr} {ending : RunEnd}
    (hends : i.ends = false) (hlen : i.len ≤ remaining)
    (h : RunShape meeting room (addr + UInt64.ofNat i.len) (remaining - i.len) run ending) :
    RunShape meeting (room + 1) addr remaining (i :: run) ending := by
  have hbytes := h.bytes_le
  refine ⟨Nat.succ_le_succ h.length_le, by simp only [Ram.bytesOf_cons]; omega, fun j hj => ?_, fun hne j hj => ?_,
    fun slot hs => ?_⟩
  · cases run with
    | nil => cases hj
    | cons j' run =>
      rcases List.mem_cons.1 hj with rfl | hj
      · exact hends
      · exact h.inner j hj
  · rcases List.mem_cons.1 hj with rfl | hj
    · exact hends
    · exact h.plain hne j hj
  · obtain ⟨-, hfull, left, hleft, hmeet⟩ := h.meets slot hs
    refine ⟨List.cons_ne_nil _ _, by simp only [Ram.bytesOf_cons]; omega, left, by simp only [List.length_cons]; omega,
      ?_⟩
    rw [UInt64.add_assoc, ← UInt64.ofNat_add] at hmeet
    simpa using hmeet

theorem shape_decodeRun (decode : Decoder) (mode : FetchMode) (page : PageView)
    (meeting : UInt64 → Nat → Option Nat) (room : Nat) (addr : UInt64) (offset remaining : Nat) :
    RunShape meeting room addr remaining (decodeRun decode mode page meeting room addr offset remaining).1
      (decodeRun decode mode page meeting room addr offset remaining).2 := by
  induction room generalizing addr offset remaining with
  | zero => exact .nil nofun
  | succ room ih =>
    have hwindow := page.length_window_le offset (min remaining maxInstrLen)
    unfold decodeRun
    dsimp only
    split
    case h_1 => exact .nil nofun
    case h_2 => exact .nil nofun
    case h_3 i _ =>
      split
      case isTrue => exact .nil nofun
      case isFalse hfits =>
        simp only [Instr.fits, Bool.not_eq_true', Bool.not_eq_false, Bool.and_eq_true, bne_iff_ne,
          decide_eq_true_eq] at hfits
        have hlen : i.len ≤ remaining := by omega
        split
        case isTrue => exact .one hlen
        case isFalse hon =>
          simp only [Bool.or_eq_true, decide_eq_true_eq, not_or, Bool.not_eq_true] at hon
          split
          case h_1 slot hmeet =>
            split at hmeet
            case isFalse => cases hmeet
            case isTrue hfull => exact .met hon.1 (by omega) hmeet
          case h_2 => exact .cons hon.1 hlen (ih ..)

/-- With room for a record, a run is empty only where no instruction begins. -/
theorem decodeRun_of_nil {decode : Decoder} {mode : FetchMode} {page : PageView} {meeting : UInt64 → Nat → Option Nat}
    {room : Nat} {addr : UInt64} {offset remaining : Nat} {ending : RunEnd} (hroom : 0 < room)
    (h : decodeRun decode mode page meeting room addr offset remaining = ([], ending)) :
    ending = .short ∨ ending = .invalid := by
  cases room with
  | zero => omega
  | succ room =>
    rw [decodeRun] at h
    dsimp only at h
    split at h
    case h_1 => exact Or.inl (Prod.mk.inj h).2.symm
    case h_2 => exact Or.inr (Prod.mk.inj h).2.symm
    case h_3 =>
      split at h
      case isTrue => exact Or.inr (Prod.mk.inj h).2.symm
      case isFalse =>
        split at h
        case isTrue => cases h
        case isFalse => split at h <;> cases h

theorem runFrom_decodeRun (mode : FetchMode) (meeting : UInt64 → Nat → Option Nat) {site : UInt64}
    (hpage : ram.page? site = some page) (room : Nat) {addr : UInt64}
    {remaining : Nat} (haddr : pageOf addr = pageOf site) (hrem : remaining ≤ toPageEnd addr) :
    RunFrom ram mode meeting room addr remaining
      (decodeRun decodeInstr mode page meeting room addr (pageOffset addr) remaining).1
      (decodeRun decodeInstr mode page meeting room addr (pageOffset addr) remaining).2 := by
  have hshape := shape_decodeRun decodeInstr mode page meeting room addr (pageOffset addr) remaining
  suffices hreads : ram.Decodes mode addr (decodeRun decodeInstr mode page meeting room addr (pageOffset addr)
      remaining).1 ∧ ((decodeRun decodeInstr mode page meeting room addr (pageOffset addr) remaining).1 = [] →
        0 < room → _ ∨ _) from
    ⟨hreads.1, hshape.length_le, hshape.bytes_le, hshape.plain, hshape.meets, hreads.2⟩
  clear hshape
  induction room generalizing addr remaining with
  | zero => exact ⟨trivial, fun _ h => absurd h (Nat.lt_irrefl _)⟩
  | succ room ih =>
    have hwindow : page.window (pageOffset addr) (min remaining maxInstrLen) =
        ram.slice addr (min remaining maxInstrLen) := by
      have hin : min remaining maxInstrLen ≤ toPageEnd addr := by omega
      rw [Ram.window_eq_slice hpage haddr, Nat.min_eq_left hin]
    unfold decodeRun
    dsimp only
    rw [hwindow]
    cases hdec : decodeInstr (ram.slice addr (min remaining maxInstrLen)) mode with
    | short => exact ⟨trivial, fun _ _ => Or.inl ⟨rfl, rfl⟩⟩
    | invalid => exact ⟨trivial, fun _ _ => Or.inr ⟨rfl, rfl⟩⟩
    | complete i =>
      have hi := Ram.decode_of_slice hdec
      obtain ⟨hpos, hmax, hle⟩ := len_of_decodeInstr hdec
      have hrem' : i.len ≤ remaining := by rw [Ram.length_slice] at hle; omega
      have hfits : i.fits (ram.slice addr (min remaining maxInstrLen)).length = true := by
        simp only [Instr.fits, Bool.and_eq_true, bne_iff_ne, decide_eq_true_eq]
        omega
      simp only [hfits, Bool.not_true, Bool.false_eq_true, if_false]
      have hone : ram.Decodes mode addr [i] := ⟨hi, fun h => absurd rfl h, trivial⟩
      split
      case isTrue => exact ⟨hone, nofun⟩
      case isFalse hon =>
        simp only [Bool.or_eq_true, decide_eq_true_eq, not_or, Bool.not_eq_true] at hon
        obtain ⟨hends, hleft⟩ := hon
        obtain ⟨hsame, hoffset, htoEnd, -⟩ := pageOf_add (show i.len < toPageEnd addr by omega)
        split
        case h_1 => exact ⟨hone, nofun⟩
        case h_2 =>
          rw [← hoffset]
          have hrem : remaining - i.len ≤ toPageEnd (addr + UInt64.ofNat i.len) := by omega
          exact ⟨⟨hi, fun _ => hends, (ih (hsame.trans haddr) hrem).1⟩, nofun⟩

namespace TraceCache

variable {c : TraceCache} {addr : UInt64} {room slot : Nat}

/-- A run may go on in a trace that lies in one page and passes the check. -/
theorem check_of_joinable {stamps : StampTable} (h : c.joinable stamps mode addr room = some slot) :
    ∃ t, c.trace? slot = some t ∧ t.addr = addr ∧ t.mode = mode ∧ t.tail = .none ∧ t.len ≤ room ∧
      (stamps.check t.head).isSome = true := by
  unfold joinable at h
  cases hfind : c.find? addr mode with
  | none => rw [hfind] at h; cases h
  | some t =>
    rw [hfind] at h
    change (if _ then _ else _) = _ at h
    split at h
    case isFalse => cases h
    case isTrue hon =>
      cases h
      obtain ⟨hslot, haddr, hmode⟩ := find?_eq_some hfind
      simp only [Bool.and_eq_true, Bool.not_eq_true', decide_eq_true_eq, beq_iff_eq] at hon
      obtain ⟨⟨⟨hsplit, hlen⟩, -⟩, hcheck⟩ := hon
      exact ⟨t, hslot, haddr, hmode, by simpa [Trace.split] using hsplit, hlen, hcheck⟩

/-- On a board, that trace is current. -/
theorem joinable_eq_some (h : c.joinable ram.stamps mode addr room = some slot) :
    ∃ t, c.trace? slot = some t ∧ t.addr = addr ∧ t.mode = mode ∧ t.tail = .none ∧ t.len ≤ room ∧ t.Current ram := by
  obtain ⟨t, hslot, haddr, hmode, htail, hlen, hcheck⟩ := check_of_joinable h
  exact ⟨t, hslot, haddr, hmode, htail, hlen, (Trace.current_of_straight htail).2 hcheck⟩

end TraceCache

end TraceCore
