/-
What instructions memory holds from an address on, and what a snapshot of their bytes is worth.
-/
import TraceCore.Proofs.Instr.Prefix
import TraceCore.Proofs.Memory.Later

namespace TraceCore

namespace Ram

/-! ## Instructions in memory -/

/-- The instruction at `addr`. -/
def decode (ram : Ram) (mode : FetchMode) (addr : UInt64) : Decoded :=
  decodeInstr (ram.slice addr maxInstrLen) mode

/-- The instructions follow each other in memory from `addr` on, and none but the last ends a
trace. -/
def Decodes (ram : Ram) (mode : FetchMode) : UInt64 → List Instr → Prop
  | _, [] => True
  | addr, i :: is =>
    ram.decode mode addr = .complete i ∧ (is ≠ [] → i.ends = false) ∧ Decodes ram mode (addr + UInt64.ofNat i.len) is

/-- Bytes that some instructions were decoded from. -/
def bytesOf (is : List Instr) : Nat := (is.map (·.len)).sum

@[simp] theorem bytesOf_nil : bytesOf [] = 0 := rfl

@[simp] theorem bytesOf_cons (i : Instr) (is : List Instr) : bytesOf (i :: is) = i.len + bytesOf is := by
  simp [bytesOf]

@[simp] theorem bytesOf_append (is js : List Instr) : bytesOf (is ++ js) = bytesOf is + bytesOf js := by
  simp [bytesOf]

theorem foldr_len (is : List Instr) : is.foldr (fun i n => i.len + n) 0 = bytesOf is := by
  induction is with
  | nil => rfl
  | cons i is ih => rw [List.foldr_cons, ih, bytesOf_cons]

variable {ram ram' : Ram} {mode : FetchMode} {addr : UInt64}

theorem toNat_add_ofNat {a : UInt64} {n : Nat} (h : a.toNat + n < 2 ^ 64) :
    (a + UInt64.ofNat n).toNat = a.toNat + n := by
  rw [UInt64.toNat_add, UInt64.toNat_ofNat']
  omega

/-- The bytes of an instruction in memory lie in memory. -/
theorem len_of_decode {i : Instr} (h : ram.decode mode addr = .complete i) :
    0 < i.len ∧ i.len ≤ maxInstrLen ∧ addr.toNat + i.len ≤ ram.bytes.size := by
  obtain ⟨hpos, hmax, hle⟩ := len_of_decodeInstr h
  rw [length_slice] at hle
  exact ⟨hpos, hmax, by omega⟩

/-- Only the bytes of an instruction matter. -/
theorem decode_congr {i : Instr} (h : ram.decode mode addr = .complete i)
    (hsame : ram'.slice addr i.len = ram.slice addr i.len) : ram'.decode mode addr = .complete i := by
  obtain ⟨-, hmax, -⟩ := len_of_decodeInstr h
  refine decodeInstr_congr h ?_
  rw [take_slice, take_slice, Nat.min_eq_left hmax]
  exact hsame

/-- The front of what memory holds at an address is enough, if it has the whole instruction. -/
theorem decodeInstr_slice {n : Nat} {i : Instr} (h : ram.decode mode addr = .complete i) (hn : i.len ≤ n) :
    decodeInstr (ram.slice addr n) mode = .complete i := by
  obtain ⟨-, hmax, -⟩ := len_of_decodeInstr h
  refine decodeInstr_congr h ?_
  rw [take_slice, take_slice, Nat.min_eq_left hmax, Nat.min_eq_left hn]

theorem decode_of_slice {n : Nat} {i : Instr} (h : decodeInstr (ram.slice addr n) mode = .complete i) :
    ram.decode mode addr = .complete i := by
  obtain ⟨-, hmax, hle⟩ := len_of_decodeInstr h
  rw [length_slice] at hle
  refine decodeInstr_congr h ?_
  rw [take_slice, take_slice, Nat.min_eq_left hmax, Nat.min_eq_left (by omega)]

/-- Instructions stay in memory while their bytes do. -/
theorem Decodes.congr {is : List Instr} (h : ram.Decodes mode addr is)
    (hsize : ram.bytes.size < 2 ^ 64) (hsame : ∀ x, addr.toNat ≤ x → x < addr.toNat + bytesOf is →
      ram'.bytes[x]? = ram.bytes[x]?) : ram'.Decodes mode addr is := by
  induction is generalizing addr with
  | nil => trivial
  | cons i is ih =>
    obtain ⟨hi, hends, his⟩ := h
    obtain ⟨-, -, hle⟩ := len_of_decode hi
    have hadd : (addr + UInt64.ofNat i.len).toNat = addr.toNat + i.len := toNat_add_ofNat (by omega)
    rw [bytesOf_cons] at hsame
    refine ⟨decode_congr hi (slice_eq fun x hx => hsame _ (by omega) (by omega)), hends, ih his ?_⟩
    intro x h1 h2
    exact hsame x (by omega) (by omega)

theorem Decodes.append {is js : List Instr} (h : ram.Decodes mode addr is) (hends : js ≠ [] → ∀ i ∈ is, i.ends = false)
    (hjs : ram.Decodes mode (addr + UInt64.ofNat (bytesOf is)) js) : ram.Decodes mode addr (is ++ js) := by
  induction is generalizing addr with
  | nil => simpa using hjs
  | cons i is ih =>
    obtain ⟨hi, hlast, his⟩ := h
    refine ⟨hi, ?_, ih his (fun hne j hj => hends hne j (List.mem_cons_of_mem _ hj)) ?_⟩
    · intro hne
      cases js with
      | nil => exact hlast (by simpa using hne)
      | cons j js => exact hends (List.cons_ne_nil _ _) i List.mem_cons_self
    · rw [bytesOf_cons, UInt64.ofNat_add, ← UInt64.add_assoc] at hjs
      exact hjs

/-- The instruction behind the first `k` of them. -/
theorem Decodes.drop {is : List Instr} (h : ram.Decodes mode addr is) (k : Nat) :
    ram.Decodes mode (addr + UInt64.ofNat (bytesOf (is.take k))) (is.drop k) := by
  induction is generalizing addr k with
  | nil => simp [Decodes]
  | cons i is ih =>
    cases k with
    | zero => simpa using h
    | succ k =>
      obtain ⟨-, -, his⟩ := h
      have := ih his k
      rw [List.take_succ_cons, bytesOf_cons, UInt64.ofNat_add, ← UInt64.add_assoc, List.drop_succ_cons]
      exact this

/-! ## Snapshots -/

/-- What the snapshot is of has not been written. -/
def current (ram : Ram) (snap : Snapshot) : Prop := (ram.stamps.check snap).isSome = true

/-- A snapshot of a range in one page of memory. No store into the range passes unseen. -/
structure Guards (ram : Ram) (snap : Snapshot) (addr : UInt64) (len : Nat) : Prop where
  page : snap.page = pageOf addr
  mask : snap.mask = touchedChunks addr len
  inside : pageOffset addr + len ≤ pageSize
  watches : ∃ s, ram.stamps.page? snap.page = some s ∧ s.Watches snap.stamp snap.mask

theorem current_iff {snap : Snapshot} {s : PageState} (hs : ram.stamps.page? snap.page = some s) :
    ram.current snap ↔ s.current snap.stamp snap.mask = true := by
  unfold current StampTable.check
  rw [hs]
  dsimp only
  cases s.current snap.stamp snap.mask <;> simp

variable {snap : Snapshot} {len : Nat}

theorem Guards.later (h : ram.Guards snap addr len) (hl : ram.Later ram') : ram'.Guards snap addr len := by
  obtain ⟨s, hs, hw⟩ := h.watches
  obtain ⟨s', hs'⟩ := hl.page? hs
  exact ⟨h.page, h.mask, h.inside, s', hs', hl.watches _ _ _ _ _ hs hs' hw⟩

/-- The whole page of a snapshot lies in memory. -/
theorem Guards.inMemory (h : ram.Guards snap addr len) (ht : ram.Tracked) :
    addr.toNat + toPageEnd addr ≤ ram.bytes.size := by
  obtain ⟨s, hs, -⟩ := h.watches
  have hlt : ¬ ram.stamps.pages.size ≤ snap.page.toNat := by
    rw [← StampTable.page?_eq_none_iff, hs]; exact nofun
  have hsize := ht.size
  have ho := pageOffset_eq addr
  rw [h.page, toNat_pageOf] at hlt
  unfold toPageEnd pageSize at *
  omega

/-- A snapshot that is current later was so before, and its range holds the same bytes. -/
theorem Guards.unchanged (h : ram.Guards snap addr len) (hl : ram.Later ram') (hc : ram'.current snap) :
    ram.current snap ∧ ∀ x, addr.toNat ≤ x → x < addr.toNat + len → ram'.bytes[x]? = ram.bytes[x]? := by
  obtain ⟨s, hs, hw⟩ := h.watches
  obtain ⟨s', hs'⟩ := hl.page? hs
  obtain ⟨hcur, hsame⟩ := hl.unchanged _ _ _ _ _ hs hs' hw ((current_iff hs').1 hc)
  refine ⟨(current_iff hs).2 hcur, fun x h1 h2 => hsame x ?_ ?_⟩
  · have hp := toNat_pageOf addr
    have ho := pageOffset_eq addr
    have hin := h.inside
    rw [h.page, hp]
    unfold pageSize at *
    omega
  · have ho := pageOffset_eq addr
    have hin := h.inside
    rw [h.mask]
    unfold pageSize at *
    exact hasChunk_of_mem (by omega) (by omega) (by unfold pageSize; omega)

/-- While the generation stands still, a current snapshot stays current. -/
theorem Later.current (hl : ram.Later ram') (hgen : ram'.stamps.generation = ram.stamps.generation)
    (hc : ram.current snap) : ram'.current snap := by
  cases hs : ram.stamps.page? snap.page with
  | none =>
    have : ram'.stamps.page? snap.page = none := by
      rw [StampTable.page?_eq_none_iff, hl.pages, ← StampTable.page?_eq_none_iff]; exact hs
    unfold Ram.current StampTable.check
    rw [this]; rfl
  | some s =>
    obtain ⟨s', hs'⟩ := hl.page? hs
    obtain ⟨hstamp, hdirty⟩ := hl.still hgen _ _ _ hs hs'
    rw [current_iff hs] at hc
    rw [current_iff hs']
    unfold PageState.current at hc ⊢
    rw [hstamp, hdirty]; exact hc

/-- A current snapshot may take over the present stamp, and is current then. -/
theorem Guards.adopt (h : ram.Guards snap addr len) {stamp : UInt32} (hc : ram.stamps.check snap = some stamp) :
    ram.Guards { snap with stamp } addr len ∧ ram.current { snap with stamp } := by
  obtain ⟨s, hs, hw⟩ := h.watches
  have hcur : s.current snap.stamp snap.mask = true := by
    rw [← current_iff hs, current, hc]; rfl
  have hstamp : s.stamp = stamp := by
    unfold StampTable.check at hc
    rw [hs] at hc
    dsimp only at hc
    rw [hcur, if_pos rfl] at hc
    exact Option.some.inj hc
  subst hstamp
  refine ⟨⟨h.page, h.mask, h.inside, s, hs, hw.adopt hcur⟩, ?_⟩
  have hs' : ram.stamps.page? { snap with stamp := s.stamp }.page = some s := hs
  rw [current_iff hs']
  simp [PageState.current]

/-- The snapshot of a range that is registered now. -/
theorem guards_register (ram' : Ram) (len : Nat) (ht : ram.Tracked) (haddr : addr.toNat < ram.bytes.size)
    (hin : pageOffset addr + len ≤ pageSize)
    (hreg : ram'.stamps = ram.stamps.register (pageOf addr) (touchedChunks addr len)) :
    ram'.Guards ⟨pageOf addr, (ram.stamps.page (pageOf addr)).stamp, touchedChunks addr len⟩ addr len ∧
      ram'.current ⟨pageOf addr, (ram.stamps.page (pageOf addr)).stamp, touchedChunks addr len⟩ := by
  have hsome : ∃ s, ram.stamps.page? (pageOf addr) = some s := by
    cases hs : ram.stamps.page? (pageOf addr) with
    | some s => exact ⟨s, rfl⟩
    | none =>
      rw [StampTable.page?_eq_none_iff, toNat_pageOf] at hs
      have := ht.size
      unfold pageSize at *
      omega
  obtain ⟨s, hs⟩ := hsome
  have hs' : ram'.stamps.page? (pageOf addr) = some (s.register (touchedChunks addr len)) := by
    rw [hreg, StampTable.page?_register, if_pos rfl, hs]; rfl
  have hstamp : (ram.stamps.page (pageOf addr)).stamp = s.stamp := by rw [StampTable.page, hs]; rfl
  rw [hstamp]
  refine ⟨⟨rfl, rfl, hin, _, hs', PageState.watches_register s _⟩, ?_⟩
  rw [current_iff hs']
  simp [PageState.current, PageState.register]

end Ram

end TraceCore
