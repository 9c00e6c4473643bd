/-
Memory as an array of bytes. Whatever was called on it, and on the table that it shares, a read gives for each byte the
last value that a write put there, and it fails just when the range goes beyond memory. A write that fails changes
nothing, and one that changes a byte of cached code is reported.
-/
import Mathlib.Data.List.Basic
import Mathlib.Data.List.Induction
import TraceCore.Proofs.Memory.Account
import TraceCore.Proofs.Memory.Later

namespace TraceCore

namespace Ram

/-! ## Calls -/

/-- What is called on memory, or on the table that it reports to. -/
inductive Call where
  | read (addr : UInt64) (len : Nat)
  | readByte (addr : UInt64)
  | page (addr : UInt64)
  | write (addr : UInt64) (src : List UInt8)
  | writeByte (addr : UInt64) (value : UInt8)
  | stamps (call : StampTable.Call)
deriving DecidableEq

def call (ram : Ram) : Call → Ram
  | .read _ _ | .readByte _ | .page _ => ram
  | .write addr src => (ram.write addr src).2
  | .writeByte addr value => (ram.writeByte addr value).2
  | .stamps c => { ram with stamps := ram.stamps.call c }

def after (ram : Ram) (calls : List Call) : Ram := calls.foldl call ram

/-- The address and the bytes of a write. -/
def Call.written? : Call → Option (UInt64 × List UInt8)
  | .write addr src => some (addr, src)
  | .writeByte addr value => some (addr, [value])
  | _ => none

/-- The range goes beyond memory of `n` bytes or beyond the last address. -/
def Outside (n : Nat) (addr : UInt64) (len : Nat) : Prop := n < addr.toNat + len ∨ 2 ^ 64 - 1 < addr.toNat + len

instance (n : Nat) (addr : UInt64) (len : Nat) : Decidable (Outside n addr len) := inferInstanceAs (Decidable (_ ∨ _))

/-- What the byte at `x` of `n` bytes holds behind a call, when it held `value` before. -/
def Call.put (n x : Nat) (value : UInt8) (c : Call) : UInt8 :=
  match c.written? with
  | none => value
  | some (addr, src) =>
    if ¬Outside n addr src.length ∧ addr.toNat ≤ x then src.getD (x - addr.toNat) value else value

/-- The last value that the calls put into the byte at `x`, or zero if there is none. -/
def lastPut (n : Nat) (calls : List Call) (x : Nat) : UInt8 := calls.foldl (Call.put n x) 0

/-- Of each chunk of cached code with a byte that changed the table was told: the chunk is dirty, and the stamp of its
page and the generation have moved. -/
def Reported (ram ram' : Ram) : Prop :=
  ∀ x q, ram'.bytes[x]? ≠ ram.bytes[x]? → x / pageSize = q.toNat →
    hasChunk (ram.stamps.page q).code (x % pageSize / chunkSize) = true →
      hasChunk (ram'.stamps.page q).dirty (x % pageSize / chunkSize) = true ∧
        (ram'.stamps.page q).stamp = (ram.stamps.page q).stamp + 1 ∧ ram.stamps.generation < ram'.stamps.generation

/-! ## Memory that answers like an array -/

/-- Memory answers as an array of `n` bytes with the given values does, and what a call changes is reported. -/
structure Faithful (ram : Ram) (n : Nat) (value : Nat → UInt8) : Prop where
  size : ram.size = n
  read : ∀ addr len, ram.read addr len =
    if Outside n addr len then .error (.outOfRange addr len n)
    else .ok ((List.range len).map fun i => value (addr.toNat + i))
  readByte : ∀ addr, ram.readByte addr =
    if Outside n addr 1 then .error (.outOfRange addr 1 n) else .ok (value addr.toNat)
  page : ∀ addr, (ram.page? addr).map (·.window 0 pageSize) =
    if addr.toNat < n then some ((List.range pageSize).map fun i => value (addr.toNat / pageSize * pageSize + i))
    else none
  write : ∀ addr src,
    if Outside n addr src.length then ram.write addr src = (.error (.outOfRange addr src.length n), ram)
    else (ram.write addr src).1 = .ok ()
  writeByte : ∀ addr byte,
    if Outside n addr 1 then ram.writeByte addr byte = (.error (.outOfRange addr 1 n), ram)
    else (ram.writeByte addr byte).1 = .ok ()
  reported : ∀ c, ram.Reported (ram.call c)

variable {ram : Ram} {value : Nat → UInt8} {addr : UInt64} {len x : Nat} {src : List UInt8}

theorem fits_iff (hsize : ram.bytes.size < 2 ^ 64) : ram.fits addr len = true ↔ ¬Outside ram.size addr len := by
  unfold fits Outside size
  simp only [decide_eq_true_eq]
  omega

theorem fits_eq_false_iff (hsize : ram.bytes.size < 2 ^ 64) :
    ram.fits addr len = false ↔ Outside ram.size addr len := by
  rw [← Bool.not_eq_true, fits_iff hsize, not_not]

/-- The bytes of memory are `value`. -/
def Matches (ram : Ram) (value : Nat → UInt8) : Prop := ∀ x < ram.size, ram.bytes[x]? = some (value x)

theorem Matches.slice (h : ram.Matches value) (hin : addr.toNat + len ≤ ram.size) :
    ram.slice addr len = (List.range len).map fun i => value (addr.toNat + i) := by
  apply List.ext_getElem?
  intro i
  rw [getElem?_slice, List.getElem?_map]
  by_cases hi : i < len
  · rw [if_pos hi, List.getElem?_range hi, h _ (by omega)]
    rfl
  · rw [if_neg hi, List.getElem?_eq_none (by simpa using hi)]
    rfl

theorem read_of_matches (h : ram.Matches value) (hsize : ram.bytes.size < 2 ^ 64) (addr : UInt64) (len : Nat) :
    ram.read addr len = if Outside ram.size addr len then .error (.outOfRange addr len ram.size)
      else .ok ((List.range len).map fun i => value (addr.toNat + i)) := by
  unfold read
  by_cases hout : Outside ram.size addr len
  · rw [if_pos hout, (fits_eq_false_iff hsize).2 hout]
    rfl
  · have hin : addr.toNat + len ≤ ram.size := by
      unfold Outside at hout
      omega
    rw [if_neg hout, (fits_iff hsize).2 hout, if_pos rfl, ← h.slice hin]
    rfl

theorem readByte_of_matches (h : ram.Matches value) (hsize : ram.bytes.size < 2 ^ 64) (addr : UInt64) :
    ram.readByte addr = if Outside ram.size addr 1 then .error (.outOfRange addr 1 ram.size)
      else .ok (value addr.toNat) := by
  unfold readByte
  rw [read_of_matches h hsize]
  split <;> rfl

theorem page_of_matches (h : ram.Matches value) (addr : UInt64) : (ram.page? addr).map (·.window 0 pageSize) =
    if addr.toNat < ram.size then
      some ((List.range pageSize).map fun i => value (addr.toNat / pageSize * pageSize + i))
    else none := by
  have haligned := ram.aligned
  have hbase := toNat_pageBase addr
  have hoffset : pageOffset (pageBase addr) = 0 := by
    rw [pageOffset_eq, hbase]
    exact Nat.mul_mod_left ..
  by_cases hin : addr.toNat < ram.size
  · obtain ⟨page, hpage⟩ := Option.isSome_iff_exists.1 (isSome_page?.2 hin)
    have hsame : pageOf (pageBase addr) = pageOf addr := by
      apply UInt64.toNat_inj.1
      rw [toNat_pageOf, toNat_pageOf, hbase]
      unfold pageSize
      omega
    have hwindow := window_eq_slice hpage hsame pageSize
    rw [hoffset, toPageEnd, hoffset, Nat.sub_zero, Nat.min_self] at hwindow
    rw [if_pos hin, hpage, Option.map_some, hwindow, h.slice, hbase]
    rw [hbase]
    unfold size at *
    unfold pageSize at *
    omega
  · rw [if_neg hin]
    cases hpage : ram.page? addr with
    | none => rfl
    | some page => exact absurd (isSome_page?.1 (by rw [hpage]; rfl)) hin

theorem write_of_outside (hsize : ram.bytes.size < 2 ^ 64) (hout : Outside ram.size addr src.length) :
    ram.write addr src = (.error (.outOfRange addr src.length ram.size), ram) := by
  unfold write
  rw [(fits_eq_false_iff hsize).2 hout]
  rfl

theorem write_of_inside (hsize : ram.bytes.size < 2 ^ 64) (hin : ¬Outside ram.size addr src.length) :
    ram.write addr src = (.ok (), ram.store addr src) := by
  unfold write
  rw [(fits_iff hsize).2 hin]
  rfl

theorem write_fits (hsize : ram.bytes.size < 2 ^ 64) (addr : UInt64) (src : List UInt8) :
    if Outside ram.size addr src.length then ram.write addr src = (.error (.outOfRange addr src.length ram.size), ram)
    else (ram.write addr src).1 = .ok () := by
  split
  case isTrue hout => exact write_of_outside hsize hout
  case isFalse hin => rw [write_of_inside hsize hin]

/-! ## Reports -/

theorem reported_of_bytes {ram' : Ram} (h : ram'.bytes = ram.bytes) : ram.Reported ram' :=
  fun x _ hchanged => absurd (congrArg (·[x]?) h) hchanged

/-- A store that changes a byte of cached code hits its page. -/
theorem reported_store (ht : ram.Tracked) (addr : UInt64) (src : List UInt8) : ram.Reported (ram.store addr src) := by
  intro x q hchanged hq hcode
  have hrange : addr.toNat ≤ x ∧ x < addr.toNat + src.length ∧ x < ram.bytes.size := by
    by_contra hnot
    apply hchanged
    show (overwrite _ _ _)[x]? = _
    rw [getElem?_overwrite, if_neg hnot]
  obtain ⟨hlow, hhigh, hsize⟩ := hrange
  have hlast := ht.addressable
  have hhit : (ram.stamps.page q).hit (storedChunks addr src.length q) = true :=
    StampTable.hit_iff_writes.2 ⟨x, hlow, hhigh, by omega, hq, hcode⟩
  have hpage : (ram.store addr src).stamps.page q = _ := StampTable.page_store ram.stamps addr src.length q
  rw [PageState.store_of_hit hhit] at hpage
  rw [hpage]
  refine ⟨?_, rfl, ?_⟩
  · have hstored : hasChunk (storedChunks addr src.length q) (x % pageSize / chunkSize) = true :=
      (hasChunk_storedChunks ..).2 ⟨x, hlow, hhigh, by omega, hq, rfl⟩
    rw [hasChunk_or, hstored, Bool.or_true]
  · obtain ⟨hle, hsame⟩ := StampTable.generation_store ram.stamps addr src.length
    refine Nat.lt_of_le_of_ne hle fun hgen => ?_
    -- had the generation stood still, so had the stamp
    have hstill : (ram.store addr src).stamps = ram.stamps := hsame hgen.symm
    rw [hstill] at hpage
    exact PageState.stamp_ne Nat.one_pos (by decide) (congrArg PageState.stamp hpage).symm

theorem reported_write (ht : ram.Tracked) (addr : UInt64) (src : List UInt8) :
    ram.Reported (ram.write addr src).2 := by
  by_cases hout : Outside ram.size addr src.length
  · rw [write_of_outside ht.addressable hout]
    exact reported_of_bytes rfl
  · rw [write_of_inside ht.addressable hout]
    exact reported_store ht addr src

theorem reported_call (ht : ram.Tracked) (c : Call) : ram.Reported (ram.call c) := by
  cases c with
  | read | readByte | page | stamps => exact reported_of_bytes rfl
  | write addr src => exact reported_write ht addr src
  | writeByte addr byte => exact reported_write ht addr [byte]

theorem faithful_of_matches (ht : ram.Tracked) (h : ram.Matches value) : ram.Faithful ram.size value where
  size := rfl
  read := read_of_matches h ht.addressable
  readByte := readByte_of_matches h ht.addressable
  page := page_of_matches h
  write addr src := write_fits ht.addressable addr src
  writeByte addr byte := write_fits ht.addressable addr [byte]
  reported := reported_call ht

/-! ## What calls leave -/

theorem size_write (ram : Ram) (addr : UInt64) (src : List UInt8) :
    (ram.write addr src).2.bytes.size = ram.bytes.size ∧
      (ram.write addr src).2.stamps.pages.size = ram.stamps.pages.size := by
  unfold write
  split
  · exact ⟨size_overwrite .., StampTable.size_store ..⟩
  · exact ⟨rfl, rfl⟩

theorem size_call (ram : Ram) (c : Call) :
    (ram.call c).bytes.size = ram.bytes.size ∧ (ram.call c).stamps.pages.size = ram.stamps.pages.size := by
  cases c with
  | read | readByte | page => exact ⟨rfl, rfl⟩
  | write addr src => exact size_write ram addr src
  | writeByte addr byte => exact size_write ram addr [byte]
  | stamps c => exact ⟨rfl, StampTable.size_call ram.stamps c⟩

theorem Tracked.call (ht : ram.Tracked) (c : Call) : (ram.call c).Tracked := by
  obtain ⟨hbytes, hpages⟩ := ram.size_call c
  constructor
  · rw [hbytes, hpages, ht.size]
  · rw [hbytes]
    exact ht.addressable

theorem Matches.store (h : ram.Matches value) (hsize : ram.bytes.size < 2 ^ 64) {c : Call}
    (hc : c.written? = some (addr, src)) : (ram.write addr src).2.Matches fun x => c.put ram.size x (value x) := by
  intro x hx
  unfold Call.put
  rw [hc]
  dsimp only
  by_cases hout : Outside ram.size addr src.length
  · rw [write_of_outside hsize hout] at hx ⊢
    rw [if_neg (fun hin => hin.1 hout)]
    exact h x hx
  · rw [write_of_inside hsize hout] at hx ⊢
    have hx : x < ram.bytes.size := by
      rw [← size_overwrite ram.bytes addr.toNat src]
      exact hx
    have hvalue : ram.bytes[x]? = some (value x) := h x hx
    show (overwrite _ _ _)[x]? = _
    rw [getElem?_overwrite]
    by_cases hlow : addr.toNat ≤ x
    · have hput : ¬Outside ram.size addr src.length ∧ addr.toNat ≤ x := ⟨hout, hlow⟩
      rw [if_pos hput, List.getD_eq_getElem?_getD]
      by_cases hhigh : x < addr.toNat + src.length
      · rw [if_pos ⟨hlow, hhigh, hx⟩, List.getElem?_eq_getElem (show x - addr.toNat < src.length by omega)]
        rfl
      · have hnone : src[x - addr.toNat]? = none := List.getElem?_eq_none (by omega)
        rw [if_neg (fun hin => hhigh hin.2.1), hnone, hvalue]
        rfl
    · rw [if_neg (fun hin => hlow hin.1), if_neg (fun hin => hlow hin.2), hvalue]

/-- A call puts into each byte what it writes there. -/
theorem Matches.call (h : ram.Matches value) (hsize : ram.bytes.size < 2 ^ 64) (c : Call) :
    (ram.call c).Matches fun x => c.put ram.size x (value x) := by
  cases c with
  | read | readByte | page | stamps => exact h
  | write addr src => exact h.store hsize rfl
  | writeByte addr byte => exact h.store hsize rfl

theorem matches_ofSize {size : UInt64} (h : Ram.ofSize size = .ok ram) : ram.Matches fun _ => 0 := by
  intro x hx
  unfold Ram.ofSize withStamps at h
  split at h
  case isFalse => cases h
  case isTrue =>
    cases h
    rw [Ram.size, Array.size_replicate] at hx
    rw [Array.getElem?_replicate, if_pos hx]

theorem size_ofSize {size : UInt64} (h : Ram.ofSize size = .ok ram) :
    ram.size = (size.toNat + (pageSize - 1)) / pageSize * pageSize := by
  unfold Ram.ofSize withStamps at h
  split at h
  case isFalse => cases h
  case isTrue =>
    cases h
    exact Array.size_replicate

theorem after_concat (ram : Ram) (calls : List Call) (c : Call) : ram.after (calls ++ [c]) = (ram.after calls).call c :=
  List.foldl_concat ..

theorem matches_after {size : UInt64} (h : Ram.ofSize size = .ok ram) (calls : List Call) :
    (ram.after calls).Tracked ∧ (ram.after calls).size = ram.size ∧
      (ram.after calls).Matches (lastPut ram.size calls) := by
  induction calls using List.reverseRecOn with
  | nil => exact ⟨(tracked_ofSize h).1, rfl, matches_ofSize h⟩
  | append_singleton calls c ih =>
    obtain ⟨ht, hsize, hmatches⟩ := ih
    rw [after_concat]
    refine ⟨ht.call c, ((ram.after calls).size_call c).1.trans hsize, fun x hx => ?_⟩
    have hput : lastPut ram.size (calls ++ [c]) x = c.put ram.size x (lastPut ram.size calls x) := List.foldl_concat ..
    have hcall := hmatches.call ht.addressable c x hx
    rw [hsize] at hcall
    rw [hput]
    exact hcall

/-- New memory, behind any calls on it and on its table, is an array of its size rounded up to pages, of which each byte
has the last value that was written to it. -/
theorem faithful_after {size : UInt64} (h : Ram.ofSize size = .ok ram) (calls : List Call) :
    (ram.after calls).Faithful ((size.toNat + (pageSize - 1)) / pageSize * pageSize)
      (lastPut ((size.toNat + (pageSize - 1)) / pageSize * pageSize) calls) := by
  obtain ⟨ht, hsize, hmatches⟩ := matches_after h calls
  have hfaithful := faithful_of_matches ht hmatches
  rwa [hsize, size_ofSize h] at hfaithful

/-- The second byte is written twice, and the last write does not fit. -/
theorem faithful_after_overwriting :
    (zeroPage.after [.write 16 [1, 2], .stamps (.register 0 1), .writeByte 17 7, .write 4095 [8, 9]]).read 16 3 =
      .ok [1, 7, 0] := by
  have hread := (faithful_after ofSize_zeroPage
    [.write 16 [1, 2], .stamps (.register 0 1), .writeByte 17 7, .write 4095 [8, 9]]).read 16 3
  exact hread.trans (by decide +kernel)

end Ram

end TraceCore
