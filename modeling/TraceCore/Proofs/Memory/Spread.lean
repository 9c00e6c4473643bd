/-
A store over all the pages that it meets. However long it is and wherever it begins and ends, it is over after one turn
for each page of the table and one more, each page changes just as the chunks that the range meets in it say, and the
generation counts the pages that changed.
-/
import Mathlib.Algebra.BigOperators.Group.Finset.Piecewise
import TraceCore.Proofs.Memory.Snapshot

namespace TraceCore

namespace PageState

/-- Every hit moves the stamp. -/
theorem store_ne_self_iff {s : PageState} {mask : UInt32} : s.store mask ≠ s ↔ s.hit mask = true := by
  cases hit : s.hit mask with
  | false => simp [store_of_not_hit hit]
  | true =>
    simp only [iff_true]
    intro h
    have hstamp : s.stamp + UInt32.ofNat 1 = s.stamp := by
      have := congrArg PageState.stamp h
      rwa [store_of_hit hit] at this
    exact stamp_ne Nat.one_pos (by decide) hstamp

theorem store_eq_ite (s : PageState) (mask : UInt32) :
    s.store mask = if s.code &&& mask = 0 then s else ⟨s.code &&& ~~~mask, s.dirty ||| mask, s.stamp + 1⟩ := by
  cases hit : s.hit mask with
  | false =>
    have hzero : s.code &&& mask = 0 := by
      rw [PageState.hit] at hit
      simpa using hit
    rw [if_pos hzero, store_of_not_hit hit]
  | true =>
    have hne : ¬s.code &&& mask = 0 := by simpa [PageState.hit] using hit
    rw [if_neg hne, store_of_hit hit]

theorem hitCount_zero (s : PageState) : s.hitCount 0 = 0 := by
  simp [hitCount, hit]

end PageState

namespace StampTable

/-! ## The loop -/

/-- A store in at most so many turns, each of which stores into one page; `none` when it is not over by then. -/
def storeWithin (t : StampTable) (addr : UInt64) (len : Nat) : (turns : Nat) → Option StampTable
  | 0 => none
  | turns + 1 =>
    if len = 0 then some t
    else if t.pages.size ≤ (pageOf addr).toNat then some t
    else
      let n := bytesInPage addr len
      let t := t.storePage (pageOf addr) (touchedChunks addr n)
      if addr.toNat + n < UInt64.size then t.storeWithin (addr + UInt64.ofNat n) (len - n) turns else some t

/-- A turn either reaches the end of the range or goes on in the next page. -/
theorem storeWithin_eq (t : StampTable) (addr : UInt64) (len turns : Nat)
    (h : t.pages.size - (pageOf addr).toNat < turns) : t.storeWithin addr len turns = some (t.store addr len) := by
  induction turns generalizing t addr len with
  | zero => omega
  | succ turns ih =>
    unfold storeWithin store
    by_cases hlen : len = 0
    · rw [if_pos hlen, dif_pos hlen]
    · rw [if_neg hlen, dif_neg hlen]
      by_cases hout : t.pages.size ≤ (pageOf addr).toNat
      · rw [if_pos hout, if_pos hout]
      · rw [if_neg hout, if_neg hout]
        dsimp only
        by_cases hend : addr.toNat + bytesInPage addr len < UInt64.size
        · rw [if_pos hend, if_pos hend]
          by_cases hrest : len - bytesInPage addr len = 0
          · -- nothing is left, and the turn that finds it out is there
            obtain ⟨turns, rfl⟩ := Nat.exists_eq_succ_of_ne_zero (show turns ≠ 0 by omega)
            rw [hrest, store]
            rfl
          · refine ih _ _ _ ?_
            have hnext := toNat_add_bytesInPage hend
            have hp := toNat_pageOf addr
            have hp' := toNat_pageOf (addr + UInt64.ofNat (bytesInPage addr len))
            have ho := pageOffset_eq addr
            rw [size_storePage, hp', hnext]
            unfold bytesInPage pageSize at *
            omega
        · rw [if_neg hend, if_neg hend]

/-! ## The count -/

theorem toNat_pageNumber {i : Nat} (h : i < 2 ^ 52) : (UInt64.ofNat i).toNat = i :=
  UInt64.toNat_ofNat_of_lt' (Nat.lt_trans h (by decide))

theorem page_storePage (t : StampTable) (p q : UInt64) (mask : UInt32) :
    (t.storePage p mask).page q = if p = q then (t.page q).store mask else t.page q := by
  unfold page
  rw [page?_storePage]
  split
  case isFalse => rfl
  case isTrue =>
    cases t.page? q with
    | none => simp [PageState.store, PageState.hit]
    | some s => rfl

theorem generation_storePage_eq (t : StampTable) (p : UInt64) (mask : UInt32) :
    (t.storePage p mask).generation = t.generation + (t.page p).hitCount mask := by
  unfold storePage PageState.hitCount
  split <;> rfl

/-- How many pages a store of `len` bytes at `addr` hits. -/
def hitPages (t : StampTable) (addr : UInt64) (len : Nat) : Nat :=
  ∑ i ∈ Finset.range t.pages.size, (t.page (UInt64.ofNat i)).hitCount (chunksIn addr len (UInt64.ofNat i))

theorem hitPages_eq_zero {t : StampTable} {addr : UInt64} {len : Nat}
    (h : ∀ i < t.pages.size, chunksIn addr len (UInt64.ofNat i) = 0) : t.hitPages addr len = 0 := by
  apply Finset.sum_eq_zero
  intro i hi
  rw [h i (Finset.mem_range.1 hi), PageState.hitCount_zero]

/-- The first page is hit or not, and the others are hit by what lies behind it. -/
theorem hitPages_eq_add {t : StampTable} {addr : UInt64} {len rest : Nat} {next : UInt64}
    (hsize : t.pages.size ≤ 2 ^ 52) (hin : (pageOf addr).toNat < t.pages.size)
    (hself : chunksIn next rest (pageOf addr) = 0)
    (hothers : ∀ q : UInt64, q.toNat < 2 ^ 52 → pageOf addr ≠ q → chunksIn next rest q = chunksIn addr len q) :
    t.hitPages addr len = (t.page (pageOf addr)).hitCount (touchedChunks addr (bytesInPage addr len)) +
      (t.storePage (pageOf addr) (touchedChunks addr (bytesInPage addr len))).hitPages next rest := by
  have hmem : (pageOf addr).toNat ∈ Finset.range t.pages.size := Finset.mem_range.2 hin
  unfold hitPages
  rw [size_storePage, ← Finset.add_sum_erase _ _ hmem, ← Finset.add_sum_erase _ _ hmem]
  simp only [UInt64.ofNat_toNat, hself, PageState.hitCount_zero, Nat.zero_add, chunksIn_bytesInPage]
  congr 1
  refine Finset.sum_congr rfl fun i hi => ?_
  obtain ⟨hne, hi⟩ := Finset.mem_erase.1 hi
  have hlt : i < 2 ^ 52 := Nat.lt_of_lt_of_le (Finset.mem_range.1 hi) hsize
  have hpage : pageOf addr ≠ UInt64.ofNat i := by
    intro h
    rw [h, toNat_pageNumber hlt] at hne
    exact hne rfl
  rw [page_storePage, if_neg hpage, hothers _ (by rw [toNat_pageNumber hlt]; exact hlt) hpage]

/-- The generation counts the pages that a store hits. -/
theorem generation_store_eq (t : StampTable) (addr : UInt64) (len : Nat) (hsize : t.pages.size ≤ 2 ^ 52) :
    (t.store addr len).generation = t.generation + t.hitPages addr len := by
  fun_induction store t addr len with
  | case1 t addr => rw [hitPages_eq_zero fun i _ => chunksIn_empty ..]; rfl
  | case2 t addr len hlen hout =>
    rw [hitPages_eq_zero fun i hi => chunksIn_of_lt ?_]
    · rfl
    · rw [toNat_pageNumber (Nat.lt_of_lt_of_le hi hsize)]
      omega
  | case3 t addr len hlen hin n t' hend ih =>
    have hadd : t.hitPages addr len = (t.page (pageOf addr)).hitCount (touchedChunks addr n) + _ :=
      hitPages_eq_add hsize (Nat.lt_of_not_le hin) (chunksIn_rest_self hend) fun q _ hq => chunksIn_rest hend hq
    have hgen : t'.generation = _ := generation_storePage_eq t (pageOf addr) (touchedChunks addr n)
    rw [ih (by rw [size_storePage]; exact hsize), hadd, hgen, Nat.add_assoc]
  | case4 t addr len hlen hin n t' hend =>
    have hadd : t.hitPages addr len = (t.page (pageOf addr)).hitCount (touchedChunks addr n) + t'.hitPages addr 0 :=
      hitPages_eq_add hsize (Nat.lt_of_not_le hin) (chunksIn_empty ..) fun q hlt hq =>
        (chunksIn_empty ..).trans (chunksIn_of_end (Nat.le_of_not_lt hend) hq hlt).symm
    rw [hadd, hitPages_eq_zero fun i _ => chunksIn_empty .., Nat.add_zero]
    exact generation_storePage_eq ..

/-- The pages that a store hits are those that it changes. -/
theorem hitPages_eq_card (t : StampTable) (addr : UInt64) (len : Nat) (hsize : t.pages.size ≤ 2 ^ 52) :
    t.hitPages addr len =
      ((Finset.range t.pages.size).filter fun i => (t.store addr len).pages[i]? ≠ t.pages[i]?).card := by
  rw [Finset.card_filter]
  refine Finset.sum_congr rfl fun i hi => ?_
  have hin := Finset.mem_range.1 hi
  have hnumber : (UInt64.ofNat i).toNat = i := toNat_pageNumber (Nat.lt_of_lt_of_le hin hsize)
  have hpage : ∀ u : StampTable, u.pages[i]? = u.page? (UInt64.ofNat i) := by
    intro u
    unfold page?
    rw [hnumber]
  have hchanged : (t.store addr len).pages[i]? ≠ t.pages[i]? ↔
      (t.page (UInt64.ofNat i)).hit (chunksIn addr len (UInt64.ofNat i)) = true := by
    rw [hpage, hpage, page?_store _ _ _ (by omega), page?_of_lt (by omega), Option.map_some,
      ← PageState.store_ne_self_iff]
    exact Option.some_inj.not
  exact (if_congr hchanged rfl rfl).symm

/-- A store ends, and hits each page with the chunks that the range meets in it: a page without cached code there is as
it was, any other loses them as cached code, gains them as dirty and counts the hit. The generation counts the pages
that changed. -/
theorem store_spread (t : StampTable) (addr : UInt64) (len : Nat) (hsize : t.pages.size ≤ 2 ^ 52) :
    t.storeWithin addr len (t.pages.size + 1) = some (t.store addr len) ∧
      (t.store addr len).pages.size = t.pages.size ∧
      (∀ q s, t.page? q = some s → ∃ met : UInt32,
        (∀ j, hasChunk met j = true ↔ ∃ x, addr.toNat ≤ x ∧ x < addr.toNat + len ∧ x / pageSize = q.toNat ∧
          x % pageSize / chunkSize = j) ∧
        (t.store addr len).page? q = some
          (if s.code &&& met = 0 then s else ⟨s.code &&& ~~~met, s.dirty ||| met, s.stamp + 1⟩)) ∧
      (t.store addr len).generation = t.generation +
        ((Finset.range t.pages.size).filter fun i => (t.store addr len).pages[i]? ≠ t.pages[i]?).card := by
  refine ⟨storeWithin_eq _ _ _ _ (by omega), size_store .., fun q s hs => ?_, ?_⟩
  · refine ⟨chunksIn addr len q, hasChunk_chunksIn addr len q, ?_⟩
    have hq : q.toNat < 2 ^ 52 := by
      by_contra hge
      rw [page?_eq_none_iff.2 (by omega)] at hs
      cases hs
    rw [page?_store t addr len hq, hs, Option.map_some, PageState.store_eq_ite]
  · rw [generation_store_eq t addr len hsize, hitPages_eq_card t addr len hsize]

/-- A store over the end of the table hits the end of one page and all of the next. -/
theorem store_spread_overEnd :
    (((ofPages 2).register 0 0x80000000).register 1 3).pages.size ≤ 2 ^ 52 ∧
      ((((ofPages 2).register 0 0x80000000).register 1 3).store 0xFFE 0x2000).generation = 2 := by
  have hsize : (((ofPages 2).register 0 0x80000000).register 1 3).pages.size ≤ 2 ^ 52 := by decide +kernel
  obtain ⟨-, -, -, hgen⟩ := store_spread (((ofPages 2).register 0 0x80000000).register 1 3) 0xFFE 0x2000 hsize
  exact ⟨hsize, hgen.trans (by decide +kernel)⟩

end StampTable

end TraceCore
