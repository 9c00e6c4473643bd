/-
Sets of chunks, read bit by bit: the chunks that a range touches in one page are exactly those
that hold one of its bytes, so two ranges of a page whose chunks do not meet share no byte.
-/
import Mathlib.Algebra.Ring.Int.Defs
import Mathlib.Data.Nat.Bitwise
import TraceCore.Memory.Page

namespace TraceCore

/-- Chunk `j` is in the set. -/
def hasChunk (mask : UInt32) (j : Nat) : Bool := mask.toNat.testBit j

theorem hasChunk_and (a b : UInt32) (j : Nat) : hasChunk (a &&& b) j = (hasChunk a j && hasChunk b j) := by
  simp [hasChunk, Nat.testBit_and]

theorem hasChunk_or (a b : UInt32) (j : Nat) : hasChunk (a ||| b) j = (hasChunk a j || hasChunk b j) := by
  simp [hasChunk, Nat.testBit_or]

@[simp] theorem hasChunk_zero (j : Nat) : hasChunk 0 j = false := by simp [hasChunk]

theorem lt_of_hasChunk {mask : UInt32} {j : Nat} (h : hasChunk mask j = true) : j < chunksPerPage := by
  by_contra hj
  have hle : 2 ^ 32 ≤ 2 ^ j := Nat.pow_le_pow_right (by decide) (by unfold chunksPerPage at hj; omega)
  have : mask.toNat.testBit j = false := Nat.testBit_lt_two_pow (lt_of_lt_of_le mask.toNat_lt hle)
  unfold hasChunk at h
  rw [this] at h; cases h

/-- Sets with the same chunks are equal. -/
theorem eq_of_hasChunk {a b : UInt32} (h : ∀ j, hasChunk a j = hasChunk b j) : a = b :=
  UInt32.toNat_inj.1 (Nat.eq_of_testBit_eq h)

/-- Sets without a common chunk. -/
theorem and_eq_zero_iff {a b : UInt32} : a &&& b = 0 ↔ ∀ j, hasChunk a j = true → hasChunk b j = false := by
  constructor
  · intro h j ha
    have := hasChunk_and a b j
    rw [h, hasChunk_zero, ha] at this
    simpa using this.symm
  · intro h
    apply eq_of_hasChunk
    intro j
    rw [hasChunk_and, hasChunk_zero]
    cases ha : hasChunk a j
    · rfl
    · rw [h j ha]; rfl

/-- Subtraction of a set. -/
theorem hasChunk_diff (a b : UInt32) (j : Nat) : hasChunk (a &&& ~~~b) j = (hasChunk a j && !hasChunk b j) := by
  by_cases hj : j < 32
  · rw [hasChunk_and]
    congr 1
    unfold hasChunk
    rw [← UInt32.toNat_toBitVec, UInt32.toBitVec_not, BitVec.testBit_toNat, BitVec.getLsbD_not,
      ← UInt32.toNat_toBitVec, BitVec.testBit_toNat]
    simp [hj]
  · have hlt : ∀ c : UInt32, hasChunk c j = false := by
      intro c
      cases hc : hasChunk c j
      · rfl
      · exact absurd (lt_of_hasChunk hc) hj
    rw [hlt, hlt a]; rfl

/-! ## The chunks of a range -/

theorem hasChunk_upTo (last j : Nat) (h : last < chunksPerPage) :
    hasChunk (0xFFFFFFFF >>> UInt32.ofNat (chunksPerPage - 1 - last)) j = decide (j ≤ last) := by
  unfold chunksPerPage at h ⊢
  have hs : (UInt32.ofNat (32 - 1 - last)).toNat % 32 = 31 - last := by
    rw [UInt32.toNat_ofNat']; omega
  unfold hasChunk
  rw [UInt32.toNat_shiftRight, hs, Nat.testBit_shiftRight,
    show (0xFFFFFFFF : UInt32).toNat = 2 ^ 32 - 1 from rfl, Nat.testBit_two_pow_sub_one]
  apply decide_eq_decide.2
  omega

theorem hasChunk_from (first j : Nat) (h : first < chunksPerPage) :
    hasChunk (0xFFFFFFFF <<< UInt32.ofNat first) j = decide (first ≤ j ∧ j < chunksPerPage) := by
  unfold chunksPerPage at h ⊢
  have hs : (UInt32.ofNat first).toNat % 32 = first := by
    rw [UInt32.toNat_ofNat']; omega
  unfold hasChunk
  rw [UInt32.toNat_shiftLeft, hs, Nat.testBit_mod_two_pow, Nat.testBit_shiftLeft,
    show (0xFFFFFFFF : UInt32).toNat = 2 ^ 32 - 1 from rfl, Nat.testBit_two_pow_sub_one,
    ← Bool.decide_and, ← Bool.decide_and]
  apply decide_eq_decide.2
  omega

/-- A range touches the chunks that hold one of its bytes, up to the end of the page. -/
theorem hasChunk_touchedChunks (addr : UInt64) (len j : Nat) :
    hasChunk (touchedChunks addr len) j = true ↔
      ∃ x, pageOffset addr ≤ x ∧ x < pageOffset addr + len ∧ x < pageSize ∧ x / chunkSize = j := by
  have hoff := pageOffset_lt addr
  unfold touchedChunks
  split
  case isTrue hlen =>
    subst hlen
    simp only [hasChunk_zero, Bool.false_eq_true, false_iff]
    rintro ⟨x, h1, h2, -⟩
    omega
  case isFalse hlen =>
    generalize pageOffset addr = o at hoff ⊢
    unfold pageSize chunkSize at *
    rw [hasChunk_and, hasChunk_upTo _ _ (by unfold chunksPerPage; omega),
      hasChunk_from _ _ (by unfold chunksPerPage; omega), Bool.and_eq_true, decide_eq_true_iff,
      decide_eq_true_iff]
    unfold chunksPerPage
    constructor
    · rintro ⟨hlast, hfirst, -⟩
      exact ⟨max o (128 * j), by omega, by omega, by omega, by omega⟩
    · rintro ⟨x, h1, h2, h3, rfl⟩
      omega

/-- The byte at an offset of the page, in a range that touches its chunk. -/
theorem hasChunk_of_mem {addr : UInt64} {len x : Nat} (h1 : pageOffset addr ≤ x) (h2 : x < pageOffset addr + len)
    (h3 : x < pageSize) : hasChunk (touchedChunks addr len) (x / chunkSize) = true :=
  (hasChunk_touchedChunks addr len _).2 ⟨x, h1, h2, h3, rfl⟩

end TraceCore
