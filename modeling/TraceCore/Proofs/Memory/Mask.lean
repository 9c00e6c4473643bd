/-
The chunks of a range, found in machine words. A sum that does not fit is held at the largest word, and a difference or
a shift that is out of range is refused. Nothing is refused, whatever the words, and what comes out is the set of the
chunks that the range touches in its page. Ranges that follow each other in a page touch together what both do.
-/
import TraceCore.Proofs.Memory.Chunk

namespace TraceCore

/-! ## Checked words -/

namespace Word

/-- The sum of two words, or the largest word when that is more. -/
def cappedAdd (a b : UInt64) : UInt64 := if a + b < a then 0xFFFFFFFFFFFFFFFF else a + b

/-- The difference of two words; refuses one below zero. -/
def sub? {α : Type} [LE α] [DecidableLE α] [Sub α] (a b : α) : Option α := if b ≤ a then some (a - b) else none

/-- A shift of 32 bits to the left; refuses one by all of them or more. -/
def shiftLeft? (v n : UInt32) : Option UInt32 := if n < 32 then some (v <<< n) else none

/-- A shift of 32 bits to the right; refuses one by all of them or more. -/
def shiftRight? (v n : UInt32) : Option UInt32 := if n < 32 then some (v >>> n) else none

theorem toNat_cappedAdd (a b : UInt64) : (cappedAdd a b).toNat = min (a.toNat + b.toNat) (UInt64.size - 1) := by
  have ha := a.toNat_lt
  have hb := b.toNat_lt
  have hsize : UInt64.size = 2 ^ 64 := rfl
  unfold cappedAdd
  -- the sum came round exactly when it is smaller than its first part
  split
  case isTrue h =>
    rw [UInt64.lt_iff_toNat_lt, UInt64.toNat_add] at h
    rw [show (0xFFFFFFFFFFFFFFFF : UInt64).toNat = 2 ^ 64 - 1 from rfl]
    omega
  case isFalse h =>
    rw [UInt64.lt_iff_toNat_lt, UInt64.toNat_add] at h
    rw [UInt64.toNat_add]
    omega

theorem sub?_of_le {α : Type} [LE α] [DecidableLE α] [Sub α] {a b : α} (h : b ≤ a) : sub? a b = some (a - b) := if_pos h

theorem shiftLeft?_of_lt {v n : UInt32} (h : n < 32) : shiftLeft? v n = some (v <<< n) := if_pos h

theorem shiftRight?_of_lt {v n : UInt32} (h : n < 32) : shiftRight? v n = some (v >>> n) := if_pos h

end Word

/-! ## The set in words -/

/-- The chunk that holds a position. -/
def chunkAt (position : UInt64) : UInt32 := (position >>> 7).toUInt32

/-- The chunks of a page up to the one that holds a position, unless a word is out of range. -/
def chunksUpTo? (position : UInt64) : Option UInt32 := do
  let behind ← Word.sub? 31 (chunkAt position)
  Word.shiftRight? 0xFFFFFFFF behind

/-- The chunks of a page from the one that holds a position on, unless a word is out of range. -/
def chunksFrom? (position : UInt64) : Option UInt32 := Word.shiftLeft? 0xFFFFFFFF (chunkAt position)

/-- The chunks that a `len`-byte range from `addr` touches in the page of `addr`, unless a word is out of range. -/
def touchedChunks? (addr len : UInt64) : Option UInt32 :=
  let start := addr &&& 0xFFF
  if len = 0 then some 0
  else do
    let more ← Word.sub? len 1
    let upTo ← chunksUpTo? (min (Word.cappedAdd start more) 0xFFF)
    let onward ← chunksFrom? start
    return upTo &&& onward

theorem toNat_and_pageMask (addr : UInt64) : (addr &&& 0xFFF).toNat = pageOffset addr := by
  rw [UInt64.toNat_and, pageOffset_eq, show (0xFFF : UInt64).toNat = 2 ^ 12 - 1 from rfl,
    Nat.and_two_pow_sub_one_eq_mod]

theorem one_le_of_ne_zero {len : UInt64} (h : len ≠ 0) : 1 ≤ len :=
  UInt64.le_iff_toNat_le.2 (Nat.pos_of_ne_zero fun h0 => h (UInt64.toNat_inj.1 h0))

/-- The last position of a range, held at the end of its page, though the sum may not fit a word. -/
theorem toNat_last (addr : UInt64) {len : UInt64} (h : len ≠ 0) :
    (min (Word.cappedAdd (addr &&& 0xFFF) (len - 1)) 0xFFF).toNat =
      min (pageOffset addr + (len.toNat - 1)) (pageSize - 1) := by
  have hlen : (len - 1).toNat = len.toNat - 1 := UInt64.toNat_sub_of_le _ _ (one_le_of_ne_zero h)
  have hsize : UInt64.size = 2 ^ 64 := rfl
  rw [UInt64.toNat_min, Word.toNat_cappedAdd, toNat_and_pageMask, hlen, show (0xFFF : UInt64).toNat = 4095 from rfl]
  unfold pageSize
  omega

theorem chunkAt_eq (position : UInt64) : chunkAt position = UInt32.ofNat (position.toNat / chunkSize) := by
  apply UInt32.toNat_inj.1
  unfold chunkAt chunkSize
  rw [UInt64.toNat_toUInt32, UInt64.toNat_shiftRight, show (7 : UInt64).toNat % 64 = 7 from rfl,
    Nat.shiftRight_eq_div_pow, UInt32.toNat_ofNat']

theorem chunk_lt {position : Nat} (h : position < pageSize) : position / chunkSize < chunksPerPage := by
  unfold pageSize at h
  unfold chunkSize chunksPerPage
  omega

/-- A number of a chunk is no more than a word can be shifted by. -/
theorem ofNat_lt_of_lt {n : Nat} (h : n < chunksPerPage) : UInt32.ofNat n < 32 := by
  rw [UInt32.lt_iff_toNat_lt, UInt32.toNat_ofNat_of_lt' (Nat.lt_trans h (by decide))]
  exact h

theorem chunksFrom?_eq {start : UInt64} (h : start.toNat < pageSize) :
    chunksFrom? start = some (0xFFFFFFFF <<< UInt32.ofNat (start.toNat / chunkSize)) := by
  unfold chunksFrom?
  rw [chunkAt_eq]
  exact Word.shiftLeft?_of_lt (ofNat_lt_of_lt (chunk_lt h))

theorem chunksUpTo?_eq {last : UInt64} (h : last.toNat < pageSize) :
    chunksUpTo? last = some (0xFFFFFFFF >>> UInt32.ofNat (chunksPerPage - 1 - last.toNat / chunkSize)) := by
  have hchunk : last.toNat / chunkSize ≤ chunksPerPage - 1 := Nat.le_pred_of_lt (chunk_lt h)
  have hle : UInt32.ofNat (last.toNat / chunkSize) ≤ UInt32.ofNat (chunksPerPage - 1) := by
    rw [UInt32.le_iff_toNat_le, UInt32.toNat_ofNat_of_lt' (Nat.lt_of_le_of_lt hchunk (by decide))]
    exact hchunk
  unfold chunksUpTo?
  rw [chunkAt_eq, show (31 : UInt32) = UInt32.ofNat (chunksPerPage - 1) from rfl, Word.sub?_of_le hle,
    ← UInt32.ofNat_sub hchunk]
  exact Word.shiftRight?_of_lt (ofNat_lt_of_lt (Nat.lt_of_le_of_lt (Nat.sub_le ..) (by decide)))

/-- In words nothing is out of range, and the set is found. -/
theorem touchedChunks?_eq (addr len : UInt64) : touchedChunks? addr len = some (touchedChunks addr len.toNat) := by
  unfold touchedChunks? touchedChunks
  by_cases hlen : len = 0
  · subst hlen
    rfl
  · have hne : len.toNat ≠ 0 := fun h0 => hlen (UInt64.toNat_inj.1 h0)
    have hstart := toNat_and_pageMask addr
    have hlast := toNat_last addr hlen
    have hstartIn : (addr &&& 0xFFF).toNat < pageSize := by
      rw [hstart]
      exact pageOffset_lt addr
    have hlastIn : (min (Word.cappedAdd (addr &&& 0xFFF) (len - 1)) 0xFFF).toNat < pageSize := by
      rw [hlast]
      exact Nat.lt_of_le_of_lt (Nat.min_le_right ..) (by decide)
    have hfrom := chunksFrom?_eq hstartIn
    have hupTo := chunksUpTo?_eq hlastIn
    rw [hstart] at hfrom
    rw [hlast] at hupTo
    simp only [if_neg hlen, if_neg hne, Word.sub?_of_le (one_le_of_ne_zero hlen), hupTo, hfrom, Option.bind_eq_bind,
      Option.bind_some]
    rfl

/-- A range from the last byte of a page, so long that the sum does not fit a word. -/
example : touchedChunks? 0xFFF 0xFFFFFFFFFFFFFFFF = some 0x80000000 := by decide

/-! ## Ranges that follow each other -/

theorem touchedChunks_zero (addr : UInt64) : touchedChunks addr 0 = 0 := if_pos rfl

/-- Two ranges of a page, the second from where the first ends, touch what the whole of them does. -/
theorem touchedChunks_append {addr next : UInt64} {m : Nat} (h : pageOffset next = pageOffset addr + m) (n : Nat) :
    touchedChunks addr (m + n) = touchedChunks addr m ||| touchedChunks next n := by
  have hnext := pageOffset_lt next
  apply eq_of_hasChunk
  intro j
  rw [hasChunk_or, Bool.eq_iff_iff, Bool.or_eq_true]
  simp only [hasChunk_touchedChunks, h]
  constructor
  · rintro ⟨x, hstart, hend, hpage, hchunk⟩
    by_cases hx : x < pageOffset addr + m
    · exact Or.inl ⟨x, hstart, hx, hpage, hchunk⟩
    · exact Or.inr ⟨x, Nat.le_of_not_lt hx, by omega, hpage, hchunk⟩
  · rintro (⟨x, hstart, hend, hpage, hchunk⟩ | ⟨x, hstart, hend, hpage, hchunk⟩)
    · exact ⟨x, hstart, by omega, hpage, hchunk⟩
    · exact ⟨x, by omega, by omega, hpage, hchunk⟩

/-- The set of chunks is exact for all words. Machine arithmetic finds it with no word out of range, a chunk is in it
just when it holds a position of the range in front of the end of the page, and two ranges of a page, the second from
where the first ends, touch together what the whole of them does. -/
theorem touchedChunks_exact (addr len : UInt64) :
    touchedChunks? addr len = some (touchedChunks addr len.toNat) ∧
      (∀ i, hasChunk (touchedChunks addr len.toNat) i = true ↔
        ∃ x, addr.toNat % pageSize ≤ x ∧ x < min (addr.toNat % pageSize + len.toNat) pageSize ∧ x / chunkSize = i) ∧
      ∀ next more : UInt64, next.toNat % pageSize = (addr.toNat % pageSize + len.toNat) % pageSize →
        addr.toNat % pageSize + len.toNat + more.toNat ≤ pageSize →
          touchedChunks addr (len + more).toNat = touchedChunks addr len.toNat ||| touchedChunks next more.toNat := by
  refine ⟨touchedChunks?_eq addr len, fun i => ?_, fun next more hnext hin => ?_⟩
  · simp only [hasChunk_touchedChunks, pageOffset_eq, Nat.lt_min, and_assoc]
  · have hsum : (len + more).toNat = len.toNat + more.toNat := by
      rw [UInt64.toNat_add]
      unfold pageSize at hin
      omega
    rw [hsum]
    by_cases hmore : more.toNat = 0
    · -- the first range may end with the page, where no position follows it
      rw [hmore, Nat.add_zero, touchedChunks_zero]
      exact UInt32.or_zero.symm
    · have hlt : addr.toNat % pageSize + len.toNat < pageSize := by omega
      refine touchedChunks_append ?_ more.toNat
      rw [pageOffset_eq, pageOffset_eq, hnext, Nat.mod_eq_of_lt hlt]

/-- The last two chunks of a page, in a range that ends in the second and one from there to the end of the page. -/
theorem touchedChunks_exact_pageEnd :
    (0xF81 : UInt64).toNat % pageSize = ((0x1F00 : UInt64).toNat % pageSize + (0x81 : UInt64).toNat) % pageSize ∧
      (0x1F00 : UInt64).toNat % pageSize + (0x81 : UInt64).toNat + (0x7F : UInt64).toNat ≤ pageSize ∧
      touchedChunks 0x1F00 (0x81 + 0x7F : UInt64).toNat =
        touchedChunks 0x1F00 (0x81 : UInt64).toNat ||| touchedChunks 0xF81 (0x7F : UInt64).toNat := by
  have hnext : (0xF81 : UInt64).toNat % pageSize =
      ((0x1F00 : UInt64).toNat % pageSize + (0x81 : UInt64).toNat) % pageSize := by decide
  have hin : (0x1F00 : UInt64).toNat % pageSize + (0x81 : UInt64).toNat + (0x7F : UInt64).toNat ≤ pageSize := by decide
  exact ⟨hnext, hin, (touchedChunks_exact 0x1F00 0x81).2.2 0xF81 0x7F hnext hin⟩

end TraceCore
