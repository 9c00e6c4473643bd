/-
Fetch windows over a board. Instruction pointers of one window are translated alike, so each of them
has the address and the bytes to the end that a window of its own would give it; and what comes
behind a window is the start of the next page.
-/
import Mathlib.Algebra.Group.Nat.Defs
import TraceCore.Proofs.Memory.Slice
import TraceCore.Fetch.Window
import TraceCore.Socket.Board

namespace TraceCore

variable {cpu : Cpu} {rip rip' linear linear' bias : UInt64} {size : Nat}

/-- An instruction pointer that the running code can hold, its high bits being looked at in 64-bit
code only. -/
def Cpu.Reaches (cpu : Cpu) (rip : UInt64) : Prop := cpu.codeSize = .b64 ∨ rip.toNat < 2 ^ 32

theorem toNat_and_low (a : UInt64) : (a &&& 0xFFFFFFFF).toNat = a.toNat % 2 ^ 32 := by
  rw [UInt64.toNat_and, show (0xFFFFFFFF : UInt64).toNat = 2 ^ 32 - 1 from rfl, Nat.and_two_pow_sub_one_eq_mod]

theorem CodeSize.toNat_and_mask (b : CodeSize) (a : UInt64) : (a &&& b.mask).toNat = a.toNat % 2 ^ b.bits := by
  have hlow : ∀ n, ∀ mask : UInt64, mask.toNat = 2 ^ n - 1 → (a &&& mask).toNat = a.toNat % 2 ^ n := by
    intro n mask hmask
    rw [UInt64.toNat_and, hmask, Nat.and_two_pow_sub_one_eq_mod]
  cases b with
  | b16 => exact hlow 16 _ (by decide)
  | b32 => exact hlow 32 _ (by decide)
  | b64 => exact hlow 64 _ (by decide)

theorem isCanonical_congr {a b : UInt64} (h : a.toNat / 2 ^ 47 = b.toNat / 2 ^ 47) : isCanonical a = isCanonical b := by
  have hshift : a >>> 47 = b >>> 47 := by
    apply UInt64.toNat_inj.1
    rw [UInt64.toNat_shiftRight, UInt64.toNat_shiftRight, show (47 : UInt64).toNat % 64 = 47 from rfl,
      Nat.shiftRight_eq_div_pow, Nat.shiftRight_eq_div_pow, h]
  unfold isCanonical
  rw [hshift]

theorem FetchWindow.offset?_eq_some {window : FetchWindow} {o : Nat} :
    window.offset? rip = some o ↔ (rip + window.bias).toNat < window.size ∧ o = (rip + window.bias).toNat := by
  unfold FetchWindow.offset?
  dsimp only
  split
  case isTrue hlt => rw [Option.some.injEq, eq_comm, and_iff_right hlt]
  case isFalse hge => exact ⟨nofun, fun h => absurd h.1 hge⟩

theorem FetchWindow.offset_lt {window : FetchWindow} {o : Nat} (h : window.offset? rip = some o) : o < window.size := by
  obtain ⟨hlt, rfl⟩ := offset?_eq_some.1 h
  exact hlt

/-! ## The window of an instruction pointer -/

theorem ite_lt_add_one (x n : Nat) : (if x < n then x + 1 else n) = min (x + 1) n := by
  split <;> omega

theorem windowAt_b64 (hb : cpu.codeSize = .b64) :
    windowAt cpu rip = .ok (linear, bias, size) ↔
      isCanonical rip = true ∧ linear = rip ∧ bias = rip % 4096 - rip ∧ size = pageSize := by
  unfold windowAt
  rw [if_pos hb]
  cases isCanonical rip with
  | false => simp
  | true =>
    simp only [if_true, Except.ok.injEq, Prod.mk.injEq, true_and]
    constructor
    · rintro ⟨rfl, rfl, rfl⟩; exact ⟨rfl, rfl, rfl⟩
    · rintro ⟨rfl, rfl, rfl⟩; exact ⟨rfl, rfl, rfl⟩

theorem windowAt_segment (hb : cpu.codeSize ≠ .b64) :
    windowAt cpu rip = .ok (linear, bias, size) ↔
      rip.toNat % 2 ^ 32 ≤ cpu.cs.limit.toNat ∧ linear.toNat = (cpu.cs.base.toNat + rip.toNat % 2 ^ 32) % 2 ^ 32 ∧
        bias = linear % 4096 - (rip &&& 0xFFFFFFFF) ∧
          size = min (cpu.cs.limit.toNat - rip.toNat % 2 ^ 32 + linear.toNat % pageSize + 1) pageSize := by
  have heip := toNat_and_low rip
  have hlimit := cpu.cs.limit.toNat_lt
  unfold windowAt
  rw [if_neg hb]
  dsimp only
  generalize rip &&& 0xFFFFFFFF = eip at heip ⊢
  have hlinear : ((cpu.cs.base + eip) &&& 0xFFFFFFFF).toNat = (cpu.cs.base.toNat + rip.toNat % 2 ^ 32) % 2 ^ 32 := by
    rw [toNat_and_low, UInt64.toNat_add, heip]
    omega
  generalize (cpu.cs.base + eip) &&& 0xFFFFFFFF = l at hlinear ⊢
  have hlt : cpu.cs.limit.toUInt64 < eip ↔ cpu.cs.limit.toNat < rip.toNat % 2 ^ 32 := by
    rw [UInt64.lt_iff_toNat_lt, UInt32.toNat_toUInt64, heip]
  by_cases hin : cpu.cs.limit.toUInt64 < eip
  · rw [if_pos hin]
    rw [hlt] at hin
    constructor
    · intro h; cases h
    · rintro ⟨h, -⟩; omega
  · rw [if_neg hin]
    rw [hlt] at hin
    have hlast : (cpu.cs.limit.toUInt64 + (l % 4096 - eip)).toNat =
        cpu.cs.limit.toNat - rip.toNat % 2 ^ 32 + l.toNat % pageSize := by
      rw [UInt64.toNat_add, UInt64.toNat_sub, UInt32.toNat_toUInt64, heip, UInt64.toNat_mod,
        show (4096 : UInt64).toNat = 4096 from rfl]
      unfold pageSize
      omega
    simp only [hlast, Except.ok.injEq, Prod.mk.injEq]
    constructor
    · rintro ⟨rfl, rfl, rfl⟩
      exact ⟨by omega, hlinear, rfl, ite_lt_add_one _ _⟩
    · rintro ⟨-, hl, rfl, rfl⟩
      obtain rfl : l = linear := UInt64.toNat_inj.1 (hlinear.trans hl.symm)
      exact ⟨rfl, rfl, ite_lt_add_one _ _⟩

/-- A window does not reach behind its page, and it has the instruction pointer that it is for. -/
theorem windowAt_size (h : windowAt cpu rip = .ok (linear, bias, size)) :
    pageOffset linear < size ∧ size ≤ pageSize := by
  have ho := pageOffset_eq linear
  have hlt := pageOffset_lt linear
  by_cases hb : cpu.codeSize = .b64
  · obtain ⟨-, -, -, rfl⟩ := (windowAt_b64 hb).1 h
    exact ⟨hlt, Nat.le_refl _⟩
  · obtain ⟨hle, hl, -, rfl⟩ := (windowAt_segment hb).1 h
    omega

/-- The bias takes an instruction pointer to its offset. -/
theorem windowAt_bias (h : windowAt cpu rip = .ok (linear, bias, size)) (hr : cpu.Reaches rip) :
    (rip + bias).toNat = pageOffset linear := by
  have ho := pageOffset_eq linear
  by_cases hb : cpu.codeSize = .b64
  · obtain ⟨-, rfl, rfl, -⟩ := (windowAt_b64 hb).1 h
    rw [ho, UInt64.toNat_add, UInt64.toNat_sub, UInt64.toNat_mod, show (4096 : UInt64).toNat = 4096 from rfl]
    have := linear.toNat_lt
    unfold pageSize
    omega
  · obtain ⟨hle, hl, rfl, -⟩ := (windowAt_segment hb).1 h
    have hrip : rip.toNat < 2 ^ 32 := by
      rcases hr with hr | hr
      · exact absurd hr hb
      · exact hr
    rw [ho, UInt64.toNat_add, UInt64.toNat_sub, UInt64.toNat_mod, toNat_and_low,
      show (4096 : UInt64).toNat = 4096 from rfl]
    unfold pageSize
    omega

/-- All instruction pointers of a window have the same window. -/
theorem windowAt_of_offset (h : windowAt cpu rip = .ok (linear, bias, size)) (ho : (rip' + bias).toNat < size)
    (hr : cpu.Reaches rip') :
    ∃ linear', windowAt cpu rip' = .ok (linear', bias, size) ∧ pageOf linear' = pageOf linear ∧
      pageOffset linear' = (rip' + bias).toNat := by
  have hlin := linear.toNat_lt
  have hlin' := rip'.toNat_lt
  by_cases hb : cpu.codeSize = .b64
  · obtain ⟨hc, rfl, rfl, rfl⟩ := (windowAt_b64 hb).1 h
    have hadd : (rip' + (linear % 4096 - linear)).toNat =
        (rip'.toNat + (linear.toNat % 4096 + 2 ^ 64 - linear.toNat)) % 2 ^ 64 := by
      rw [UInt64.toNat_add, UInt64.toNat_sub, UInt64.toNat_mod, show (4096 : UInt64).toNat = 4096 from rfl]
      omega
    rw [hadd] at ho ⊢
    unfold pageSize at ho
    have hpage : rip'.toNat / 4096 = linear.toNat / 4096 := by omega
    refine ⟨rip', (windowAt_b64 hb).2 ⟨?_, rfl, ?_, rfl⟩, ?_, ?_⟩
    · rw [isCanonical_congr (b := linear) (by omega)]; exact hc
    · apply UInt64.toNat_inj.1
      rw [UInt64.toNat_sub, UInt64.toNat_sub, UInt64.toNat_mod, UInt64.toNat_mod,
        show (4096 : UInt64).toNat = 4096 from rfl]
      omega
    · apply UInt64.toNat_inj.1
      rw [toNat_pageOf, toNat_pageOf]
      exact hpage
    · rw [pageOffset_eq]
      unfold pageSize
      omega
  · obtain ⟨hle, hl, rfl, rfl⟩ := (windowAt_segment hb).1 h
    have hrip : rip'.toNat < 2 ^ 32 := by
      rcases hr with hr | hr
      · exact absurd hr hb
      · exact hr
    have hadd : (rip' + (linear % 4096 - (rip &&& 0xFFFFFFFF))).toNat =
        (rip'.toNat + (linear.toNat % 4096 + 2 ^ 64 - rip.toNat % 2 ^ 32)) % 2 ^ 64 := by
      rw [UInt64.toNat_add, UInt64.toNat_sub, UInt64.toNat_mod, toNat_and_low,
        show (4096 : UInt64).toNat = 4096 from rfl]
      omega
    rw [hadd] at ho ⊢
    unfold pageSize at ho
    have hlimit := cpu.cs.limit.toNat_lt
    -- the page of `linear`, which no wrapped address leaves
    have hval : (UInt64.ofNat ((cpu.cs.base.toNat + rip'.toNat) % 2 ^ 32)).toNat =
        (cpu.cs.base.toNat + rip'.toNat) % 2 ^ 32 := by
      rw [UInt64.toNat_ofNat']; omega
    generalize UInt64.ofNat ((cpu.cs.base.toNat + rip'.toNat) % 2 ^ 32) = l at hval
    have hmove : l.toNat = linear.toNat / 4096 * 4096 +
        (rip'.toNat + (linear.toNat % 4096 + 2 ^ 64 - rip.toNat % 2 ^ 32)) % 2 ^ 64 := by omega
    refine ⟨l, (windowAt_segment hb).2 ⟨by omega, by rw [hval, Nat.mod_eq_of_lt hrip], ?_, ?_⟩, ?_, ?_⟩
    · apply UInt64.toNat_inj.1
      rw [UInt64.toNat_sub, UInt64.toNat_sub, UInt64.toNat_mod, UInt64.toNat_mod, toNat_and_low, toNat_and_low,
        show (4096 : UInt64).toNat = 4096 from rfl]
      omega
    · have hsame : cpu.cs.limit.toNat - rip.toNat % 2 ^ 32 + linear.toNat % pageSize =
          cpu.cs.limit.toNat - rip'.toNat % 2 ^ 32 + l.toNat % pageSize := by
        unfold pageSize
        omega
      rw [hsame]
    · apply UInt64.toNat_inj.1
      rw [toNat_pageOf, toNat_pageOf]
      unfold pageSize
      omega
    · rw [pageOffset_eq]
      unfold pageSize
      omega

/-- An instruction pointer that lies in its own window is one that the running code can hold. -/
theorem reaches_of_offset (h : windowAt cpu rip = .ok (linear, bias, size)) (ho : (rip + bias).toNat < size) :
    cpu.Reaches rip := by
  by_cases hb : cpu.codeSize = .b64
  · exact Or.inl hb
  · obtain ⟨hle, hl, rfl, rfl⟩ := (windowAt_segment hb).1 h
    have hlin := rip.toNat_lt
    rw [UInt64.toNat_add, UInt64.toNat_sub, UInt64.toNat_mod, toNat_and_low,
      show (4096 : UInt64).toNat = 4096 from rfl] at ho
    unfold pageSize at ho
    exact Or.inr (by omega)

/-- Another instruction pointer that lies in a window lies less than a page below 2^64, and the segment
starts inside a page. A window of its own would end sooner. -/
theorem remaining_lt_of_not_reaches (h : windowAt cpu rip = .ok (linear, bias, size)) (ho : (rip' + bias).toNat < size)
    (hr : ¬ cpu.Reaches rip') : pageOffset cpu.cs.base ≠ 0 ∧ ∀ linear' bias' size',
      windowAt cpu rip' = .ok (linear', bias', size') → size' - pageOffset linear' < size - (rip' + bias).toNat := by
  have hb : cpu.codeSize ≠ .b64 := fun hb => hr (Or.inl hb)
  have hhigh : 2 ^ 32 ≤ rip'.toNat := Nat.le_of_not_lt fun hlow => hr (Or.inr hlow)
  have hlt := rip'.toNat_lt
  have hlimit := cpu.cs.limit.toNat_lt
  obtain ⟨hle, hl, rfl, hsize⟩ := (windowAt_segment hb).1 h
  have hadd : (rip' + (linear % 4096 - (rip &&& 0xFFFFFFFF))).toNat =
      (rip'.toNat + (linear.toNat % 4096 + 2 ^ 64 - rip.toNat % 2 ^ 32)) % 2 ^ 64 := by
    rw [UInt64.toNat_add, UInt64.toNat_sub, UInt64.toNat_mod, toNat_and_low, show (4096 : UInt64).toNat = 4096 from rfl]
    omega
  rw [hadd] at ho ⊢
  generalize ho' : (rip'.toNat + (linear.toNat % 4096 + 2 ^ 64 - rip.toNat % 2 ^ 32)) % 2 ^ 64 = o at ho ⊢
  have hpage : size ≤ 4096 := by rw [hsize]; exact Nat.min_le_right ..
  have hseg : size ≤ cpu.cs.limit.toNat - rip.toNat % 2 ^ 32 + linear.toNat % 4096 + 1 := by
    rw [hsize]; exact Nat.min_le_left ..
  have hround : rip'.toNat + linear.toNat % 4096 = o + rip.toNat % 2 ^ 32 + 2 ^ 64 := by omega
  refine ⟨?_, fun linear' bias' size' h' => ?_⟩
  · rw [pageOffset_eq]
    unfold pageSize
    omega
  · obtain ⟨hle', hl', -, hsize'⟩ := (windowAt_segment hb).1 h'
    have hoff : linear'.toNat % 4096 = o := by omega
    have hfull : size = 4096 := by
      rw [hsize]
      refine Nat.min_eq_right ?_
      unfold pageSize
      omega
    have hseg' : size' ≤ cpu.cs.limit.toNat - rip'.toNat % 2 ^ 32 + linear'.toNat % 4096 + 1 := by
      rw [hsize']; exact Nat.min_le_left ..
    rw [pageOffset_eq]
    unfold pageSize
    clear hsize hsize'
    omega

/-- The instruction pointer does not come round behind an instruction at `rip`, or it does so at the
end of a page: it has 64 bits, and where the code has fewer, it may go past 2^64 to the start of the
segment. -/
def Cpu.Continues (cpu : Cpu) (rip : UInt64) : Prop :=
  cpu.codeSize = .b64 ∨ rip.toNat + maxInstrLen ≤ 2 ^ 64 ∨ pageOffset cpu.cs.base = 0

theorem Cpu.Reaches.continues (h : cpu.Reaches rip) : cpu.Continues rip := by
  rcases h with h | h
  · exact Or.inl h
  · exact Or.inr (Or.inl (by unfold maxInstrLen; omega))

/-- Behind the last byte of a window comes the start of a page, if an instruction pointer can go
there at all. -/
theorem windowAt_behind (h : windowAt cpu rip = .ok (linear, bias, size))
    (h' : windowAt cpu (rip + UInt64.ofNat (size - pageOffset linear)) = .ok (linear', bias', size'))
    (hr : cpu.Reaches (rip + UInt64.ofNat (size - pageOffset linear))) (hshort : size - pageOffset linear < maxInstrLen)
    (hcont : cpu.Continues rip) : size = pageSize ∧ pageOffset linear' = 0 := by
  have ho := pageOffset_eq linear
  have ho' := pageOffset_eq linear'
  have hb := pageOffset_eq cpu.cs.base
  obtain ⟨hin, hsize⟩ := windowAt_size h
  have hadd : (rip + UInt64.ofNat (size - pageOffset linear)).toNat =
      (rip.toNat + (size - pageOffset linear)) % 2 ^ 64 := by
    rw [UInt64.toNat_add, UInt64.toNat_ofNat']
    omega
  by_cases hcode : cpu.codeSize = .b64
  · obtain ⟨-, rfl, -, rfl⟩ := (windowAt_b64 hcode).1 h
    obtain ⟨-, rfl, -, -⟩ := (windowAt_b64 hcode).1 h'
    refine ⟨rfl, ?_⟩
    rw [ho', hadd]
    unfold pageSize at *
    omega
  · obtain ⟨hle, hl, -, hs⟩ := (windowAt_segment hcode).1 h
    obtain ⟨hle', hl', -, -⟩ := (windowAt_segment hcode).1 h'
    have hlow : (rip + UInt64.ofNat (size - pageOffset linear)).toNat < 2 ^ 32 := by
      rcases hr with hr | hr
      · exact absurd hr hcode
      · exact hr
    have hlimit := cpu.cs.limit.toNat_lt
    have hrip := rip.toNat_lt
    rw [hadd] at hle' hl' hlow
    rw [Nat.mod_eq_of_lt hlow] at hle' hl'
    rcases Nat.le_total (cpu.cs.limit.toNat - rip.toNat % 2 ^ 32 + linear.toNat % pageSize + 1) pageSize
      with hsmall | hlarge
    · -- the segment ends in the page, so the instruction pointer comes round, and at the page's end
      rw [Nat.min_eq_left hsmall] at hs
      have hround : 2 ^ 64 ≤ rip.toNat + (size - pageOffset linear) := by
        rw [ho] at hle' ⊢
        omega
      have hbase : pageOffset cpu.cs.base = 0 := by
        rcases hcont with hc | hc | hc
        · exact absurd hc hcode
        · omega
        · exact hc
      have hend : size - pageOffset linear = 2 ^ 64 - rip.toNat ∧ cpu.cs.limit.toNat = 2 ^ 32 - 1 := by
        rw [ho] at hle' hround ⊢
        unfold maxInstrLen at hshort
        omega
      obtain ⟨hend, hmax⟩ := hend
      rw [hend] at hl'
      rw [hb] at hbase
      rw [ho', hl']
      unfold pageSize at *
      omega
    · rw [Nat.min_eq_right hlarge] at hs
      refine ⟨hs, ?_⟩
      rw [hs, ho] at hl' hlow
      rw [ho', hl']
      unfold pageSize at *
      omega

end TraceCore
