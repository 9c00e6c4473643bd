/-
The elements of a block store or a block move. Their indices wrap at the address size and their addresses at 32 or 64
bits, so elements can come to lie on each other; but one never lies partly on another, and where two have one
destination they have one source.
-/
import TraceCore.Exec.Semantics
import TraceCore.Proofs.Cpu.Register
import TraceCore.Proofs.Fetch.Window
import Mathlib.Data.Int.ModEq

namespace TraceCore

namespace Cpu

/-! ## Addresses -/

/-- From one element to the next. -/
def stride (c : Cpu) (w : Width) : Int := if c.backwards then -(w.bytes : Int) else w.bytes

/-- Index of element `k` of those from the one in a register on. -/
def indexAt (c : Cpu) (size : CodeSize) (w : Width) (reg : Reg) (k : Nat) : Nat :=
  (((c.read reg .w64).toNat + k * c.stride w) % (2 ^ size.bits : Int)).toNat

/-- Bits of a linear address. -/
def linearBits (c : Cpu) : Nat := if c.mode = .longMode then 64 else 32

/-- Linear address of an offset from a segment base. -/
def linearAt (c : Cpu) (base : UInt64) (offset : Nat) : Nat := (base.toNat + offset) % 2 ^ c.linearBits

/-- Where element `k` is read from. -/
def srcAt (c : Cpu) (size : CodeSize) (w : Width) (k : Nat) : Nat := c.linearAt c.ds.base (c.indexAt size w .rsi k)

/-- Where element `k` is written to. -/
def dstAt (c : Cpu) (size : CodeSize) (w : Width) (k : Nat) : Nat := c.linearAt c.es.base (c.indexAt size w .rdi k)

variable (c : Cpu) (size : CodeSize) (w : Width) (reg : Reg) (base : UInt64)

theorem toNat_linear (offset : UInt64) : (c.linear base offset).toNat = c.linearAt base offset.toNat := by
  unfold linear linearAt linearBits codeSize
  cases c.mode with
  | realMode =>
    show ((base + offset) &&& 0xFFFFFFFF).toNat = _
    rw [toNat_and_low, UInt64.toNat_add]
    exact Nat.mod_mod_of_dvd _ (by decide)
  | protectedMode =>
    have hlow : ((base + offset) &&& 0xFFFFFFFF).toNat = (base.toNat + offset.toNat) % 2 ^ 32 := by
      rw [toNat_and_low, UInt64.toNat_add]
      exact Nat.mod_mod_of_dvd _ (by decide)
    dsimp only
    split
    case h_1 hbig => split at hbig <;> cases hbig
    case h_2 => exact hlow
  | longMode => exact UInt64.toNat_add ..

theorem cast_indexAt (k : Nat) : (c.indexAt size w reg k : Int) =
    ((c.read reg .w64).toNat + k * c.stride w) % 2 ^ size.bits :=
  Int.toNat_of_nonneg (Int.emod_nonneg _ (Int.ne_of_gt (Int.pow_pos (by decide))))

theorem indexAt_lt (k : Nat) : c.indexAt size w reg k < 2 ^ size.bits := by
  have hlt : (c.indexAt size w reg k : Int) < 2 ^ size.bits := by
    rw [cast_indexAt]
    exact Int.emod_lt_of_pos _ (Int.pow_pos (by decide))
  exact_mod_cast hlt

theorem indexAt_zero : c.indexAt size w reg 0 = (c.read reg .w64).toNat % 2 ^ size.bits := by
  have hcast := c.cast_indexAt size w reg 0
  rw [Int.natCast_zero, Int.zero_mul, Int.add_zero] at hcast
  exact_mod_cast hcast

theorem indexAt_modEq (k : Nat) :
    (c.indexAt size w reg k : Int) ≡ (c.read reg .w64).toNat + k * c.stride w [ZMOD 2 ^ size.bits] := by
  rw [cast_indexAt]
  exact Int.mod_modEq _ _

theorem linearAt_modEq (offset : Nat) :
    (c.linearAt base offset : Int) ≡ base.toNat + offset [ZMOD 2 ^ c.linearBits] := by
  unfold linearAt
  push_cast
  exact Int.mod_modEq _ _

theorem bytes_dvd_bits : (w.bytes : Int) ∣ 2 ^ size.bits := by
  cases w <;> cases size <;> decide

theorem bytes_dvd_linearBits : (w.bytes : Int) ∣ 2 ^ c.linearBits := by
  unfold linearBits
  split <;> cases w <;> decide

theorem bytes_dvd_stride : (w.bytes : Int) ∣ c.stride w := by
  unfold stride
  split
  · exact Int.dvd_neg.2 (Int.dvd_refl _)
  · exact Int.dvd_refl _

/-- All elements are aligned as the first is. -/
theorem dstAt_modEq_bytes (k : Nat) :
    (c.dstAt size w k : Int) ≡ c.es.base.toNat + (c.read .rdi .w64).toNat [ZMOD w.bytes] := by
  have hlinear := (c.linearAt_modEq c.es.base (c.indexAt size w .rdi k)).of_dvd (c.bytes_dvd_linearBits w)
  have hindex := (c.indexAt_modEq size w .rdi k).of_dvd (bytes_dvd_bits size w)
  have hstride : (k * c.stride w : Int) ≡ 0 [ZMOD w.bytes] :=
    Int.modEq_zero_iff_dvd.2 ((c.bytes_dvd_stride w).mul_left k)
  have hstart := (hstride.add_left ((c.read .rdi .w64).toNat : Int))
  rw [Int.add_zero] at hstart
  exact hlinear.trans ((hindex.trans hstart).add_left _)

/-- Elements that share a byte are one and the same range. -/
theorem dstAt_eq_of_overlap {j k : Nat} (hj : c.dstAt size w j < c.dstAt size w k + w.bytes)
    (hk : c.dstAt size w k < c.dstAt size w j + w.bytes) : c.dstAt size w j = c.dstAt size w k := by
  have hsame := (c.dstAt_modEq_bytes size w j).trans (c.dstAt_modEq_bytes size w k).symm
  have hdvd := hsame.dvd
  have hzero := Int.eq_zero_of_abs_lt_dvd hdvd (abs_lt.2 ⟨by omega, by omega⟩)
  omega

theorem indexAt_congr {j k : Nat} (h : (j * c.stride w : Int) ≡ k * c.stride w [ZMOD 2 ^ size.bits]) :
    c.indexAt size w reg j = c.indexAt size w reg k :=
  congrArg Int.toNat (h.add_left _)

theorem linearAt_eq_iff {x y : Nat} :
    c.linearAt base x = c.linearAt base y ↔ (x : Int) ≡ y [ZMOD 2 ^ c.linearBits] := by
  have hx := c.linearAt_modEq base x
  have hy := c.linearAt_modEq base y
  constructor
  · intro h
    rw [h] at hx
    exact (hx.symm.trans hy).add_left_cancel' _
  · intro h
    have hsame := h.add_left (base.toNat : Int)
    unfold linearAt
    exact_mod_cast hsame

/-- Elements with one destination have one source: between them the index has come round. -/
theorem srcAt_eq_of_dstAt_eq {j k : Nat} (h : c.dstAt size w j = c.dstAt size w k) :
    c.srcAt size w j = c.srcAt size w k := by
  have hindex := (c.linearAt_eq_iff c.es.base).1 h
  have hj := c.indexAt_modEq size w .rdi j
  have hk := c.indexAt_modEq size w .rdi k
  rcases Nat.le_total c.linearBits size.bits with hle | hle
  · -- the address is the narrower one, and comes round with the index or before it
    have hdvd : (2 ^ c.linearBits : Int) ∣ 2 ^ size.bits := pow_dvd_pow 2 hle
    have hturn := (((hj.of_dvd hdvd).symm.trans hindex).trans (hk.of_dvd hdvd)).add_left_cancel' _
    have hsrc := (c.indexAt_modEq size w .rsi j).of_dvd hdvd
    have hsrc' := (c.indexAt_modEq size w .rsi k).of_dvd hdvd
    exact (c.linearAt_eq_iff c.ds.base).2 ((hsrc.trans (hturn.add_left _)).trans hsrc'.symm)
  · -- the index is the narrower one, so it is the same
    have hdvd : (2 ^ size.bits : Int) ∣ 2 ^ c.linearBits := pow_dvd_pow 2 hle
    have hturn := ((hj.symm.trans (hindex.of_dvd hdvd)).trans hk).add_left_cancel' _
    unfold srcAt
    rw [c.indexAt_congr size w .rsi hturn]

/-! ## Memory -/

/-- What element `k` is: it is read when its turn comes, or else it is the low part of RAX. -/
def elementAt (op : StringOp) (bytes : Array UInt8) (k : Nat) : List UInt8 :=
  match op with
  | .move => (bytes.extract (c.srcAt size w k) (c.srcAt size w k + w.bytes)).toList
  | _ => Word.toBytes w.bytes (c.read .rax .w64)

/-- Memory behind so many elements, one after the other. -/
def block (op : StringOp) (bytes : Array UInt8) : Nat → Array UInt8
  | 0 => bytes
  | k + 1 => overwrite (block op bytes k) (c.dstAt size w k) (c.elementAt size w op (block op bytes k) k)

/-- Memory has all bytes of element `k`. -/
structure FitsAt (op : StringOp) (memory k : Nat) : Prop where
  dst : c.dstAt size w k + w.bytes ≤ memory
  src : op = .move → c.srcAt size w k + w.bytes ≤ memory

/-- No element is read where one is written. -/
def Disjoint (n : Nat) : Prop :=
  ∀ j < n, ∀ k < n, c.srcAt size w j + w.bytes ≤ c.dstAt size w k ∨ c.dstAt size w k + w.bytes ≤ c.srcAt size w j

variable {op : StringOp} {bytes : Array UInt8} {n : Nat}

@[simp] theorem size_block : (c.block size w op bytes n).size = bytes.size := by
  induction n with
  | zero => rfl
  | succ n ih => rw [block, size_overwrite, ih]

theorem length_elementAt_le (op : StringOp) (bytes : Array UInt8) (k : Nat) :
    (c.elementAt size w op bytes k).length ≤ w.bytes := by
  unfold elementAt
  split
  case h_1 =>
    rw [Array.length_toList, Array.size_extract]
    omega
  case h_2 => rw [Word.length_toBytes]

/-- A byte that no element is written to. -/
theorem getElem?_block_outside {j : Nat} (h : ∀ k < n, j < c.dstAt size w k ∨ c.dstAt size w k + w.bytes ≤ j) :
    (c.block size w op bytes n)[j]? = bytes[j]? := by
  induction n with
  | zero => rfl
  | succ n ih =>
    have hlen := c.length_elementAt_le size w op (c.block size w op bytes n) n
    have hout := h n (Nat.lt_succ_self n)
    rw [block, getElem?_overwrite, if_neg (by omega)]
    exact ih fun k hk => h k (Nat.lt_succ_of_lt hk)

/-- Where none is read that is written, a move is a copy. -/
theorem getElem?_block_move {k b : Nat} (hfits : ∀ k < n, c.FitsAt size w .move bytes.size k)
    (hdisjoint : c.Disjoint size w n) (hk : k < n) (hb : b < w.bytes) :
    (c.block size w .move bytes n)[c.dstAt size w k + b]? = bytes[c.srcAt size w k + b]? := by
  induction n with
  | zero => exact absurd hk (Nat.not_lt_zero k)
  | succ n ih =>
    have hrest : ∀ j < n, j < n + 1 := fun _ => Nat.lt_succ_of_lt
    obtain ⟨hdst, hsrc⟩ := hfits n (Nat.lt_succ_self n)
    have hlen : (c.elementAt size w .move (c.block size w .move bytes n) n).length = w.bytes := by
      show (Array.toList _).length = _
      rw [Array.length_toList, Array.size_extract, size_block]
      have := hsrc rfl
      omega
    rw [block, getElem?_overwrite, hlen, size_block]
    split
    case isTrue hin =>
      -- the last element covers the byte, so it is the one that is asked for or has its place
      have hsame := c.dstAt_eq_of_overlap size w (j := k) (k := n) (by omega) (by omega)
      rw [hsame, c.srcAt_eq_of_dstAt_eq size w hsame, Nat.add_sub_cancel_left]
      show (Array.toList _)[b]? = _
      rw [Array.getElem?_toList, Array.getElem?_extract, size_block, if_pos (by have := hsrc rfl; omega)]
      refine c.getElem?_block_outside size w fun j hj => ?_
      have hapart := hdisjoint n (Nat.lt_succ_self n) j (hrest j hj)
      omega
    case isFalse hout =>
      have hne : k ≠ n := by
        rintro rfl
        omega
      exact ih (fun j hj => hfits j (hrest j hj)) (fun i hi j hj => hdisjoint i (hrest i hi) j (hrest j hj)) (by omega)

end Cpu

end TraceCore
