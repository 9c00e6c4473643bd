/-
Registers and their parts, as numbers. What a write leaves alone of a register depends on its width and, for 32 bits, on
the mode; the rest is the value that was written.
-/
import TraceCore.Cpu.State
import Mathlib.Data.Nat.Bitwise

namespace TraceCore

/-- With a mask of the low `b` bits, these come from the new value and the others from the old one. -/
theorem toNat_splice {m : UInt64} {b : Nat} (hm : m.toNat = 2 ^ b - 1) (full value : UInt64) :
    (Word.splice m full value).toNat = full.toNat / 2 ^ b * 2 ^ b + value.toNat % 2 ^ b := by
  apply Nat.eq_of_testBit_eq
  intro k
  have hmask : m.toBitVec.getLsbD k = decide (k < b) := by
    rw [← Nat.testBit_two_pow_sub_one, ← hm]
    rfl
  have hsplice : (Word.splice m full value).toNat.testBit k =
      (full.toNat.testBit k && !decide (k < b) || value.toNat.testBit k && decide (k < b)) := by
    rw [← hmask]
    change (Word.splice m full value).toBitVec.getLsbD k =
      (full.toBitVec.getLsbD k && !_ || value.toBitVec.getLsbD k && _)
    unfold Word.splice
    by_cases hk : k < 64
    · simp [hk]
    · simp [BitVec.getLsbD_of_ge _ _ (Nat.not_lt.1 hk)]
  rw [hsplice, Nat.mul_comm, Nat.testBit_two_pow_mul_add _ (Nat.mod_lt _ (Nat.two_pow_pos b)), Nat.testBit_mod_two_pow,
    Nat.testBit_div_two_pow]
  by_cases hk : k < b
  · simp [hk]
  · simp [hk, Nat.sub_add_cancel (Nat.not_lt.1 hk)]

namespace Width

/-- What a write of this width leaves alone of a register. -/
def above (w : Width) (clearUpper : Bool) (full : UInt64) : Nat :=
  if w = .w64 ∨ w = .w32 ∧ clearUpper = true then 0 else full.toNat / 2 ^ w.bits * 2 ^ w.bits

/-- Whole multiples of what is written. -/
theorem above_add_mod (w : Width) (clearUpper : Bool) (full : UInt64) (x : Nat) :
    (w.above clearUpper full + x) % 2 ^ w.bits = x % 2 ^ w.bits := by
  unfold above
  split
  · rw [Nat.zero_add]
  · rw [Nat.add_comm, Nat.add_mul_mod_self_right]

theorem toNat_replace (w : Width) (clearUpper : Bool) (full value : UInt64) :
    (w.replace false clearUpper full value).toNat = w.above clearUpper full + value.toNat % 2 ^ w.bits := by
  cases w with
  | w8 => exact toNat_splice (b := 8) (by decide) full value
  | w16 => exact toNat_splice (b := 16) (by decide) full value
  | w32 =>
    cases clearUpper with
    | false => exact toNat_splice (b := 32) (by decide) full value
    | true =>
      show (value &&& 0xFFFFFFFF).toNat = 0 + value.toNat % 2 ^ 32
      rw [Nat.zero_add, ← Nat.and_two_pow_sub_one_eq_mod, UInt64.toNat_and]
      rfl
  | w64 =>
    show value.toNat = 0 + value.toNat % 2 ^ 64
    rw [Nat.zero_add, Nat.mod_eq_of_lt value.toNat_lt]

/-- It is left alone by one write after the other. -/
theorem above_replace (w : Width) (clearUpper : Bool) (full value : UInt64) :
    w.above clearUpper (w.replace false clearUpper full value) = w.above clearUpper full := by
  have hreplace := toNat_replace w clearUpper full value
  have hvalue := Nat.mod_lt value.toNat (Nat.two_pow_pos w.bits)
  unfold above at hreplace ⊢
  split
  case isTrue => rfl
  case isFalse hkeeps =>
    have hdiv : (full.toNat / 2 ^ w.bits * 2 ^ w.bits + value.toNat % 2 ^ w.bits) / 2 ^ w.bits =
        full.toNat / 2 ^ w.bits := by
      rw [Nat.mul_comm, Nat.mul_add_div (Nat.two_pow_pos _), Nat.div_eq_of_lt hvalue, Nat.add_zero]
    rw [if_neg hkeeps] at hreplace
    rw [hreplace, hdiv]

end Width

namespace Cpu

variable {c : Cpu} {r r' : Reg}

theorem read_full (c : Cpu) (hr : r.high = false) : c.read r .w64 = c.regs.get r.index := by
  unfold read
  rw [hr]
  show _ &&& Width.w64.mask = _
  rw [show Width.w64.mask = -1 from rfl, UInt64.and_neg_one]
  rfl

theorem read_write_self (c : Cpu) (hr : r.high = false) (w : Width) (value : UInt64) :
    (c.write r w value).read r .w64 = w.replace false (c.mode = .longMode) (c.read r .w64) value := by
  rw [read_full _ hr, read_full _ hr]
  unfold write
  rw [hr]
  exact Vector.getElem_set_self _

theorem read_write_of_ne (c : Cpu) (h : r.index ≠ r'.index) (w w' : Width) (value : UInt64) :
    (c.write r w value).read r' w' = c.read r' w' := by
  have hindex : (r.index : Nat) ≠ r'.index := fun heq => h (Fin.ext heq)
  exact congrArg (w'.select r'.high) (Vector.getElem_set_ne r.index.isLt r'.index.isLt hindex)

end Cpu

end TraceCore
