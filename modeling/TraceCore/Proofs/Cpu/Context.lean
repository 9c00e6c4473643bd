/-
What stays of a processor while it runs an instruction, and where its data lies. Mode, segments and privilege level are the
context of an instruction, which it may change nothing of. They settle the linear address of an offset in a data segment.
-/
import TraceCore.Cpu.State

namespace TraceCore

/-- Nothing but registers, flags, instruction pointer and the halted state differ. -/
def Cpu.SameContext (c c' : Cpu) : Prop :=
  c'.mode = c.mode ∧ c'.cs = c.cs ∧ c'.ds = c.ds ∧ c'.es = c.es ∧ c'.cpl = c.cpl

namespace Cpu.SameContext

variable {a b c : Cpu}

theorem refl (c : Cpu) : c.SameContext c := ⟨rfl, rfl, rfl, rfl, rfl⟩

theorem trans (h : a.SameContext b) (h' : b.SameContext c) : a.SameContext c := by
  obtain ⟨h1, h2, h3, h4, h5⟩ := h
  obtain ⟨h1', h2', h3', h4', h5'⟩ := h'
  exact ⟨h1'.trans h1, h2'.trans h2, h3'.trans h3, h4'.trans h4, h5'.trans h5⟩

theorem codeSize (h : a.SameContext b) : b.codeSize = a.codeSize := by
  unfold Cpu.codeSize
  rw [h.1, h.2.1]

theorem fetchMode (h : a.SameContext b) : b.fetchMode = a.fetchMode := by
  unfold Cpu.fetchMode
  rw [h.codeSize, h.2.2.2.2]

theorem ipMask (h : a.SameContext b) : b.ipMask = a.ipMask := by
  unfold Cpu.ipMask
  rw [h.codeSize]

end Cpu.SameContext

/-! ## Addresses -/

/-- A segment that data lies in. -/
inductive DataSegment where
  | ds | es
deriving DecidableEq

namespace Cpu

def base (c : Cpu) : DataSegment → UInt64
  | .ds => c.ds.base
  | .es => c.es.base

/-- Linear address of an offset in a data segment: all of 64 bits in 64-bit code, and else 32 of them. -/
def dataAddress (c : Cpu) (segment : DataSegment) (offset : UInt64) : UInt64 :=
  if c.codeSize = .b64 then c.base segment + offset else (c.base segment + offset) % 0x100000000

theorem linear_base (c : Cpu) (segment : DataSegment) (offset : UInt64) :
    c.linear (c.base segment) offset = c.dataAddress segment offset := by
  have hmask : ∀ v : UInt64, v &&& 0xFFFFFFFF = v % 0x100000000 := by
    intro v
    apply UInt64.toNat_inj.1
    rw [UInt64.toNat_and, UInt64.toNat_mod]
    exact Nat.and_two_pow_sub_one_eq_mod v.toNat 32
  unfold linear dataAddress
  rw [hmask]
  cases c.codeSize <;> rfl

/-- The linear address is that of an offset in a data segment. -/
def HasOperandAt (c : Cpu) (linear : UInt64) : Prop :=
  ∃ offset, linear = c.linear c.ds.base offset ∨ linear = c.linear c.es.base offset

theorem hasOperandAt_dataAddress (c : Cpu) (segment : DataSegment) (offset : UInt64) :
    c.HasOperandAt (c.dataAddress segment offset) := by
  rw [← linear_base]
  cases segment with
  | ds => exact ⟨offset, .inl rfl⟩
  | es => exact ⟨offset, .inr rfl⟩

theorem SameContext.dataAddress {c c' : Cpu} (h : c.SameContext c') (segment : DataSegment) (offset : UInt64) :
    c'.dataAddress segment offset = c.dataAddress segment offset := by
  have hcode := h.codeSize
  obtain ⟨-, -, hds, hes, -⟩ := h
  have hbase : c'.base segment = c.base segment := by
    cases segment with
    | ds => exact congrArg Segment.base hds
    | es => exact congrArg Segment.base hes
  unfold Cpu.dataAddress
  rw [hcode, hbase]

end Cpu

end TraceCore
