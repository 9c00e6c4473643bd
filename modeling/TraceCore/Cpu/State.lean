/-
Architectural state of a processor: registers, instruction pointer, flags and segments.
-/
import TraceCore.Fetch.Mode

namespace TraceCore

inductive CpuMode where
  | realMode
  /-- The code size follows the code segment. -/
  | protectedMode
  | longMode
deriving DecidableEq, Inhabited

structure Segment where
  selector : UInt16
  base : UInt64
  limit : UInt32
  /-- Operands and addresses have 32 bits by default. -/
  big : Bool
deriving DecidableEq, Inhabited

namespace Segment

/-- The segment that a selector names in real mode. -/
def real (selector : UInt16) : Segment :=
  ⟨selector, selector.toUInt64 <<< 4, 0xFFFF, false⟩

/-- A 32-bit segment that spans all linear addresses. -/
def flat (selector : UInt16) : Segment :=
  ⟨selector, 0, 0xFFFFFFFF, true⟩

end Segment

structure Cpu where
  regs : Registers
  rip : UInt64
  flags : UInt64
  mode : CpuMode
  cs : Segment
  ds : Segment
  es : Segment
  cpl : UInt8
  halted : Bool
deriving DecidableEq, Inhabited

namespace Cpu

/-- All registers zero, at address zero and privilege level zero, with the flat segments of the
mode, or the real mode ones. -/
def new (mode : CpuMode) : Cpu :=
  let (cs, data) : Segment × Segment := match mode with
    | .realMode => (.real 0, .real 0)
    | .protectedMode => (.flat 0x08, .flat 0x10)
    | .longMode => ({ Segment.flat 0x08 with big := false }, .flat 0x10)
  { regs := .replicate 16 0, rip := 0, flags := Flags.fixed, mode
    cs, ds := data, es := data, cpl := 0, halted := false }

/-- Size of the code that the processor runs. -/
def codeSize (c : Cpu) : CodeSize :=
  match c.mode with
  | .realMode => .b16
  | .protectedMode => if c.cs.big then .b32 else .b16
  | .longMode => .b64

def fetchMode (c : Cpu) : FetchMode := .of c.codeSize c.cpl

/-- The bits that an instruction pointer has in the running code. -/
def ipMask (c : Cpu) : UInt64 := c.codeSize.mask

/-- Moves the instruction pointer, which wraps at the code size. -/
def setRip (c : Cpu) (rip : UInt64) : Cpu := { c with rip := rip &&& c.ipMask }

/-! ## Registers and flags -/

/-- Value of a register operand. -/
def read (c : Cpu) (r : Reg) (w : Width) : UInt64 := w.select r.high c.regs[r.index]

/-- Writes a register operand; a 32-bit write clears the upper half in long mode only. -/
def write (c : Cpu) (r : Reg) (w : Width) (value : UInt64) : Cpu :=
  { c with regs := c.regs.set r.index (w.replace r.high (c.mode = .longMode) c.regs[r.index] value) }

def zero (c : Cpu) : Bool := Flags.test c.flags Flags.zero

def backwards (c : Cpu) : Bool := Flags.test c.flags Flags.direction

/-- Zero and sign flag of a result of `bits` bits. -/
def withResult (c : Cpu) (result : UInt64) (bits : Nat) : Cpu :=
  let zero := result &&& Word.mask bits == 0
  let sign := (result >>> UInt64.ofNat (bits - 1)) &&& 1 != 0
  { c with flags := Flags.assign (Flags.assign c.flags Flags.zero zero) Flags.sign sign }

/-- Flags of the comparison of two values of width `w`: those of their difference, and a carry when
the first is the smaller one. -/
def compare (c : Cpu) (lhs rhs : UInt64) (w : Width) : Cpu :=
  let c := c.withResult ((lhs - rhs) &&& w.mask) w.bits
  { c with flags := Flags.assign c.flags Flags.carry (lhs &&& w.mask < rhs &&& w.mask) }

/-- Linear address of an offset in a segment; it has 32 bits outside 64-bit code. -/
def linear (c : Cpu) (base offset : UInt64) : UInt64 :=
  match c.codeSize with
  | .b64 => base + offset
  | _ => (base + offset) &&& 0xFFFFFFFF

end Cpu

end TraceCore
