/-
Decoded instructions.
-/
import TraceCore.Fetch.Mode

namespace TraceCore

/-- How often a string operation runs. -/
inductive Repeat where
  | once
  /-- Until the count is used up. -/
  | rep
  /-- Also until an element differs. -/
  | repe
  /-- Also until an element agrees. -/
  | repne
deriving DecidableEq, Inhabited

/-- With the zero flag as it is after an iteration, the repetition is over. -/
def Repeat.endsOn (r : Repeat) (zero : Bool) : Bool :=
  match r with
  | .once | .rep => false
  | .repe => !zero
  | .repne => zero

inductive StringOp where
  | move | store | compare | scan
deriving DecidableEq

inductive Cond where
  | always | zero | notZero
deriving DecidableEq

/-- Operation and operands. -/
inductive Op where
  | nop
  | halt
  | breakpoint
  | undefined
  | inc (r : Reg)
  | dec (r : Reg)
  | moveImm (r : Reg) (imm : UInt64)
  /-- Stores a byte at a fixed displacement, which counts from the next instruction if `relative`. -/
  | storeImm (disp : UInt64) (imm : UInt8) (relative : Bool)
  /-- Stores the low byte of the first register at a fixed offset. -/
  | storeAl (offset : UInt64)
  | compareAl (imm : UInt8)
  | jump (cond : Cond) (rel : Int64)
  | string (op : StringOp) (width : Width)
deriving DecidableEq

structure Instr where
  op : Op
  /-- Bytes of its encoding. -/
  len : Nat
  width : Width := .w32
  addrSize : CodeSize := .b32
  rep : Repeat := .once
  /-- Control may go elsewhere than to the next instruction. -/
  ends : Bool := false
deriving DecidableEq

/-- What a decoder says of the bytes at an instruction pointer. -/
inductive Decoded where
  | complete (i : Instr)
  /-- The instruction goes on behind the last byte. -/
  | short
  | invalid
deriving DecidableEq

/-- A decoder. It is given the bytes at hand, at most fifteen, and says `short` only of an
instruction that they do not complete. -/
abbrev Decoder := List UInt8 → FetchMode → Decoded

end TraceCore
