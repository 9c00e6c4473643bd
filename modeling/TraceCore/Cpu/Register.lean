/-
Operand sizes, general registers and flags.
-/
import TraceCore.Word

namespace TraceCore

/-! ## Sizes -/

/-- Width of an operand. -/
inductive Width where
  | w8 | w16 | w32 | w64
deriving DecidableEq, Inhabited

namespace Width

def bytes : Width → Nat
  | w8 => 1 | w16 => 2 | w32 => 4 | w64 => 8

def bits (w : Width) : Nat := 8 * w.bytes

def mask (w : Width) : UInt64 := Word.mask w.bits

end Width

/-- Size of code and of addresses. -/
inductive CodeSize where
  | b16 | b32 | b64
deriving DecidableEq, Inhabited

namespace CodeSize

/-- The operand width of the same size. -/
def width : CodeSize → Width
  | b16 => .w16 | b32 => .w32 | b64 => .w64

def bits (b : CodeSize) : Nat := b.width.bits

/-- The bits of an address or an instruction pointer of this size. -/
def mask (b : CodeSize) : UInt64 := b.width.mask

end CodeSize

/-! ## General registers -/

/-- A register operand: sixteen registers, and the second byte of one when `high` is set. -/
structure Reg where
  index : Fin 16
  high : Bool := false
deriving DecidableEq, Inhabited

namespace Reg

def rax : Reg := ⟨0, false⟩
def rcx : Reg := ⟨1, false⟩
def rsi : Reg := ⟨6, false⟩
def rdi : Reg := ⟨7, false⟩

/-- The whole register with number `n`. -/
def ofIndex (n : Nat) : Reg := { index := Fin.ofNat 16 n }

end Reg

abbrev Registers := Vector UInt64 16

/-- The part of `full` that an operand of width `w` names. -/
def Width.select (w : Width) (high : Bool) (full : UInt64) : UInt64 :=
  match w with
  | .w8 => if high then (full >>> 8) &&& 0xFF else full &&& 0xFF
  | _ => full &&& w.mask

/-- `full` with the part that an operand of width `w` names replaced. Eight and sixteen bits leave
the rest alone; so do 32 bits, unless the upper half is to be cleared. -/
def Width.replace (w : Width) (high clearUpper : Bool) (full value : UInt64) : UInt64 :=
  match w with
  | .w8 => if high then Word.splice 0xFF00 full (value <<< 8) else Word.splice 0xFF full value
  | .w16 => Word.splice 0xFFFF full value
  | .w32 => if clearUpper then value &&& 0xFFFFFFFF else Word.splice 0xFFFFFFFF full value
  | .w64 => value

/-! ## Flags -/

namespace Flags

def carry : UInt64 := 0x1
/-- Always one in a new processor. -/
def fixed : UInt64 := 0x2
def zero : UInt64 := 0x40
def sign : UInt64 := 0x80
def direction : UInt64 := 0x400

/-- All bits of `flag` are set. -/
def test (flags flag : UInt64) : Bool := flags &&& flag == flag

def assign (flags flag : UInt64) (on : Bool) : UInt64 :=
  if on then flags ||| flag else flags &&& ~~~flag

end Flags

end TraceCore
