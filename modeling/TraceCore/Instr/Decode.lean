/-
The instruction set: a small part of x86.

An encoding is a run of legacy prefixes, in 64-bit code perhaps a REX byte, an opcode and its
operands. It has at most fifteen bytes. `readInstr` reads one off the front of a byte list and
leaves the rest; what is missing at the end of the list is `short`, unless fifteen bytes were there.
-/
import TraceCore.Fetch.Window
import TraceCore.Instr.Basic

namespace TraceCore

/-! ## Reading bytes -/

/-- Why reading broke off. -/
inductive Stop where
  | short
  | invalid
deriving DecidableEq

/-- Reads from the front of a byte list, and leaves the rest. -/
abbrev Reader := StateT (List UInt8) (Except Stop)

namespace Reader

def byte : Reader UInt8 := fun
  | [] => .error .short
  | b :: rest => .ok (b, rest)

def bytes : Nat → Reader (List UInt8)
  | 0 => pure []
  | n + 1 => do
    let b ← byte
    return b :: (← bytes n)

/-- An unsigned number of `n` bytes. -/
def number (n : Nat) : Reader UInt64 := return Word.ofBytes (← bytes n)

/-- A two's complement number of `n` bytes. -/
def signed (n : Nat) : Reader Int64 := return Word.signed n (← number n)

def invalid {α : Type} : Reader α := throw .invalid

end Reader

/-! ## Prefixes -/

inductive RepeatByte where
  | f2 | f3
deriving DecidableEq

/-- What the legacy prefixes and the REX byte say. -/
structure Prefixes where
  operandSize : Bool := false
  addressSize : Bool := false
  /-- The last repeat prefix. -/
  repeatByte : Option RepeatByte := none
  rex : Option UInt8 := none
deriving DecidableEq

namespace Prefixes

/-- The prefixes with one more of them, or none if the byte is no legacy prefix. Segment overrides
and the lock prefix say nothing. -/
def absorb (p : Prefixes) (b : UInt8) : Option Prefixes :=
  if b = 0x66 then some { p with operandSize := true }
  else if b = 0x67 then some { p with addressSize := true }
  else if b = 0xF2 then some { p with repeatByte := some .f2 }
  else if b = 0xF3 then some { p with repeatByte := some .f3 }
  else if b ∈ [0x26, 0x2E, 0x36, 0x3E, 0x64, 0x65, 0xF0] then some p
  else none

/-- Reads legacy prefixes, and the byte behind them. -/
def read (p : Prefixes) : Reader (Prefixes × UInt8) := fun
  | [] => .error .short
  | b :: rest =>
    match p.absorb b with
    | some p => read p rest
    | none => .ok ((p, b), rest)

/-- Extends a register number. -/
def rexB (p : Prefixes) : Bool := p.rex.any (· &&& 0x01 != 0)

/-- Widens operands to 64 bits. -/
def rexW (p : Prefixes) : Bool := p.rex.any (· &&& 0x08 != 0)

/-- Width of an operand that no opcode narrows. -/
def width (p : Prefixes) : CodeSize → Width
  | .b16 => if p.operandSize then .w32 else .w16
  | .b32 => if p.operandSize then .w16 else .w32
  | .b64 => if p.rexW then .w64 else if p.operandSize then .w16 else .w32

def addrSize (p : Prefixes) : CodeSize → CodeSize
  | .b16 => if p.addressSize then .b32 else .b16
  | .b32 => if p.addressSize then .b16 else .b32
  | .b64 => if p.addressSize then .b32 else .b64

/-- The register with a three-bit number. -/
def reg (p : Prefixes) (low : UInt8) : Reg :=
  .ofIndex ((low &&& 7).toNat + if p.rexB then 8 else 0)

/-- The byte register with a three-bit number. Without a REX byte the upper four are high bytes. -/
def byteReg (p : Prefixes) (low : UInt8) : Reg :=
  { p.reg low with high := p.rex.isNone && 4 ≤ low &&& 7 }

/-- How a string operation repeats. Only comparing ones tell the two prefixes apart. -/
def repetition (p : Prefixes) : StringOp → Repeat
  | .move | .store => if p.repeatByte.isSome then .rep else .once
  | .compare | .scan =>
    match p.repeatByte with
    | none => .once
    | some .f2 => .repne
    | some .f3 => .repe

end Prefixes

/-! ## Opcodes -/

/-- What an opcode is, before its operands are read. -/
inductive Form where
  | nop
  | halt
  | breakpoint
  /-- The opcode goes on in the next byte. -/
  | escape
  /-- Increment and decrement with the register in the opcode. -/
  | step (down : Bool) (low : UInt8)
  /-- Increment and decrement with the register in a ModRM byte. -/
  | stepRM (narrow : Bool)
  | moveImm (narrow : Bool) (low : UInt8)
  | storeAl
  | storeImm
  | compareAl
  | jumpShort (cond : Cond)
  | jumpNear
  | string (op : StringOp) (narrow : Bool)
deriving DecidableEq

/-- The form of an opcode. In 64-bit code the one-byte steps are taken by REX. -/
def Form.of? (code : CodeSize) (opcode : UInt8) : Option Form :=
  if opcode = 0x90 then some .nop
  else if opcode = 0xF4 then some .halt
  else if opcode = 0xCC then some .breakpoint
  else if opcode = 0x0F then some .escape
  else if opcode &&& 0xF0 = 0x40 then
    if code = .b64 then none else some (.step (opcode &&& 0x08 != 0) (opcode &&& 7))
  else if opcode = 0xFE then some (.stepRM true)
  else if opcode = 0xFF then some (.stepRM false)
  else if opcode &&& 0xF8 = 0xB0 then some (.moveImm true (opcode &&& 7))
  else if opcode &&& 0xF8 = 0xB8 then some (.moveImm false (opcode &&& 7))
  else if opcode = 0xA2 then some .storeAl
  else if opcode = 0xC6 then some .storeImm
  else if opcode = 0x3C then some .compareAl
  else if opcode = 0x74 then some (.jumpShort .zero)
  else if opcode = 0x75 then some (.jumpShort .notZero)
  else if opcode = 0xEB then some (.jumpShort .always)
  else if opcode = 0xE9 then some .jumpNear
  else if opcode &&& 0xFE = 0xA4 then some (.string .move (opcode &&& 1 = 0))
  else if opcode &&& 0xFE = 0xA6 then some (.string .compare (opcode &&& 1 = 0))
  else if opcode &&& 0xFE = 0xAA then some (.string .store (opcode &&& 1 = 0))
  else if opcode &&& 0xFE = 0xAE then some (.string .scan (opcode &&& 1 = 0))
  else none

/-- The displacement of a direct memory operand, and whether it counts from the next instruction. A
ModRM byte that names any other operand is refused. -/
def readDisp (code addrSize : CodeSize) (modrm : UInt8) : Reader (UInt64 × Bool) :=
  match addrSize with
  | .b16 =>
    if modrm &&& 0xC7 = 0x06 then return (← Reader.number 2, false) else Reader.invalid
  | _ =>
    if modrm &&& 0xC7 = 0x05 then return ((← Reader.signed 4).toUInt64, code = .b64)
    else Reader.invalid

/-- Reads the operands of a form. The length is filled in by the caller. -/
def Form.read (code : CodeSize) (p : Prefixes) (form : Form) : Reader Instr := do
  let wide := p.width code
  let addrSize := p.addrSize code
  let instr (op : Op) (width : Width) : Instr := { op, len := 0, width, addrSize }
  let last (op : Op) : Instr := { instr op wide with ends := true }
  match form with
  | .nop => return instr .nop wide
  | .halt => return last .halt
  | .breakpoint => return last .breakpoint
  | .escape =>
    if (← Reader.byte) = 0x0B then return last .undefined else Reader.invalid
  | .step down low => return instr (if down then .dec (p.reg low) else .inc (p.reg low)) wide
  | .stepRM narrow =>
    let modrm ← Reader.byte
    if modrm >>> 6 ≠ 3 then Reader.invalid
    else
      let (reg, width) := if narrow then (p.byteReg modrm, .w8) else (p.reg modrm, wide)
      match (modrm >>> 3) &&& 7 with
      | 0 => return instr (.inc reg) width
      | 1 => return instr (.dec reg) width
      | _ => Reader.invalid
  | .moveImm narrow low =>
    let (reg, width) := if narrow then (p.byteReg low, .w8) else (p.reg low, wide)
    return instr (.moveImm reg (← Reader.number width.bytes)) width
  | .storeAl => return instr (.storeAl (← Reader.number addrSize.width.bytes)) .w8
  | .storeImm =>
    let modrm ← Reader.byte
    if (modrm >>> 3) &&& 7 ≠ 0 then Reader.invalid
    else
      let (disp, relative) ← readDisp code addrSize modrm
      return instr (.storeImm disp (← Reader.byte) relative) .w8
  | .compareAl => return instr (.compareAl (← Reader.byte)) .w8
  | .jumpShort cond => return last (.jump cond (← Reader.signed 1))
  | .jumpNear =>
    return last (.jump .always (← Reader.signed (if wide = .w16 then 2 else 4)))
  | .string op narrow =>
    let width := if narrow then .w8 else wide
    return { instr (.string op width) width with rep := p.repetition op }

/-- Reads one instruction. -/
def readInstr (code : CodeSize) : Reader Instr := do
  let (p, opcode) ← Prefixes.read {}
  let (p, opcode) ←
    if code = .b64 ∧ opcode &&& 0xF0 = 0x40 then
      pure ({ p with rex := some opcode }, ← Reader.byte)
    else pure (p, opcode)
  match Form.of? code opcode with
  | none => Reader.invalid
  | some form => form.read code p

/-- The decoder of this instruction set. Bytes behind the fifteenth are not looked at. -/
def decodeInstr : Decoder := fun bytes mode =>
  let bytes := bytes.take maxInstrLen
  match (readInstr mode.code).run bytes with
  | .ok (i, rest) => .complete { i with len := bytes.length - rest.length }
  | .error .invalid => .invalid
  | .error .short => if bytes.length = maxInstrLen then .invalid else .short

end TraceCore
