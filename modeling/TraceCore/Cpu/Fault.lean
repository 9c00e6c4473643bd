/-
Faults: all that can break off an instruction, and the exception that the guest sees of each.
-/
import TraceCore.Memory.Ram

namespace TraceCore

/-! ## Page faults -/

/-- What a linear address is used for. -/
inductive Access where
  | read | write | execute
deriving DecidableEq

structure PageFault where
  /-- The linear address that was refused. -/
  addr : UInt64
  code : UInt32
deriving DecidableEq

namespace PageFault

/-- Bit 0: the page is mapped. Bit 1: a write. Bit 2: at user level. Bit 4: an instruction fetch. -/
def of (addr : UInt64) (present : Bool) (access : Access) (cpl : UInt8) : PageFault :=
  let bit (on : Bool) (b : UInt32) : UInt32 := if on then b else 0
  ⟨addr, bit present 0x1 ||| bit (access = .write) 0x2 ||| bit (cpl = 3) 0x4 |||
    bit (access = .execute) 0x10⟩

def message (pf : PageFault) : String :=
  "page fault at " ++ Word.hex pf.addr.toNat ++ " (error code " ++ Word.hex pf.code.toNat ++ ")"

end PageFault

/-! ## Exceptions -/

/-- Exceptions that the guest can observe. -/
inductive Exception where
  | divideError
  | debug
  | breakpoint
  | invalidOpcode
  | generalProtection (code : UInt16)
  | pageFault (fault : PageFault)
deriving DecidableEq

namespace Exception

def vector : Exception → Nat
  | divideError => 0
  | debug => 1
  | breakpoint => 3
  | invalidOpcode => 6
  | generalProtection _ => 13
  | pageFault _ => 14

/-- The error code that is pushed with the exception, for those that have one. -/
def errorCode : Exception → Option Nat
  | generalProtection code => some code.toNat
  | pageFault pf => some pf.code.toNat
  | _ => none

def message : Exception → String
  | divideError => "#DE"
  | debug => "#DB"
  | breakpoint => "#BP"
  | invalidOpcode => "#UD"
  | generalProtection code => "#GP(" ++ Word.hex code.toNat ++ ")"
  | pageFault pf =>
    "#PF at " ++ Word.hex pf.addr.toNat ++ " (error code " ++ Word.hex pf.code.toNat ++ ")"

end Exception

/-! ## Faults -/

/-- Why no instruction can be fetched. -/
inductive FetchFault where
  | nonCanonical (rip : UInt64)
  | segmentLimit (eip : UInt64) (limit : UInt32)
  | page (fault : PageFault)
  /-- No memory at the physical address. -/
  | unbacked (addr : UInt64)
deriving DecidableEq

namespace FetchFault

def message : FetchFault → String
  | nonCanonical rip => "non-canonical instruction pointer " ++ Word.hex rip.toNat
  | segmentLimit eip limit =>
    "instruction pointer " ++ Word.hex eip.toNat ++ " beyond code segment limit " ++
      Word.hex limit.toNat
  | page pf => pf.message
  | unbacked addr => "instruction fetch from unbacked physical address " ++ Word.hex addr.toNat

end FetchFault

/-- An instruction that the bytes at hand do not complete. -/
inductive Exhaustion where
  /-- A full-length instruction was at hand and the decoder still asked for more. -/
  | tooManyPrefixes (remaining : Nat)
  /-- The bytes on both sides of a page boundary do not decode. -/
  | boundaryDecodeFailed (available : Nat)
deriving DecidableEq

namespace Exhaustion

def message : Exhaustion → String
  | tooManyPrefixes n => "instruction still incomplete with " ++ toString n ++ " bytes available"
  | boundaryDecodeFailed n =>
    "instruction spanning a page boundary did not decode from " ++ toString n ++ " bytes"

end Exhaustion

inductive Fault where
  | fetch (fault : FetchFault)
  /-- The bytes at `rip` are no instruction. -/
  | decode (rip : UInt64)
  /-- The instruction itself raises an exception. -/
  | semantic (e : Exception)
  | exhausted (e : Exhaustion)
  /-- A data access left memory. -/
  | bus (e : MemoryError)
deriving DecidableEq

namespace Fault

def message : Fault → String
  | fetch f => "instruction fetch fault: " ++ f.message
  | decode rip => "undecodable instruction at rip " ++ Word.hex rip.toNat
  | semantic e => "guest exception " ++ e.message
  | exhausted e => "resource exhaustion: " ++ e.message
  | bus e => "bus error: " ++ e.message

/-- The exception that the guest sees; none when the fault has no meaning to it. -/
def guestException : Fault → Option Exception
  | fetch (.nonCanonical _) | fetch (.segmentLimit ..) => some (.generalProtection 0)
  | fetch (.page pf) => some (.pageFault pf)
  | fetch (.unbacked _) => none
  | decode _ => some .invalidOpcode
  | semantic e => some e
  | exhausted _ => some (.generalProtection 0)
  | bus _ => none

end Fault

end TraceCore
