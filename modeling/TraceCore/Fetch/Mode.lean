/-
The mode that instruction bytes are decoded under: code size and privilege level.
-/
import TraceCore.Cpu.Register

namespace TraceCore

/-- Code size and privilege level. The same bytes decode differently under different sizes, so the
mode is part of the key of every cached trace. -/
structure FetchMode where
  code : CodeSize
  cpl : Fin 4
deriving DecidableEq, Inhabited

namespace FetchMode

/-- Only the two low bits of the privilege level count. -/
def of (code : CodeSize) (cpl : UInt8) : FetchMode := ⟨code, Fin.ofNat 4 cpl.toNat⟩

/-- Code size in the two low bits, privilege level above. -/
def mask (mode : FetchMode) : UInt64 :=
  let size : Nat := match mode.code with | .b16 => 0 | .b32 => 1 | .b64 => 2
  UInt64.ofNat (size + 4 * mode.cpl)

end FetchMode

end TraceCore
