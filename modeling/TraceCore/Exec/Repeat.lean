/-
Repeated string instructions. The count is CX, ECX or RCX, by address size. Every so many iterations
the loop looks whether it has to give way; it then goes back to the start of the instruction with
the count that is left, as hardware does for an interrupt in the middle of a repetition.
-/
import TraceCore.Exec.Basic

namespace TraceCore

/-- The count of a repeated instruction. -/
def Cpu.count (c : Cpu) (size : CodeSize) : UInt64 := c.read .rcx .w64 &&& size.mask

/-- Sets the count. Sixteen bits leave the rest of the register alone; 32 bits clear it. -/
def Cpu.setCount (c : Cpu) (size : CodeSize) (n : UInt64) : Cpu :=
  match size with
  | .b16 => c.write .rcx .w16 n
  | .b32 => c.write .rcx .w64 (n &&& 0xFFFFFFFF)
  | .b64 => c.write .rcx .w64 n

namespace Exec

variable {ω : Type}

/-- Up to `n` iterations, of which `since` ran since the last check. All iterations but the last
are retired here. -/
def iterate (line : EventLine ω) (frame : Frame) (i : Instr) (body : Exec ω Unit) :
    (n since : Nat) → Exec ω Flow
  | 0, _ => return .next
  | n + 1, since => do
    body
    modifyCpu (·.setCount i.addrSize (UInt64.ofNat n))
    if n = 0 || i.rep.endsOn (← cpu).zero then return .next
    retire
    if since + 1 < max frame.interval 1 then
      iterate line frame i body n (since + 1)
    else if ← mustGiveWay line frame then
      modifyCpu ({ · with rip := frame.rip })
      return .giveWay
    else
      iterate line frame i body n 0

/-- Runs `body` as often as the instruction asks for: once without a repeat prefix, else up to the
count. -/
def repeated (line : EventLine ω) (frame : Frame) (i : Instr) (body : Exec ω Unit) :
    Exec ω Flow := do
  if i.rep = .once then
    body
    return .next
  else
    iterate line frame i body ((← cpu).count i.addrSize).toNat 0

end Exec

end TraceCore
