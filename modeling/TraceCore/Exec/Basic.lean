/-
The setting in which one instruction runs. It may change the processor's state, the world and the
count of retired instructions, and it may break off with a fault; what it changed up to there stays
changed.
-/
import TraceCore.Instr.Basic
import TraceCore.Socket.Basic

namespace TraceCore

/-- What a running instruction changes. -/
structure Running (ω : Type) where
  cpu : Cpu
  world : ω
  /-- Instructions retired so far. -/
  retired : Nat
  /-- A store touched a watched byte. -/
  watchHit : Bool := false

/-- A part of an instruction. -/
abbrev Exec (ω : Type) := ExceptT Fault (StateM (Running ω))

/-- What stays fixed while an instruction runs. -/
structure Frame where
  /-- Address of the instruction; the instruction pointer is already behind it. -/
  rip : UInt64
  /-- Count of retired instructions from which on the processor has to give way. -/
  limit : Nat
  /-- Iterations of a repeated instruction from one check for events to the next. -/
  interval : Nat

/-- How control goes on after an instruction. -/
inductive Flow where
  | next
  | branch (taken : Bool)
  | halt
  /-- A repeated instruction gave way; the instruction pointer is back at it. -/
  | giveWay
deriving DecidableEq

namespace Exec

variable {ω α : Type}

def cpu : Exec ω Cpu := return (← get).cpu

def modifyCpu (f : Cpu → Cpu) : Exec ω Unit := modify fun r => { r with cpu := f r.cpu }

/-- Runs a step of the world. -/
def world (f : ω → α × ω) : Exec ω α :=
  modifyGet fun r =>
    match r with
    | ⟨cpu, world, retired, watchHit⟩ =>
      let (a, world) := f world
      (a, ⟨cpu, world, retired, watchHit⟩)

/-- Runs a step of the world that may fail. -/
def attempt {ε : Type} (fault : ε → Fault) (f : ω → Except ε α × ω) : Exec ω α := do
  match ← world f with
  | .ok a => pure a
  | .error e => throw (fault e)

/-- Counts one iteration of a repeated instruction. -/
def retire : Exec ω Unit := modify fun r => { r with retired := r.retired + 1 }

/-- An event is pending or the limit is reached. -/
def mustGiveWay (line : EventLine ω) (frame : Frame) : Exec ω Bool := do
  let r ← get
  return (line.events r.world).any || frame.limit ≤ r.retired

end Exec

end TraceCore
