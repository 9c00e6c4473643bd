/-
The socket of a processor: all that it reaches outside itself. Each part of a socket is a record of
operations on one and the same world, so that any of them may change anything there. A guard may
raise events, a bus may answer differently each time, and the laws that a theorem needs of them are
its hypotheses.
-/
import TraceCore.Cpu.Event
import TraceCore.Cpu.Fault
import TraceCore.Cpu.State

namespace TraceCore

/-- Guest memory as a processor reaches it. -/
structure Bus (ω : Type) where
  /-- The physical address of a linear one, for an access at a privilege level. -/
  translate : UInt64 → Access → (cpl : UInt8) → ω → Except PageFault UInt64 × ω
  /-- The page of a physical address, unless no instruction can be fetched from it. -/
  codePage : UInt64 → ω → Option PageView
  read : UInt64 → (len : Nat) → ω → Except MemoryError (List UInt8) × ω
  write : UInt64 → List UInt8 → ω → Except MemoryError Unit × ω
  /-- Moves whenever a linear address may have moved to another physical one. -/
  remaps : ω → Nat
  /-- The table that every store into memory is reported to. -/
  stamps : ω → StampTable
  mapStamps : (StampTable → StampTable) → ω → ω

/-- Kinds of access that a debugger can watch. -/
inductive WatchKind where
  | execute | read | write
deriving DecidableEq

/-- A debugger's say. -/
structure Guard (ω : Type) where
  /-- Stop before the instruction at `rip`. -/
  stopsBefore : (rip : UInt64) → ω → Bool × ω
  /-- Some byte of the range is watched. A fetch window is asked for once, a store each time. -/
  watches : (addr : UInt64) → (len : Nat) → WatchKind → ω → Bool × ω

/-- A guard that wants nothing. -/
def Guard.none {ω : Type} : Guard ω where
  stopsBefore _ w := (false, w)
  watches _ _ _ w := (false, w)

/-- The pending events of one processor, where others can raise them. -/
structure EventLine (ω : Type) where
  events : ω → Events
  set : Events → ω → ω

namespace EventLine

variable {ω : Type}

def raise (line : EventLine ω) (e : Events) (w : ω) : ω := line.set (line.events w ∪ e) w

def clear (line : EventLine ω) (e : Events) (w : ω) : ω := line.set (line.events w \ e) w

/-- Clears `e` and tells which of its events were pending. -/
def take (line : EventLine ω) (e : Events) (w : ω) : Events × ω :=
  let (taken, rest) := (line.events w).take e
  (taken, line.set rest w)

end EventLine

/-- What follows when pending events were offered. -/
inductive Handling where
  /-- Keep running; what is still pending is offered again. -/
  | resume
  | exit
deriving DecidableEq

/-- What follows a fault. -/
inductive FaultAnswer where
  /-- Run the instruction again. -/
  | retry
  /-- The processor was sent elsewhere. -/
  | delivered
  /-- Nobody can handle the fault. -/
  | escalate
deriving DecidableEq

/-- How interrupts and faults reach the guest. -/
structure Delivery (ω : Type) where
  events : EventLine ω → Cpu → ω → Handling × Cpu × ω
  /-- Called with the instruction pointer behind the instruction, which starts at `rip`. -/
  fault : Fault → (rip : UInt64) → Cpu → ω → FaultAnswer × Cpu × ω

/-- Delivery that leaves events and faults to the caller. It takes interrupts off the line, and one
that was there wakes the processor. -/
def Delivery.toCaller {ω : Type} : Delivery ω where
  events line cpu w :=
    let (taken, w) := line.take (Events.interrupt ∪ Events.nmi) w
    (.exit, if taken.any then { cpu with halted := false } else cpu, w)
  fault _ _ cpu w := (.escalate, cpu, w)

structure Socket (ω : Type) where
  bus : Bus ω
  guard : Guard ω
  delivery : Delivery ω
  line : EventLine ω

/-- What the processors of a machine are wired to: one bus, guard and delivery, and an event line
for each. -/
structure Wiring (ω : Type) where
  bus : Bus ω
  guard : Guard ω
  delivery : Delivery ω
  line : Nat → EventLine ω

/-- The socket of processor `i`. -/
def Wiring.socket {ω : Type} (wiring : Wiring ω) (i : Nat) : Socket ω :=
  { bus := wiring.bus, guard := wiring.guard, delivery := wiring.delivery, line := wiring.line i }

end TraceCore
