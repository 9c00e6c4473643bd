/-
A machine: processors that take turns on one world, and timers that raise events on them. A round
gives every processor one quantum. Then time moves on by as many ticks as the busiest of them
retired instructions, and by one tick at least, so that timers come due while all are halted.
-/
import TraceCore.Machine.Schedule
import TraceCore.Machine.Timer
import TraceCore.Processor.Dispatch

namespace TraceCore

inductive MachineError where
  | config (e : ConfigError)
  | noSuchProcessor (cpu processors : Nat)
  | memory (e : MemoryError)
deriving DecidableEq

namespace MachineError

def message : MachineError → String
  | config e => "invalid configuration: " ++ e.message
  | noSuchProcessor cpu processors =>
    "no processor " ++ toString cpu ++ " (machine has " ++ toString processors ++ ")"
  | memory e => e.message

end MachineError

/-- How a processor's quantum ended. -/
structure TurnReport where
  cpu : Nat
  exit : Exit
  /-- Instructions retired. -/
  executed : Nat
deriving DecidableEq

structure RoundReport where
  turns : List TurnReport
  /-- Ticks that the round took. -/
  advanced : Nat
deriving DecidableEq

def RoundReport.allHalted (r : RoundReport) : Bool := r.turns.all (·.exit = .halted)

structure Machine (ω : Type) where
  schedule : Schedule
  wiring : Wiring ω
  world : ω
  cpus : List Processor
  timers : TimerQueue
  /-- Time, in retired instructions. -/
  ticks : Nat
  rounds : Nat

namespace Machine

variable {ω : Type}

/-- Processors with the given states, numbered from `id` on. -/
def processors (config : CoreConfig) : (id : Nat) → List Cpu → Except ConfigError (List Processor)
  | _, [] => .ok []
  | id, cpu :: rest => do
    let p ← Processor.new id config cpu
    return p :: (← processors config (id + 1) rest)

/-- A machine with one processor for each state. -/
def new (schedule : Schedule) (wiring : Wiring ω) (world : ω) (states : List Cpu) :
    Except MachineError (Machine ω) := do
  schedule.validate.mapError .config
  if states.isEmpty then throw (.config .noProcessors)
  let cpus ← (processors (schedule.coreConfig states.length) 0 states).mapError .config
  return { schedule, wiring, world, cpus, timers := {}, ticks := 0, rounds := 0 }

/-- Has `events` raised on a processor once time reaches `tick`. -/
def arm (m : Machine ω) (tick cpu : Nat) (events : Events) :
    Except MachineError (Machine ω) :=
  if cpu < m.cpus.length then .ok { m with timers := m.timers.push tick cpu events }
  else .error (.noSuchProcessor cpu m.cpus.length)

/-- Instructions that each processor may run in the next round. A lone processor stops for the
next timer. -/
def quantum (m : Machine ω) : Nat :=
  if 1 < m.cpus.length then m.schedule.sharedQuantum
  else
    match m.timers.earliest with
    | some tick => min m.schedule.loneQuantum (max (tick - m.ticks) 1)
    | none => m.schedule.loneQuantum

/-- One quantum for each processor, in turn. -/
def runTurns (wiring : Wiring ω) (quantum : Nat) :
    (index : Nat) → List Processor → ω → List TurnReport × List Processor × ω
  | _, [], w => ([], [], w)
  | index, p :: rest, w =>
    let before := p.retired
    let (exit, p, w) := p.run (wiring.socket index) quantum w
    let report : TurnReport := { cpu := p.id, exit, executed := p.retired - before }
    let (reports, rest, w) := runTurns wiring quantum (index + 1) rest w
    (report :: reports, p :: rest, w)

/-- Raises what has come due. -/
def fire (m : Machine ω) : Machine ω :=
  let (due, timers) := m.timers.due m.ticks
  let raise (w : ω) (d : Deadline) : ω :=
    if d.cpu < m.cpus.length then (m.wiring.line d.cpu).raise d.events w else w
  { m with timers, world := due.foldl raise m.world }

/-- One round. Time stops at the last of 2^64 ticks. -/
def round (m : Machine ω) : RoundReport × Machine ω :=
  let quantum := m.quantum
  match m with
  | { schedule, wiring, world, cpus, timers, ticks, rounds } =>
    let (turns, cpus, world) := runTurns wiring quantum 0 cpus world
    let advanced := max ((turns.map (·.executed)).foldl max 0) 1
    let m : Machine ω :=
      { schedule, wiring, world, cpus, timers
        ticks := min (ticks + advanced) (UInt64.size - 1), rounds := rounds + 1 }
    ({ turns, advanced }, m.fire)

/-- Rounds until all processors are halted and no timer is left, but at most `n`. -/
def runToHalt (m : Machine ω) : (n : Nat) → Machine ω
  | 0 => m
  | n + 1 =>
    let (report, m) := m.round
    if report.allHalted && m.timers.size = 0 then m else runToHalt m n

/-- A store that did not go through the bus. -/
def noteStore (m : Machine ω) (addr : UInt64) (len : Nat) : Machine ω :=
  { m with world := m.wiring.bus.mapStamps (·.store addr len) m.world }

/-- Stores through the bus. -/
def store (m : Machine ω) (addr : UInt64) (src : List UInt8) :
    Except MachineError Unit × Machine ω :=
  match m with
  | { schedule, wiring, world, cpus, timers, ticks, rounds } =>
    let (r, world) := wiring.bus.write addr src world
    (r.mapError .memory, { schedule, wiring, world, cpus, timers, ticks, rounds })

/-- Empties every cache, makes every processor leave its trace, and resets the stamp table. -/
def clearCaches (m : Machine ω) : Machine ω :=
  let raise (w : ω) (i : Nat) : ω := (m.wiring.line i).raise .stopTrace w
  let world := (List.range m.cpus.length).foldl raise m.world
  { m with
    cpus := m.cpus.map Processor.dropTraces
    world := m.wiring.bus.mapStamps (·.reset) world }

/-- Installs another guard. -/
def withGuard (m : Machine ω) (guard : Guard ω) : Machine ω :=
  { m with wiring := { m.wiring with guard } }

end Machine

end TraceCore
