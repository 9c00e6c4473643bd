/-
The dispatch loop, as a machine that goes from point to point.

At a `boundary` it looks for events, the halted state and the budget, and finds the trace at the
instruction pointer. At a `record` it runs one instruction of that trace. After the last one it goes
straight into the trace that a taken branch leads to, or back to a boundary. It goes back earlier
when an event is pending, when the budget is used up, or when a store hit cached code: the records
ahead may then be outdated.
-/
import TraceCore.Exec.Semantics
import TraceCore.Processor.Basic

namespace TraceCore

/-- Where the dispatch loop is. -/
inductive Point where
  | boundary
  /-- Before the record `index`, with `left` more of the trace behind it. `generation` is that of
  the stamp table when the trace was entered, and `branch` the record of the last taken branch. -/
  | record (index left generation : Nat) (branch : Option Nat)
deriving DecidableEq

/-- What follows a step. -/
inductive Step where
  | goto (point : Point)
  | leave (exit : Exit)
deriving DecidableEq

namespace Processor

variable {ω : Type}

/-! ## Events and faults -/

/-- Acts on what is pending: leaves a trace, stops for a debugger, or has interrupts delivered. -/
def serve (s : Socket ω) (p : Processor) (w : ω) : Option Exit × Processor × ω :=
  let pending := (s.line.events w).pending
  if !pending.any then (none, p, w)
  else
    let w := s.line.clear .stopTrace w
    let (stop, w) := s.line.take .debugStop w
    if stop.any then (some .breakpoint, p, w)
    else if (pending ∩ (.interrupt ∪ .nmi)).any then
      match s.delivery.events s.line p.cpu w with
      | (.resume, cpu, w) => (none, { p with cpu }, w)
      | (.exit, cpu, w) => (some .asyncEvent, { p with cpu }, w)
    else (none, p, w)

/-- Hands over a fault of the instruction at `rip`. It counts as an instruction, so that a processor
that does nothing but fault uses up its budget. -/
def handFault (s : Socket ω) (fault : Fault) (rip : UInt64) (p : Processor) (w : ω) :
    Step × Processor × ω :=
  let window := match fault with | .fetch _ => p.window.close | _ => p.window
  let p := { p with retired := p.retired + 1, window }
  match s.delivery.fault fault rip p.cpu w with
  | (.retry, cpu, w) => (.goto .boundary, { p with cpu := { cpu with rip } }, w)
  | (.delivered, cpu, w) => (.goto .boundary, { p with cpu }, w)
  | (.escalate, cpu, w) => (.leave (.fatal fault), { p with cpu := { cpu with rip } }, w)

/-! ## Fetching -/

/-- Offset of `rip` in the fetch window, if no mapping changed since the window was made. -/
def offsetOf (bus : Bus ω) (p : Processor) (rip : UInt64) (w : ω) : Option Nat :=
  if p.window.remaps = bus.remaps w then p.window.offset? rip else none

/-- Has the instruction pointer in the fetch window, and gives its offset there. -/
def enterWindow (s : Socket ω) (p : Processor) (w : ω) : Except FetchFault Nat × Processor × ω :=
  match p.offsetOf s.bus p.cpu.rip w with
  | some offset => (.ok offset, p, w)
  | none =>
    match openWindow s.bus s.guard p.cpu p.cpu.rip w with
    | (.error e, w) => (.error e, p, w)
    | (.ok window, w) => (.ok window.entry, { p with window }, w)

/-- The slot of the trace at the instruction pointer. -/
def findTrace (s : Socket ω) (p : Processor) (w : ω) : Except Fault Nat × Processor × ω :=
  match p.enterWindow s w with
  | (.error e, p, w) => (.error (.fetch e), p, w)
  | (.ok offset, p, w) =>
    let site : Site :=
      { addr := p.window.address offset, mode := p.cpu.fetchMode, rip := p.cpu.rip
        remaining := p.window.remaining offset }
    let cpu := p.cpu
    let next (rip : UInt64) (w : ω) : Except Fault FetchWindow × ω :=
      let (r, w) := openWindow s.bus s.guard cpu rip w
      (r.mapError .fetch, w)
    let cache := p.cache
    let p := { p with cache := .none }
    let (r, cache, w) := cache.ensure s.bus p.decode site next w
    (r, { p with cache }, w)

/-- The first record of the trace in a slot. -/
def enterTrace (s : Socket ω) (p : Processor) (slot : Nat) (w : ω) : Point :=
  match p.cache.trace? slot with
  | some t =>
    if t.len = 0 then .boundary
    else .record t.start (t.len - 1) (s.bus.stamps w).generation none
  | none => .boundary

/-! ## Running -/

/-- A debugger stops the processor before the instruction at `rip`. -/
def stopsAt (s : Socket ω) (rip : UInt64) (len : Nat) (p : Processor) (w : ω) :
    Bool × Processor × ω :=
  if p.resume then (false, { p with resume := false }, w)
  else
    let (stop, w) := s.guard.stopsBefore rip w
    if stop then (true, p, w)
    else if p.window.watched then
      let linear := if p.cpu.codeSize = .b64 then rip else (p.cpu.cs.base + rip) &&& 0xFFFFFFFF
      let (hit, w) := s.guard.watches linear len .execute w
      (hit, p, w)
    else (false, p, w)

/-- Runs one instruction, with the instruction pointer moved behind it. The flag tells of a watched
store. -/
def execute (s : Socket ω) (limit : Nat) (i : Instr) (p : Processor) (w : ω) :
    Except Fault Flow × Bool × Processor × ω :=
  let frame : Frame := { rip := p.cpu.rip, limit, interval := p.config.repeatInterval }
  let cpu := p.cpu.setRip (p.cpu.rip + UInt64.ofNat i.len)
  let (flow, r) := (Exec.instr s frame i).run.run { cpu, world := w, retired := p.retired }
  (flow, r.watchHit, { p with cpu := r.cpu, retired := r.retired }, r.world)

/-- The trace must be left: something is pending, the budget is used up, or cached code was
written since the trace was entered. -/
def mustLeave (s : Socket ω) (limit generation : Nat) (p : Processor) (w : ω) : Bool :=
  (s.line.events w).any || limit ≤ p.retired || (s.bus.stamps w).generation != generation

/-- Where the last record of a trace leads: into the trace that a taken branch led to, or to a
boundary. -/
def follow (s : Socket ω) (limit : Nat) (branch : Option Nat) (p : Processor) (w : ω) :
    Point × Processor :=
  match branch with
  | none => (.boundary, p)
  | some index =>
    match p.offsetOf s.bus p.cpu.rip w with
    | none => (.boundary, p)
    | some offset =>
      let mayFollow := !(s.line.events w).any && p.retired < limit
      let cache := p.cache
      let p := { p with cache := .none }
      let (slot, linker, cache) := p.linker.chain cache (s.bus.stamps w) index
        (p.window.address offset) p.cpu.fetchMode mayFollow
      let p := { p with linker, cache }
      match slot with
      | none => (.boundary, p)
      | some slot => (p.enterTrace s slot w, p)

/-- One step from a boundary. -/
def stepBoundary (s : Socket ω) (limit : Nat) (p : Processor) (w : ω) : Step × Processor × ω :=
  match serve s { p with linker := p.linker.reset } w with
  | (some exit, p, w) => (.leave exit, p, w)
  | (none, p, w) =>
    if p.cpu.halted then (.leave .halted, p, w)
    else if limit ≤ p.retired then (.leave .quantumExhausted, p, w)
    else
      let rip := p.cpu.rip
      match p.findTrace s w with
      | (.error fault, p, w) => p.handFault s fault rip w
      | (.ok slot, p, w) => (.goto (p.enterTrace s slot w), p, w)

/-- One step from a record. -/
def stepRecord (s : Socket ω) (limit index left generation : Nat) (branch : Option Nat)
    (p : Processor) (w : ω) : Step × Processor × ω :=
  match p.cache.pool[index]? with
  | none => (.goto .boundary, p, w)
  | some record =>
    let i := record.instr
    let rip := p.cpu.rip
    match p.stopsAt s rip i.len w with
    | (true, p, w) => (.leave .breakpoint, p, w)
    | (false, p, w) =>
      match p.execute s limit i w with
      | (.error fault, _, p, w) => p.handFault s fault rip w
      | (.ok flow, watchHit, p, w) =>
        let p := if flow = .giveWay then p else { p with retired := p.retired + 1 }
        if watchHit then (.leave .breakpoint, p, w)
        else if flow = .halt ∨ flow = .giveWay ∨ p.mustLeave s limit generation w then
          (.goto .boundary, p, w)
        else
          let branch := match flow with
            | .branch taken => if taken then some index else none
            | _ => branch
          match left with
          | left + 1 => (.goto (.record (index + 1) left generation branch), p, w)
          | 0 =>
            let (point, p) := p.follow s limit branch w
            (.goto point, p, w)

def step (s : Socket ω) (limit : Nat) (point : Point) (p : Processor) (w : ω) :
    Step × Processor × ω :=
  match point with
  | .boundary => p.stepBoundary s limit w
  | .record index left generation branch => p.stepRecord s limit index left generation branch w

/-! ## The loop -/

/-- At most `n` steps; no reason to exit if they do not suffice. -/
def runSteps (s : Socket ω) (limit : Nat) :
    (n : Nat) → Point → Processor → ω → Option Exit × Processor × ω
  | 0, _, p, w => (none, p, w)
  | n + 1, point, p, w =>
    match p.step s limit point w with
    | (.leave exit, p, w) => (some exit, p, w)
    | (.goto point, p, w) => runSteps s limit n point p w

/-- The count of retired instructions at which a budget is used up. It stays below 2^64. -/
def limitFor (p : Processor) (budget : Nat) : Nat := min (p.retired + budget) (UInt64.size - 1)

/-- Runs until `budget` more instructions retired, or something needs the caller. Between two
boundaries at least one instruction retires, and there is a record for each, so the steps
suffice. -/
def run (s : Socket ω) (budget : Nat) (p : Processor) (w : ω) : Exit × Processor × ω :=
  match runSteps s (p.limitFor budget) (2 * budget + 1) .boundary p w with
  | (some exit, p, w) => (exit, p, w)
  | (none, p, w) => (.quantumExhausted, p, w)

end Processor

end TraceCore
