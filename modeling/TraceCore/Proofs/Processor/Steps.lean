/-
What each part of the dispatch loop can do, for any socket: the events at a boundary, a fault that is
handed over, and the way on behind a trace. What every step keeps, a run keeps.
-/
import TraceCore.Processor.Dispatch

namespace TraceCore

namespace Processor

variable {ω : Type}

/-- The world once a debugger's stop and the word to leave the trace are taken off the line. -/
def heard (s : Socket ω) (w : ω) : ω := (s.line.take .debugStop (s.line.clear .stopTrace w)).2

/-- What comes of the events at a boundary. -/
inductive Served (s : Socket ω) (p : Processor) (w : ω) : Option Exit × Processor × ω → Prop
  | quiet (pending : (s.line.events w).pending.any = false) : Served s p w (none, p, w)
  | stopped : Served s p w (some .breakpoint, p, heard s w)
  | passed : Served s p w (none, p, heard s w)
  | resumed (cpu : Cpu) (w' : ω) (answer : s.delivery.events s.line p.cpu (heard s w) = (.resume, cpu, w')) :
      Served s p w (none, { p with cpu }, w')
  | exited (cpu : Cpu) (w' : ω) (answer : s.delivery.events s.line p.cpu (heard s w) = (.exit, cpu, w')) :
      Served s p w (some .asyncEvent, { p with cpu }, w')

theorem served_serve (s : Socket ω) (p : Processor) (w : ω) : Served s p w (serve s p w) := by
  unfold serve
  dsimp only
  split
  case isTrue h => exact .quiet (by simpa using h)
  case isFalse =>
    split
    case isTrue => exact .stopped
    case isFalse =>
      split
      case isFalse => exact .passed
      case isTrue =>
        split
        case h_1 cpu w' answer => exact .resumed cpu w' answer
        case h_2 cpu w' answer => exact .exited cpu w' answer

theorem retired_serve (s : Socket ω) (p : Processor) (w : ω) : (serve s p w).2.1.retired = p.retired := by
  have hserved := served_serve s p w
  generalize serve s p w = out at hserved ⊢
  cases hserved <;> rfl

theorem serve_of_quiet {s : Socket ω} {w : ω} (h : (s.line.events w).pending.any = false) (p : Processor) :
    serve s p w = (none, p, w) := by
  unfold serve
  dsimp only
  rw [h]
  rfl

/-- What comes of a fault. -/
inductive Handed (s : Socket ω) (fault : Fault) (rip : UInt64) (p : Processor) (w : ω) : Step × Processor × ω → Prop
  | retried (window : FetchWindow) (closed : window = p.window ∨ window = p.window.close) (cpu : Cpu) (w' : ω)
      (answer : s.delivery.fault fault rip p.cpu w = (.retry, cpu, w')) :
      Handed s fault rip p w (.goto .boundary, { p with retired := p.retired + 1, window, cpu := { cpu with rip } }, w')
  | delivered (window : FetchWindow) (closed : window = p.window ∨ window = p.window.close) (cpu : Cpu) (w' : ω)
      (answer : s.delivery.fault fault rip p.cpu w = (.delivered, cpu, w')) :
      Handed s fault rip p w (.goto .boundary, { p with retired := p.retired + 1, window, cpu }, w')
  | escalated (window : FetchWindow) (closed : window = p.window ∨ window = p.window.close) (cpu : Cpu) (w' : ω)
      (answer : s.delivery.fault fault rip p.cpu w = (.escalate, cpu, w')) :
      Handed s fault rip p w
        (.leave (.fatal fault), { p with retired := p.retired + 1, window, cpu := { cpu with rip } }, w')

/-- A fault of a fetch closes the window. -/
theorem closed_or_kept (fault : Fault) (window : FetchWindow) :
    (match fault with | .fetch _ => window.close | _ => window) = window ∨
      (match fault with | .fetch _ => window.close | _ => window) = window.close := by
  cases fault with
  | fetch e => exact Or.inr rfl
  | _ => exact Or.inl rfl

theorem handed_handFault (s : Socket ω) (fault : Fault) (rip : UInt64) (p : Processor) (w : ω) :
    Handed s fault rip p w (handFault s fault rip p w) := by
  have hclosed := closed_or_kept fault p.window
  unfold handFault
  dsimp only
  split
  case h_1 cpu w' answer => exact .retried _ hclosed cpu w' answer
  case h_2 cpu w' answer => exact .delivered _ hclosed cpu w' answer
  case h_3 cpu w' answer => exact .escalated _ hclosed cpu w' answer

/-- A fault that is handed over is counted. The state is left to the delivery, and the window may be closed. -/
theorem handFault_only (s : Socket ω) (fault : Fault) (rip : UInt64) (p : Processor) (w : ω) :
    ∃ window cpu, (p.handFault s fault rip w).2.1 = { p with retired := p.retired + 1, window, cpu } := by
  have hhanded := handed_handFault s fault rip p w
  generalize p.handFault s fault rip w = out at hhanded ⊢
  cases hhanded <;> exact ⟨_, _, rfl⟩

theorem retired_handFault (s : Socket ω) (fault : Fault) (rip : UInt64) (p : Processor) (w : ω) :
    (p.handFault s fault rip w).2.1.retired = p.retired + 1 := by
  obtain ⟨window, cpu, honly⟩ := handFault_only s fault rip p w
  rw [honly]

/-- A fault that makes the loop leave comes back as it is. -/
theorem fatal_of_handFault {s : Socket ω} {fault : Fault} {rip : UInt64} {p : Processor} {w : ω} {exit : Exit}
    (h : (p.handFault s fault rip w).1 = .leave exit) : exit = .fatal fault := by
  have hhanded := handed_handFault s fault rip p w
  generalize p.handFault s fault rip w = out at hhanded h
  cases hhanded with
  | escalated => exact (Step.leave.inj h).symm
  | _ => cases h

/-- A fault that does not make the loop leave takes it back to its top. -/
theorem boundary_of_handFault {s : Socket ω} {fault : Fault} {rip : UInt64} {p : Processor} {w : ω} {next : Point}
    (h : (p.handFault s fault rip w).1 = .goto next) : next = .boundary := by
  have hhanded := handed_handFault s fault rip p w
  generalize p.handFault s fault rip w = out at hhanded h
  cases hhanded with
  | escalated => cases h
  | _ => exact (Step.goto.inj h).symm

/-- Past the checks of a boundary: the way into the trace that is found, or the fault handed over. -/
def searched (s : Socket ω) (p : Processor) (w : ω) : Step × Processor × ω :=
  match p.findTrace s w with
  | (.error fault, p', w') => p'.handFault s fault p.cpu.rip w'
  | (.ok slot, p', w') => (.goto (p'.enterTrace s slot w'), p', w')

/-- What comes of a step from a boundary. -/
inductive Bounded (s : Socket ω) (limit : Nat) (p : Processor) (w : ω) : Step × Processor × ω → Prop
  | left (exit : Exit) (p₁ : Processor) (w₁ : ω)
    (served : serve s { p with linker := p.linker.reset } w = (some exit, p₁, w₁)) :
      Bounded s limit p w (.leave exit, p₁, w₁)
  | halted (p₁ : Processor) (w₁ : ω) (served : serve s { p with linker := p.linker.reset } w = (none, p₁, w₁))
      (asleep : p₁.cpu.halted = true) : Bounded s limit p w (.leave .halted, p₁, w₁)
  | spent (p₁ : Processor) (w₁ : ω) (served : serve s { p with linker := p.linker.reset } w = (none, p₁, w₁))
      (awake : p₁.cpu.halted = false) (budget : limit ≤ p₁.retired) :
      Bounded s limit p w (.leave .quantumExhausted, p₁, w₁)
  | searched (p₁ : Processor) (w₁ : ω) (served : serve s { p with linker := p.linker.reset } w = (none, p₁, w₁))
      (awake : p₁.cpu.halted = false) (budget : p₁.retired < limit) : Bounded s limit p w (p₁.searched s w₁)

theorem bounded_stepBoundary (s : Socket ω) (limit : Nat) (p : Processor) (w : ω) :
    Bounded s limit p w (p.stepBoundary s limit w) := by
  unfold stepBoundary
  rcases hserved : serve s { p with linker := p.linker.reset } w with ⟨e, p₁, w₁⟩
  cases e with
  | some exit => exact .left exit p₁ w₁ hserved
  | none =>
    dsimp only
    split
    case isTrue hasleep => exact .halted p₁ w₁ hserved hasleep
    case isFalse hawake =>
      rw [Bool.not_eq_true] at hawake
      split
      case isTrue hspent => exact .spent p₁ w₁ hserved hawake hspent
      case isFalse hbudget => exact .searched p₁ w₁ hserved hawake (Nat.not_le.1 hbudget)

/-- Where its events make a processor leave, a run is over at once. -/
theorem run_of_serve {s : Socket ω} {p p' : Processor} {w w' : ω} {exit : Exit}
    (h : serve s { p with linker := p.linker.reset } w = (some exit, p', w')) (budget : Nat) :
    p.run s budget w = (exit, p', w') := by
  have hstep : p.step s (p.limitFor budget) .boundary w = (.leave exit, p', w') := by
    unfold step stepBoundary
    dsimp only
    rw [h]
  unfold run
  rw [runSteps, hstep]

/-- So it is where they let it go on and it is halted. -/
theorem run_of_halted {s : Socket ω} {p p' : Processor} {w w' : ω}
    (h : serve s { p with linker := p.linker.reset } w = (none, p', w')) (hhalted : p'.cpu.halted = true)
    (budget : Nat) : p.run s budget w = (.halted, p', w') := by
  have hstep : p.step s (p.limitFor budget) .boundary w = (.leave .halted, p', w') := by
    unfold step stepBoundary
    dsimp only
    rw [h]
    exact if_pos hhalted
  unfold run
  rw [runSteps, hstep]

/-- The processor once an instruction is through, which counts unless it gave way. -/
def counted (p : Processor) (flow : Flow) : Processor :=
  if flow = .giveWay then p else { p with retired := p.retired + 1 }

/-- The record of the last taken branch, once the one in record `index` is through. -/
def branched (index : Nat) (branch : Option Nat) : Flow → Option Nat
  | .branch taken => if taken then some index else none
  | _ => branch

/-- What comes of a step from a record. -/
inductive Recorded (s : Socket ω) (limit index left generation : Nat) (branch : Option Nat) (p : Processor) (w : ω) :
    Step × Processor × ω → Prop
  | missing (nothing : p.cache.pool[index]? = none) :
      Recorded s limit index left generation branch p w (.goto .boundary, p, w)
  | stopped (record : Record) (found : p.cache.pool[index]? = some record) (p₁ : Processor) (w₁ : ω)
      (stops : p.stopsAt s p.cpu.rip record.instr.len w = (true, p₁, w₁)) :
      Recorded s limit index left generation branch p w (.leave .breakpoint, p₁, w₁)
  | faulted (record : Record) (found : p.cache.pool[index]? = some record) (p₁ : Processor) (w₁ : ω)
      (passes : p.stopsAt s p.cpu.rip record.instr.len w = (false, p₁, w₁)) (fault : Fault) (hit : Bool)
      (p₂ : Processor) (w₂ : ω) (executed : p₁.execute s limit record.instr w₁ = (.error fault, hit, p₂, w₂)) :
      Recorded s limit index left generation branch p w (p₂.handFault s fault p.cpu.rip w₂)
  | struck (record : Record) (found : p.cache.pool[index]? = some record) (p₁ : Processor) (w₁ : ω)
      (passes : p.stopsAt s p.cpu.rip record.instr.len w = (false, p₁, w₁)) (flow : Flow) (p₂ : Processor) (w₂ : ω)
      (executed : p₁.execute s limit record.instr w₁ = (.ok flow, true, p₂, w₂)) :
      Recorded s limit index left generation branch p w (.leave .breakpoint, p₂.counted flow, w₂)
  | left (record : Record) (found : p.cache.pool[index]? = some record) (p₁ : Processor) (w₁ : ω)
      (passes : p.stopsAt s p.cpu.rip record.instr.len w = (false, p₁, w₁)) (flow : Flow) (p₂ : Processor) (w₂ : ω)
      (executed : p₁.execute s limit record.instr w₁ = (.ok flow, false, p₂, w₂))
      (leaves : flow = .halt ∨ flow = .giveWay ∨ (p₂.counted flow).mustLeave s limit generation w₂ = true) :
      Recorded s limit index left generation branch p w (.goto .boundary, p₂.counted flow, w₂)
  | next (record : Record) (found : p.cache.pool[index]? = some record) (p₁ : Processor) (w₁ : ω)
      (passes : p.stopsAt s p.cpu.rip record.instr.len w = (false, p₁, w₁)) (flow : Flow) (p₂ : Processor) (w₂ : ω)
      (executed : p₁.execute s limit record.instr w₁ = (.ok flow, false, p₂, w₂)) (n : Nat) (more : left = n + 1)
      (stays : flow ≠ .giveWay ∧ (p₂.counted flow).mustLeave s limit generation w₂ = false) :
      Recorded s limit index left generation branch p w
        (.goto (.record (index + 1) n generation (branched index branch flow)), p₂.counted flow, w₂)
  | through (record : Record) (found : p.cache.pool[index]? = some record) (p₁ : Processor) (w₁ : ω)
      (passes : p.stopsAt s p.cpu.rip record.instr.len w = (false, p₁, w₁)) (flow : Flow) (p₂ : Processor) (w₂ : ω)
      (executed : p₁.execute s limit record.instr w₁ = (.ok flow, false, p₂, w₂)) (last : left = 0)
      (stays : flow ≠ .giveWay ∧ (p₂.counted flow).mustLeave s limit generation w₂ = false) :
      Recorded s limit index left generation branch p w
        (.goto ((p₂.counted flow).follow s limit (branched index branch flow) w₂).1,
          ((p₂.counted flow).follow s limit (branched index branch flow) w₂).2, w₂)

theorem recorded_stepRecord (s : Socket ω) (limit index left generation : Nat) (branch : Option Nat) (p : Processor)
    (w : ω) : Recorded s limit index left generation branch p w
      (p.stepRecord s limit index left generation branch w) := by
  unfold stepRecord
  split
  case h_1 hnothing => exact .missing hnothing
  case h_2 record hfound =>
    dsimp only
    split
    case h_1 p₁ w₁ hstops => exact .stopped record hfound p₁ w₁ hstops
    case h_2 p₁ w₁ hpasses =>
      split
      case h_1 fault hit p₂ w₂ hexecuted => exact .faulted record hfound p₁ w₁ hpasses fault hit p₂ w₂ hexecuted
      case h_2 flow hit p₂ w₂ hexecuted =>
        rw [show (if flow = .giveWay then p₂ else { p₂ with retired := p₂.retired + 1 }) = p₂.counted flow from rfl]
        cases hit with
        | true => exact .struck record hfound p₁ w₁ hpasses flow p₂ w₂ hexecuted
        | false =>
          rw [if_neg Bool.false_ne_true]
          split
          case isTrue hleaves => exact .left record hfound p₁ w₁ hpasses flow p₂ w₂ hexecuted hleaves
          case isFalse hstays =>
            simp only [not_or, Bool.not_eq_true] at hstays
            cases left with
            | zero => exact .through record hfound p₁ w₁ hpasses flow p₂ w₂ hexecuted rfl ⟨hstays.2.1, hstays.2.2⟩
            | succ n => exact .next record hfound p₁ w₁ hpasses flow p₂ w₂ hexecuted n rfl ⟨hstays.2.1, hstays.2.2⟩

/-- At a record the loop leaves for a debugger or with a fault only. -/
theorem exit_of_stepRecord {s : Socket ω} {limit index left generation : Nat} {branch : Option Nat} {p : Processor}
    {w : ω} {exit : Exit} (h : (p.stepRecord s limit index left generation branch w).1 = .leave exit) :
    exit = .breakpoint ∨ ∃ fault, exit = .fatal fault := by
  have hrecorded := recorded_stepRecord s limit index left generation branch p w
  generalize p.stepRecord s limit index left generation branch w = out at hrecorded h
  cases hrecorded with
  | stopped => exact Or.inl (Step.leave.inj h).symm
  | faulted record found p₁ w₁ passes fault => exact Or.inr ⟨fault, fatal_of_handFault h⟩
  | struck => exact Or.inl (Step.leave.inj h).symm
  | _ => cases h

/-- Going on behind a trace changes links and cache only. -/
theorem follow_only (s : Socket ω) (limit : Nat) (branch : Option Nat) (p : Processor) (w : ω) :
    ∃ linker cache, (p.follow s limit branch w).2 = { p with linker, cache } := by
  unfold follow
  split
  case h_1 => exact ⟨p.linker, p.cache, rfl⟩
  case h_2 =>
    split
    case h_1 => exact ⟨p.linker, p.cache, rfl⟩
    case h_2 =>
      dsimp only
      split
      case h_1 => exact ⟨_, _, rfl⟩
      case h_2 => exact ⟨_, _, rfl⟩

/-! ## Runs -/

/-- What every step keeps, a run keeps. -/
theorem runSteps_induction {s : Socket ω} {limit : Nat} {Q : Processor → ω → Prop}
    (hstep : ∀ point p w, Q p w → Q (p.step s limit point w).2.1 (p.step s limit point w).2.2) (n : Nat) (point : Point)
    (p : Processor) (w : ω) (h : Q p w) :
    Q (runSteps s limit n point p w).2.1 (runSteps s limit n point p w).2.2 := by
  induction n generalizing point p w with
  | zero => exact h
  | succ n ih =>
    have hnext := hstep point p w h
    unfold runSteps
    rcases hs : p.step s limit point w with ⟨next, p', w'⟩
    rw [hs] at hnext
    cases next with
    | leave exit => exact hnext
    | goto point' => exact ih point' p' w' hnext

/-- A run is the steps that its budget allows. -/
theorem run_eq (s : Socket ω) (budget : Nat) (p : Processor) (w : ω) :
    p.run s budget w = ((runSteps s (p.limitFor budget) (2 * budget + 1) .boundary p w).1.getD .quantumExhausted,
      (runSteps s (p.limitFor budget) (2 * budget + 1) .boundary p w).2) := by
  unfold run
  rcases runSteps s (p.limitFor budget) (2 * budget + 1) .boundary p w with ⟨exit, p₁, w₁⟩
  cases exit <;> rfl

theorem run_induction {s : Socket ω} {Q : Processor → ω → Prop} (budget : Nat) (p : Processor) (w : ω)
    (hstep : ∀ limit point p w, Q p w → Q (p.step s limit point w).2.1 (p.step s limit point w).2.2) (h : Q p w) :
    Q (p.run s budget w).2.1 (p.run s budget w).2.2 := by
  rw [run_eq]
  exact runSteps_induction (hstep (p.limitFor budget)) (2 * budget + 1) .boundary p w h

end Processor

end TraceCore
