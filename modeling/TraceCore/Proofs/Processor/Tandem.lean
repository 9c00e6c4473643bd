/-
Two runs of one processor, in worlds that are related. If it cannot tell the worlds apart when it serves events, hands over
faults, finds traces, asks a debugger and executes instructions, it goes the same way in both, step by step and to the end
of a run. What it cannot tell it may owe to a property of its own that all of this keeps.
-/
import TraceCore.Proofs.Processor.Steps

namespace TraceCore

variable {ω ω' α : Type} {I : Processor → Prop} {R : ω → ω' → Prop} {s : Socket ω} {s' : Socket ω'}

/-- The same outcome and processor, which has the property, and related worlds. -/
structure InTandem (I : Processor → Prop) (R : ω → ω' → Prop) (x : α × Processor × ω) (y : α × Processor × ω') :
    Prop where
  outcome : y.1 = x.1
  processor : y.2.1 = x.2.1
  inside : I x.2.1
  worlds : R x.2.2 y.2.2

/-- From related worlds a processor with the property does the same through both sockets, and has it afterwards. -/
structure Socket.Tandem (I : Processor → Prop) (R : ω → ω' → Prop) (s : Socket ω) (s' : Socket ω') : Prop where
  remaps : ∀ {w w'}, R w w' → s'.bus.remaps w' = s.bus.remaps w
  stamps : ∀ {w w'}, R w w' → s'.bus.stamps w' = s.bus.stamps w
  events : ∀ {w w'}, R w w' → s'.line.events w' = s.line.events w
  /-- The property is not about traces, links and counts. -/
  carries : ∀ {p : Processor} cache linker retired, I p → I { p with cache, linker, retired }
  serve : ∀ {p : Processor} {w w'}, I p → R w w' → InTandem I R (Processor.serve s p w) (Processor.serve s' p w')
  handFault : ∀ {p : Processor} {w w'} fault rip, I p → R w w' →
    InTandem I R (p.handFault s fault rip w) (p.handFault s' fault rip w')
  findTrace : ∀ {p : Processor} {w w'}, I p → R w w' → InTandem I R (p.findTrace s w) (p.findTrace s' w')
  stopsAt : ∀ {p : Processor} {w w'} rip len, I p → R w w' →
    InTandem I R (p.stopsAt s rip len w) (p.stopsAt s' rip len w')
  execute : ∀ {p : Processor} {w w'} limit i, I p → R w w' →
    InTandem I R ((p.execute s limit i w).1, (p.execute s limit i w).2.2)
      ((p.execute s' limit i w').1, (p.execute s' limit i w').2.2) ∧
    (p.execute s' limit i w').2.1 = (p.execute s limit i w).2.1

namespace Socket.Tandem

variable {p : Processor} {w : ω} {w' : ω'}

/-! ## Steps -/

theorem offsetOf (h : s.Tandem I R s') (hw : R w w') (p : Processor) (rip : UInt64) :
    p.offsetOf s'.bus rip w' = p.offsetOf s.bus rip w := by
  unfold Processor.offsetOf
  rw [h.remaps hw]

theorem enterTrace (h : s.Tandem I R s') (hw : R w w') (p : Processor) (slot : Nat) :
    p.enterTrace s' slot w' = p.enterTrace s slot w := by
  unfold Processor.enterTrace
  rw [h.stamps hw]

theorem mustLeave (h : s.Tandem I R s') (hw : R w w') (p : Processor) (limit generation : Nat) :
    p.mustLeave s' limit generation w' = p.mustLeave s limit generation w := by
  unfold Processor.mustLeave
  rw [h.events hw, h.stamps hw]

theorem follow (h : s.Tandem I R s') (hp : I p) (hw : R w w') (limit : Nat) (branch : Option Nat) :
    p.follow s' limit branch w' = p.follow s limit branch w ∧ I (p.follow s limit branch w).2 := by
  constructor
  · unfold Processor.follow
    cases branch with
    | none => rfl
    | some index =>
      dsimp only
      rw [h.offsetOf hw, h.events hw, h.stamps hw]
      simp only [h.enterTrace hw]
  · obtain ⟨linker, cache, hfollow⟩ := Processor.follow_only s limit branch p w
    rw [hfollow]
    exact h.carries cache linker _ hp

theorem stepBoundary (h : s.Tandem I R s') (hp : I p) (hw : R w w') (limit : Nat) :
    InTandem I R (p.stepBoundary s limit w) (p.stepBoundary s' limit w') := by
  have hserved := h.serve (h.carries p.cache p.linker.reset p.retired hp) hw
  unfold Processor.stepBoundary
  generalize Processor.serve s { p with linker := p.linker.reset } w = out at hserved ⊢
  generalize Processor.serve s' { p with linker := p.linker.reset } w' = out' at hserved ⊢
  obtain ⟨exit, p₁, w₁⟩ := out
  obtain ⟨exit', p₁', w₁'⟩ := out'
  obtain ⟨rfl, rfl, hp₁, hw₁⟩ := hserved
  cases exit' with
  | some exit => exact ⟨rfl, rfl, hp₁, hw₁⟩
  | none =>
    dsimp only at hp₁ hw₁ ⊢
    split
    case isTrue => exact ⟨rfl, rfl, hp₁, hw₁⟩
    case isFalse =>
      split
      case isTrue => exact ⟨rfl, rfl, hp₁, hw₁⟩
      case isFalse =>
        have hfound := h.findTrace hp₁ hw₁
        generalize p₁'.findTrace s w₁ = out at hfound ⊢
        generalize p₁'.findTrace s' w₁' = out' at hfound ⊢
        obtain ⟨found, p₂, w₂⟩ := out
        obtain ⟨found', p₂', w₂'⟩ := out'
        obtain ⟨rfl, rfl, hp₂, hw₂⟩ := hfound
        cases found' with
        | error fault => exact h.handFault fault _ hp₂ hw₂
        | ok slot => exact ⟨congrArg Step.goto (h.enterTrace hw₂ p₂' slot), rfl, hp₂, hw₂⟩

theorem stepRecord (h : s.Tandem I R s') (hp : I p) (hw : R w w') (limit index left generation : Nat)
    (branch : Option Nat) : InTandem I R (p.stepRecord s limit index left generation branch w)
      (p.stepRecord s' limit index left generation branch w') := by
  unfold Processor.stepRecord
  cases p.cache.pool[index]? with
  | none => exact ⟨rfl, rfl, hp, hw⟩
  | some record =>
    dsimp only
    have hstops := h.stopsAt p.cpu.rip record.instr.len hp hw
    generalize p.stopsAt s p.cpu.rip record.instr.len w = out at hstops ⊢
    generalize p.stopsAt s' p.cpu.rip record.instr.len w' = out' at hstops ⊢
    obtain ⟨stop, p₁, w₁⟩ := out
    obtain ⟨stop', p₁', w₁'⟩ := out'
    obtain ⟨rfl, rfl, hp₁, hw₁⟩ := hstops
    cases stop' with
    | true => exact ⟨rfl, rfl, hp₁, hw₁⟩
    | false =>
      dsimp only at hp₁ hw₁ ⊢
      obtain ⟨hexecuted, hhit⟩ := h.execute limit record.instr hp₁ hw₁
      generalize p₁'.execute s limit record.instr w₁ = out at hexecuted hhit ⊢
      generalize p₁'.execute s' limit record.instr w₁' = out' at hexecuted hhit ⊢
      obtain ⟨flow, hit, p₂, w₂⟩ := out
      obtain ⟨flow', hit', p₂', w₂'⟩ := out'
      obtain ⟨rfl, rfl, hp₂, hw₂⟩ := hexecuted
      obtain rfl : hit' = hit := hhit
      dsimp only at hp₂ hw₂ ⊢
      cases flow' with
      | error fault => exact h.handFault fault _ hp₂ hw₂
      | ok flow =>
        dsimp only
        rw [show (if flow = .giveWay then p₂' else { p₂' with retired := p₂'.retired + 1 }) = p₂'.counted flow from rfl]
        have hcounted : I (p₂'.counted flow) := by
          unfold Processor.counted
          split
          case isTrue => exact hp₂
          case isFalse => exact h.carries _ _ _ hp₂
        generalize p₂'.counted flow = q at hcounted ⊢
        rw [h.mustLeave hw₂]
        split
        case isTrue => exact ⟨rfl, rfl, hcounted, hw₂⟩
        case isFalse =>
          split
          case isTrue => exact ⟨rfl, rfl, hcounted, hw₂⟩
          case isFalse =>
            cases left with
            | succ left => exact ⟨rfl, rfl, hcounted, hw₂⟩
            | zero =>
              obtain ⟨hfollow, hinside⟩ := h.follow hcounted hw₂ limit (Processor.branched index branch flow)
              exact ⟨congrArg (fun out => Step.goto out.1) hfollow, congrArg Prod.snd hfollow, hinside, hw₂⟩

/-- A step does the same in related worlds. -/
theorem step (h : s.Tandem I R s') (hp : I p) (hw : R w w') (limit : Nat) (point : Point) :
    InTandem I R (p.step s limit point w) (p.step s' limit point w') := by
  cases point with
  | boundary => exact h.stepBoundary hp hw limit
  | record index left generation branch => exact h.stepRecord hp hw limit index left generation branch

/-! ## Runs -/

theorem runSteps (h : s.Tandem I R s') (hp : I p) (hw : R w w') (limit n : Nat) (point : Point) :
    InTandem I R (Processor.runSteps s limit n point p w) (Processor.runSteps s' limit n point p w') := by
  induction n generalizing point p w w' with
  | zero => exact ⟨rfl, rfl, hp, hw⟩
  | succ n ih =>
    have hstep := h.step hp hw limit point
    unfold Processor.runSteps
    generalize p.step s limit point w = out at hstep ⊢
    generalize p.step s' limit point w' = out' at hstep ⊢
    obtain ⟨next, p₁, w₁⟩ := out
    obtain ⟨next', p₁', w₁'⟩ := out'
    obtain ⟨rfl, rfl, hp₁, hw₁⟩ := hstep
    cases next' with
    | leave exit => exact ⟨rfl, rfl, hp₁, hw₁⟩
    | goto next => exact ih hp₁ hw₁ next

/-- And so does a whole run. -/
theorem run (h : s.Tandem I R s') (hp : I p) (hw : R w w') (budget : Nat) :
    InTandem I R (p.run s budget w) (p.run s' budget w') := by
  obtain ⟨houtcome, hprocessor, hinside, hworlds⟩ := h.runSteps hp hw (p.limitFor budget) (2 * budget + 1) .boundary
  rw [Processor.run_eq, Processor.run_eq]
  exact ⟨congrArg (·.getD .quantumExhausted) houtcome, hprocessor, hinside, hworlds⟩

end Socket.Tandem

end TraceCore
