/-
What a quantum is worth. No turn of a round retires more than its quantum and what a repeated instruction may run past
it, whatever the processors went through before.
-/
import TraceCore.Proofs.Machine.Quiescence
import TraceCore.Proofs.Processor.Quantum
import TraceCore.Proofs.Processor.Watched

namespace TraceCore

variable {ω : Type}

namespace Machine

variable {W : Wiring ω} {quantum index : Nat} {cpus : List Processor} {m : Machine ω} {w : ω}

/-! ## Processors of a machine -/

theorem used_processors {config : CoreConfig} {id : Nat} {states : List Cpu}
    (h : processors config id states = .ok cpus) : ∀ p ∈ cpus, p.Used ω := by
  induction states generalizing id cpus with
  | nil =>
    cases h
    exact fun p hp => absurd hp List.not_mem_nil
  | cons cpu rest ih =>
    unfold processors at h
    cases hp : Processor.new id config cpu with
    | error e => rw [hp] at h; cases h
    | ok p =>
      cases hrest : processors config (id + 1) rest with
      | error e => rw [hp, hrest] at h; cases h
      | ok cpus' =>
        rw [hp, hrest] at h
        cases h
        intro q hq
        rcases List.mem_cons.1 hq with rfl | hq
        · exact .made hp
        · exact ih hrest q hq

theorem used_runTurns (h : ∀ p ∈ cpus, p.Used ω) : ∀ p ∈ (runTurns W quantum index cpus w).2.1, p.Used ω := by
  induction cpus generalizing index w with
  | nil => exact h
  | cons p rest ih =>
    rw [runTurns_cons]
    intro q hq
    rcases List.mem_cons.1 hq with rfl | hq
    · exact (h p List.mem_cons_self).run _ _ _
    · exact ih (fun q hq => h q (List.mem_cons_of_mem _ hq)) q hq

/-- A new machine has new processors. -/
theorem used_new {schedule : Schedule} {states : List Cpu} (h : new schedule W w states = .ok m) :
    ∀ p ∈ m.cpus, p.Used ω := by
  unfold new at h
  cases hvalid : schedule.validate with
  | error e => rw [hvalid] at h; cases h
  | ok _ =>
    cases hcpus : processors (schedule.coreConfig states.length) 0 states with
    | error e =>
      rw [hvalid, hcpus] at h
      cases states <;> cases h
    | ok cpus =>
      rw [hvalid, hcpus] at h
      cases states with
      | nil => cases h
      | cons cpu rest =>
        cases h
        exact used_processors hcpus

theorem used_round (h : ∀ p ∈ m.cpus, p.Used ω) : ∀ p ∈ m.round.2.cpus, p.Used ω := by
  rw [cpus_round]
  exact used_runTurns h

/-! ## Turns -/

/-- Each turn retires less than an interval of its processor beyond the quantum. -/
theorem executed_runTurns (h : ∀ p ∈ cpus, p.Used ω) :
    List.Forall₂ (fun p t => t.executed ≤ quantum + p.config.repeatInterval - 1) cpus
      (runTurns W quantum index cpus w).1 := by
  induction cpus generalizing index w with
  | nil => exact .nil
  | cons p rest ih =>
    have hfit := (h p List.mem_cons_self).fit
    have hinterval := (CoreConfig.bounds_of_validate hfit.config).interval
    obtain ⟨-, hle, hnone, hsome, -⟩ := Processor.retired_run hfit (W.socket index) quantum w
    rw [runTurns_cons]
    generalize p.run (W.socket index) quantum w = out at hle hnone hsome ⊢
    obtain ⟨exit, p₁, w₁⟩ := out
    refine .cons ?_ (ih fun q hq => h q (List.mem_cons_of_mem _ hq))
    dsimp only at hle hnone hsome ⊢
    rcases Nat.eq_zero_or_pos quantum with hzero | hpos
    · have := hnone hzero
      omega
    · have := hsome hpos
      omega

/-- What a budget is worth to a run, and a quantum to each turn of a round. -/
theorem retired_bounds_of_used {p : Processor} (hp : p.Used ω) (hm : ∀ q ∈ m.cpus, q.Used ω) (s : Socket ω) (budget : Nat)
    (w : ω) :
    (p.retired ≤ (p.run s budget w).2.1.retired ∧
      (budget = 0 → (p.run s budget w).2.1.retired = p.retired) ∧
      (0 < budget → (p.run s budget w).2.1.retired ≤ p.retired + budget + p.config.repeatInterval - 1) ∧
      ((p.run s budget w).1 = .quantumExhausted →
        min (p.retired + budget) (UInt64.size - 1) ≤ (p.run s budget w).2.1.retired)) ∧
    List.Forall₂ (fun q t => t.executed ≤ m.quantum + q.config.repeatInterval - 1) m.cpus m.round.1.turns := by
  refine ⟨(Processor.retired_run hp.fit s budget w).2, ?_⟩
  rw [turns_round]
  exact executed_runTurns hm

/-- A processor before `rep stosb`, with a hundred bytes to store. -/
def hundred : Processor :=
  .small (((Cpu.new .protectedMode).write .rcx .w64 100).write .rdi .w64 0x100)

def twoHundred : Machine (Board Unit Unit) :=
  { schedule := { sharedQuantum := 8 }, wiring := Board.wiring .none .toCaller, world := Processor.fillBoard
    cpus := [hundred, hundred], timers := {}, ticks := 0, rounds := 0 }

/-- Given eight instructions, it retires the 31 of an interval, where 38 are the most that it could have. -/
theorem retired_bounds_twoHundred :
    (hundred.run (Board.socket .none .toCaller 0) 8 Processor.fillBoard).1 = .quantumExhausted ∧
      8 ≤ (hundred.run (Board.socket .none .toCaller 0) 8 Processor.fillBoard).2.1.retired ∧
      (hundred.run (Board.socket .none .toCaller 0) 8 Processor.fillBoard).2.1.retired ≤ 38 ∧
      twoHundred.round.1.turns.map (·.executed) = [31, 31] ∧
      List.Forall₂ (fun q t => t.executed ≤ 8 + q.config.repeatInterval - 1) twoHundred.cpus
        twoHundred.round.1.turns := by
  have hused : ∀ q ∈ twoHundred.cpus, q.Used (Board Unit Unit) := by
    intro q hq
    rcases List.mem_cons.1 hq with rfl | hq
    · exact Processor.used_small ..
    · rw [List.mem_singleton.1 hq]
      exact Processor.used_small ..
  obtain ⟨⟨-, -, hle, hge⟩, hturns⟩ := retired_bounds_of_used (p := hundred) (Processor.used_small ..) hused
    (Board.socket .none .toCaller 0) 8 Processor.fillBoard
  have hspent : (hundred.run (Board.socket .none .toCaller 0) 8 Processor.fillBoard).1 = .quantumExhausted := by
    decide +kernel
  exact ⟨hspent, hge hspent, hle (by decide), by decide +kernel, hturns⟩

end Machine

end TraceCore
