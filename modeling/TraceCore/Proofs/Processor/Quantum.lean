/-
How many instructions a run retires. The loop comes to a record only while the budget is not used up, so that a run
ends less than an interval of a repeated instruction above its budget; and when it reports that the budget is used up,
it is. That is so for any bus, decoder, guard and delivery.
-/
import TraceCore.Proofs.Exec.Interval
import TraceCore.Proofs.Processor.Progress

namespace TraceCore.Processor

variable {ω : Type} {s : Socket ω} {limit : Nat} {p p' q : Processor} {w w' : ω} {point : Point}

/-! ## One step -/

/-- How far an instruction takes the count, with what is still to be counted of it. -/
theorem retired_execute_lt (s : Socket ω) (i : Instr) (h : p.retired < limit) (w : ω) :
    (p.execute s limit i w).2.2.1.retired + Exec.uncounted (p.execute s limit i w).1 <
      limit + max p.config.repeatInterval 1 :=
  Exec.retired_instr_lt s { rip := p.cpu.rip, limit, interval := p.config.repeatInterval } i
    (r := { cpu := p.cpu.setRip (p.cpu.rip + UInt64.ofNat i.len), world := w, retired := p.retired }) h

theorem retired_counted (p : Processor) (flow : Flow) :
    (p.counted flow).retired = p.retired + Exec.uncounted (.ok flow) := by
  unfold counted
  split
  case isTrue hgave => rw [hgave]; rfl
  case isFalse hgave => rw [Exec.uncounted_of_ne fun h => hgave (Except.ok.inj h)]

/-- How far the loop takes the count: not at all, or from below the limit to less than an interval above it. -/
structure Paced (limit : Nat) (p q : Processor) : Prop where
  config : q.config = p.config
  retired : q.retired = p.retired ∨
    p.retired < limit ∧ p.retired ≤ q.retired ∧ q.retired < limit + max p.config.repeatInterval 1

theorem Paced.trans (h : Paced limit p p') (h' : Paced limit p' q) : Paced limit p q := by
  refine ⟨h'.config.trans h.config, ?_⟩
  have hfirst := h.retired
  have hlast := h'.retired
  rw [h.config] at hlast
  omega

/-- What changes no count. -/
theorem Paced.of_eq (hconfig : q.config = p.config) (hretired : q.retired = p.retired) : Paced limit p q :=
  ⟨hconfig, Or.inl hretired⟩

theorem paced_stepBoundary (s : Socket ω) (limit : Nat) (p : Processor) (w : ω) :
    Paced limit p (p.stepBoundary s limit w).2.1 := by
  obtain ⟨cpu, window, cache, retired, honly, hretired⟩ := stepBoundary_only s limit p w
  rw [honly]
  refine ⟨rfl, ?_⟩
  dsimp only
  omega

/-- A step that executes an instruction counts what that counted itself, and what it left to be counted. -/
theorem ran_stepRecord {index : Nat} {record : Record} {p₁ : Processor} {w w₁ : ω}
    (hfound : p.cache.pool[index]? = some record)
    (hpasses : p.stopsAt s p.cpu.rip record.instr.len w = (false, p₁, w₁)) (limit left generation : Nat)
    (branch : Option Nat) :
    (p.stepRecord s limit index left generation branch w).2.1.config = p.config ∧
      (p.stepRecord s limit index left generation branch w).2.1.retired =
        (p₁.execute s limit record.instr w₁).2.2.1.retired + Exec.uncounted (p₁.execute s limit record.instr w₁).1 := by
  unfold stepRecord
  rw [hfound]
  dsimp only
  rw [hpasses]
  dsimp only
  rcases hexecuted : p₁.execute s limit record.instr w₁ with ⟨fault | flow, hit, p₂, w₂⟩
  · obtain ⟨window, cpu, honly⟩ := handFault_only s fault p.cpu.rip p₂ w₂
    obtain ⟨cpu₂, retired₂, rfl, -⟩ := ran_only hpasses hexecuted
    dsimp only
    rw [honly]
    exact ⟨rfl, rfl⟩
  · obtain ⟨retired, honly⟩ := counted_only p₂ flow
    have hcounted := retired_counted p₂ flow
    obtain ⟨cpu₂, retired₂, rfl, -⟩ := ran_only hpasses hexecuted
    have hconfig : (counted { p with cpu := cpu₂, retired := retired₂, resume := false } flow).config = p.config := by
      rw [honly]
    dsimp only
    rw [show (if flow = .giveWay then { p with cpu := cpu₂, retired := retired₂, resume := false }
      else { p with cpu := cpu₂, retired := retired₂ + 1, resume := false }) =
        counted { p with cpu := cpu₂, retired := retired₂, resume := false } flow from rfl]
    split
    case isTrue => exact ⟨hconfig, hcounted⟩
    case isFalse =>
      split
      case isTrue => exact ⟨hconfig, hcounted⟩
      case isFalse =>
        cases left with
        | succ left => exact ⟨hconfig, hcounted⟩
        | zero =>
          obtain ⟨linker, cache, hfollow⟩ := follow_only s limit (branched index branch flow)
            (counted { p with cpu := cpu₂, retired := retired₂, resume := false } flow) w₂
          exact ⟨(congrArg Processor.config hfollow).trans hconfig, (congrArg Processor.retired hfollow).trans hcounted⟩

theorem paced_stepRecord {index left generation : Nat} {branch : Option Nat} (h : p.retired < limit) (w : ω) :
    Paced limit p (p.stepRecord s limit index left generation branch w).2.1 := by
  rcases hfound : p.cache.pool[index]? with _ | record
  · unfold stepRecord
    rw [hfound]
    exact .of_eq rfl rfl
  · obtain ⟨resume, honly⟩ := stopsAt_only s p.cpu.rip record.instr.len p w
    rcases hstops : p.stopsAt s p.cpu.rip record.instr.len w with ⟨_ | _, p₁, w₁⟩
    · obtain ⟨hconfig, hretired⟩ := ran_stepRecord hfound hstops limit left generation branch
      rw [hstops] at honly
      obtain rfl : p₁ = { p with resume } := honly
      have hle := (executed_execute s limit record.instr { p with resume } w₁).retired
      have hlt := retired_execute_lt s record.instr (p := { p with resume }) h w₁
      dsimp only at hle hlt
      exact ⟨hconfig, Or.inr ⟨h, by omega, by omega⟩⟩
    · rw [hstops] at honly
      obtain rfl : p₁ = { p with resume } := honly
      unfold stepRecord
      rw [hfound]
      dsimp only
      rw [hstops]
      exact .of_eq rfl rfl

theorem paced_step (hin : Within limit p point) (w : ω) : Paced limit p (p.step s limit point w).2.1 := by
  cases point with
  | boundary => exact paced_stepBoundary s limit p w
  | record index left generation branch => exact paced_stepRecord hin.2 w

/-- The loop reports that the budget is used up at a boundary, where it is. -/
theorem limit_le_of_step (h : p.step s limit point w = (.leave .quantumExhausted, p', w')) : limit ≤ p'.retired := by
  cases point with
  | boundary =>
    have hbounded := bounded_stepBoundary s limit p w
    rw [show p.stepBoundary s limit w = _ from h] at hbounded
    generalize hout : (Step.leave Exit.quantumExhausted, p', w') = out at hbounded
    cases hbounded with
    | left exit p₁ w₁ served =>
      cases hout
      have hserved := served_serve s { p with linker := p.linker.reset } w
      rw [served] at hserved
      cases hserved
    | halted => cases hout
    | spent p₁ w₁ served awake budget =>
      cases hout
      exact budget
    | searched p₁ w₁ =>
      unfold searched at hout
      split at hout
      case h_1 => cases fatal_of_handFault (congrArg Prod.fst hout.symm)
      case h_2 => cases hout
  | record index left generation branch =>
    obtain hnone | ⟨fault, hnone⟩ := exit_of_stepRecord (congrArg Prod.fst h) <;> cases hnone

/-! ## Runs -/

theorem paced_of_visits {p₀ : Processor} {w₀ : ω} (h : p₀.Fit) (hv : Visits s limit p₀ w₀ point p w) :
    Paced limit p₀ p := by
  induction hv with
  | start => exact .of_eq rfl rfl
  | @goto point next p p' w w' before steps ih =>
    have hstep := paced_step (s := s) (before.steps h).2.1 w
    rw [steps] at hstep
    exact ih.trans hstep

/-- The count never falls, stays where there is no budget, and ends less than an interval above the budget. A run that
reports that its budget is used up has used it up; of a budget that the count has no room for, what there is room for. -/
theorem retired_run (h : p.Fit) (s : Socket ω) (budget : Nat) (w : ω) :
    (p.run s budget w).2.1.config = p.config ∧
    p.retired ≤ (p.run s budget w).2.1.retired ∧
    (budget = 0 → (p.run s budget w).2.1.retired = p.retired) ∧
    (0 < budget → (p.run s budget w).2.1.retired ≤ p.retired + budget + p.config.repeatInterval - 1) ∧
    ((p.run s budget w).1 = .quantumExhausted →
      min (p.retired + budget) (UInt64.size - 1) ≤ (p.run s budget w).2.1.retired) := by
  obtain ⟨point, q, v, hvisits, hleave⟩ := leaves_of_run h s budget w
  have hpaced := (paced_of_visits h hvisits).trans (paced_step (s := s) (hvisits.steps h).2.1 v)
  rw [hleave] at hpaced
  have hinterval := (CoreConfig.bounds_of_validate h.config).interval
  have hlimit : p.limitFor budget ≤ p.retired + budget := Nat.min_le_left ..
  obtain ⟨hconfig, hretired⟩ := hpaced
  dsimp only at hconfig hretired
  rw [Nat.max_eq_left hinterval] at hretired
  refine ⟨hconfig, by omega, by omega, by omega, fun hspent => ?_⟩
  rw [hspent] at hleave
  exact limit_le_of_step hleave

end TraceCore.Processor
