/-
The loops of dispatch, pass by pass. The outer loop goes from boundary to boundary, the inner one from trace to trace.
Every pass of either comes to its end, and one that does not leave has retired something: a trace has records, a fault
counts, and an instruction gives way only once it ran. A run is therefore over after one pass more than it has budget.
That is so for any bus, decoder, guard and delivery, and whatever is pending.
-/
import TraceCore.Proofs.Processor.Watched

namespace TraceCore

/-- The last record of a trace comes next. -/
def Point.Last : Point → Prop
  | .boundary => False
  | .record _ left _ _ => left = 0

/-- A pass of the outer loop is over once the loop is back at a boundary. -/
def Point.Back (_ next : Point) : Prop := next = .boundary

/-- A pass of the inner loop is over behind the last record of the trace, or once the loop is back at a boundary. -/
def Point.Behind (point next : Point) : Prop := point.Last ∨ next = .boundary

namespace Processor

variable {ω : Type} {s : Socket ω} {limit budget n : Nat} {p p' p₀ : Processor} {w w' w₀ : ω} {point : Point}
    {ends : Point → Point → Prop} {out : Step × Processor × ω}

/-- What a pass from a point on comes to: the loop leaves, or the pass is over. -/
inductive Pass (s : Socket ω) (limit : Nat) (ends : Point → Point → Prop) :
    Point → Processor → ω → Step × Processor × ω → Prop
  | left {point : Point} {p p' : Processor} {w w' : ω} {exit : Exit}
      (steps : p.step s limit point w = (.leave exit, p', w')) : Pass s limit ends point p w (.leave exit, p', w')
  | ended {point next : Point} {p p' : Processor} {w w' : ω}
      (steps : p.step s limit point w = (.goto next, p', w')) (done : ends point next) :
      Pass s limit ends point p w (.goto next, p', w')
  | on {point next : Point} {p p' : Processor} {w w' : ω} {out : Step × Processor × ω}
      (steps : p.step s limit point w = (.goto next, p', w')) (more : ¬ends point next)
      (rest : Pass s limit ends next p' w' out) : Pass s limit ends point p w out

/-- The outer loop leaves in its `n`-th pass. -/
inductive Passes (s : Socket ω) (limit : Nat) : Nat → Processor → ω → Exit × Processor × ω → Prop
  | last {p p' : Processor} {w w' : ω} {exit : Exit}
      (pass : Pass s limit Point.Back .boundary p w (.leave exit, p', w')) : Passes s limit 1 p w (exit, p', w')
  | more {n : Nat} {p p' : Processor} {w w' : ω} {out : Exit × Processor × ω}
      (pass : Pass s limit Point.Back .boundary p w (.goto .boundary, p', w')) (rest : Passes s limit n p' w' out) :
      Passes s limit (n + 1) p w out

/-! ## One pass -/

/-- A pass that does not leave has come nearer to the end. -/
theorem Pass.nearer (h : Pass s limit ends point p w out) (hfit : p.Fit) (hin : Within limit p point) :
    Nearer limit (potential limit p point) out := by
  induction h with
  | @left point p p' w w' exit steps =>
    rw [← steps]
    exact nearer_step hfit hin w
  | @ended point next p p' w w' steps done =>
    rw [← steps]
    exact nearer_step hfit hin w
  | @on point next p p' w w' out steps more rest ih =>
    have hstep := nearer_step (s := s) hfit hin w
    rw [steps] at hstep
    obtain ⟨hwithin, hlt⟩ := hstep.onward next rfl
    obtain ⟨hfit', honward⟩ := ih hstep.fit hwithin
    exact ⟨hfit', fun next' hnext => ⟨(honward next' hnext).1, Nat.lt_trans (honward next' hnext).2 hlt⟩⟩

/-- Every pass comes to its end. -/
theorem exists_pass (s : Socket ω) (ends : Point → Point → Prop) (hfit : p.Fit) (hin : Within limit p point) (w : ω) :
    ∃ out, Pass s limit ends point p w out := by
  -- by strong induction on the potential, which each step lowers
  induction hn : potential limit p point using Nat.strongRecOn generalizing point p w with
  | ind n ih =>
    have hstep := nearer_step (s := s) hfit hin w
    rcases hout : p.step s limit point w with ⟨next | exit, p₁, w₁⟩
    · rw [hout] at hstep
      obtain ⟨hwithin, hlt⟩ := hstep.onward next rfl
      by_cases hdone : ends point next
      · exact ⟨_, .ended hout hdone⟩
      · obtain ⟨out, hpass⟩ := ih _ (by rw [← hn]; exact hlt) hstep.fit hwithin w₁ rfl
        exact ⟨out, .on hout hdone hpass⟩
    · exact ⟨_, .left hout⟩

/-- A pass of the outer loop ends at a boundary. -/
theorem Pass.back {next : Point} (h : Pass s limit Point.Back point p w (.goto next, p', w')) : next = .boundary := by
  generalize hout : (Step.goto next, p', w') = out at h
  induction h with
  | left => cases hout
  | ended steps done => cases hout; exact done
  | on steps more rest ih => exact ih hout

/-- What a pass comes to, the run comes to. -/
theorem Pass.visits (h : Pass s limit ends point p w out) (hv : Visits s limit p₀ w₀ point p w) :
    (∀ next, out.1 = .goto next → Visits s limit p₀ w₀ next out.2.1 out.2.2) ∧
    ∀ exit, out.1 = .leave exit → ∃ point' q v, Visits s limit p₀ w₀ point' q v ∧ q.step s limit point' v = out := by
  induction h with
  | left steps => exact ⟨nofun, fun _ _ => ⟨_, _, _, hv, steps⟩⟩
  | ended steps done =>
    refine ⟨?_, nofun⟩
    rintro _ ⟨rfl⟩
    exact .goto hv steps
  | on steps more rest ih => exact ih (.goto hv steps)

/-- Where the potential fell between two boundaries, or from a record on, something was retired. -/
theorem retired_lt_of_potential_lt {next : Point} (hlt : potential limit p' next < potential limit p point)
    (h : point = .boundary → next = .boundary) : p.retired < p'.retired := by
  unfold potential at hlt
  cases point with
  | boundary =>
    cases h rfl
    dsimp only at hlt
    omega
  | record =>
    cases next <;> dsimp only at hlt <;> omega

/-! ## All passes -/

/-- From a boundary of a run on, it is over after no more passes than it has budget left, and one. -/
theorem passes_of_visits (hfit : p₀.Fit) (hv : Visits s (p₀.limitFor budget) p₀ w₀ .boundary p w) :
    ∃ n ≤ p₀.limitFor budget - p.retired + 1, Passes s (p₀.limitFor budget) n p w (p₀.run s budget w₀) := by
  -- by strong induction on the budget that is left
  induction hleft : p₀.limitFor budget - p.retired using Nat.strongRecOn generalizing p w with
  | ind k ih =>
    obtain ⟨hfit', hin, -⟩ := hv.steps hfit
    obtain ⟨⟨next | exit, p₁, w₁⟩, hpass⟩ := exists_pass s Point.Back hfit' hin w
    · obtain rfl := hpass.back
      have hlt := ((hpass.nearer hfit' hin).onward .boundary rfl).2
      obtain ⟨n, hn, hrest⟩ := ih (p₀.limitFor budget - p₁.retired) (by unfold potential at hlt; dsimp only at hlt; omega)
        ((hpass.visits hv).1 _ rfl) rfl
      refine ⟨n + 1, ?_, .more hpass hrest⟩
      unfold potential at hlt
      dsimp only at hlt
      omega
    · obtain ⟨point', q, v, hvisits, hleave⟩ := (hpass.visits hv).2 exit rfl
      rw [run_of_visits hfit hvisits hleave]
      exact ⟨1, Nat.le_add_left 1 k, .last hpass⟩

/-- Every pass from here on comes to its end, and retires something unless the loop leaves. -/
def Advances (s : Socket ω) (limit : Nat) (ends : Point → Point → Prop) (point : Point) (p : Processor) (w : ω) : Prop :=
  (∃ out, Pass s limit ends point p w out) ∧
    ∀ out next, Pass s limit ends point p w out → out.1 = .goto next → p.retired < out.2.1.retired

/-- A pass that starts at a record advances, and so does one between two boundaries. -/
theorem advances (hfit : p.Fit) (hin : Within limit p point) (w : ω)
    (h : ∀ next p' w', point = .boundary → Pass s limit ends point p w (.goto next, p', w') → next = .boundary) :
    Advances s limit ends point p w := by
  refine ⟨exists_pass s ends hfit hin w, ?_⟩
  rintro ⟨step, p', w'⟩ next hpass hnext
  obtain rfl : step = .goto next := hnext
  exact retired_lt_of_potential_lt ((hpass.nearer hfit hin).onward next rfl).2 fun hb => h next p' w' hb hpass

/-- A run is over after one pass more than its budget, for each pass of the outer loop advances, and each pass of the
inner one. That is so because a cached trace has records, and an instruction that gives way has retired some. -/
theorem passes_of_used (h : p₀.Used ω) (s : Socket ω) (budget : Nat) (w₀ : ω) :
    (∃ n ≤ budget + 1, Passes s (p₀.limitFor budget) n p₀ w₀ (p₀.run s budget w₀)) ∧
    (∀ p w, Visits s (p₀.limitFor budget) p₀ w₀ .boundary p w →
      Advances s (p₀.limitFor budget) Point.Back .boundary p w) ∧
    (∀ index left generation branch p w, Visits s (p₀.limitFor budget) p₀ w₀ (.record index left generation branch) p w →
      Advances s (p₀.limitFor budget) Point.Behind (.record index left generation branch) p w) ∧
    ∀ point p w, Visits s (p₀.limitFor budget) p₀ w₀ point p w →
      (∀ slot t, p.cache.trace? slot = some t → 0 < t.len) ∧
      ∀ i, (p.execute s (p₀.limitFor budget) i w).1 = .ok .giveWay →
        p.retired < (p.execute s (p₀.limitFor budget) i w).2.2.1.retired := by
  have hfit := h.fit
  refine ⟨?_, fun p w hv => ?_, fun index left generation branch p w hv => ?_, fun point p w hv => ⟨?_, ?_⟩⟩
  · have hstart : Visits s (p₀.limitFor budget) p₀ w₀ .boundary p₀ w₀ := .start
    have hlimit : p₀.limitFor budget ≤ p₀.retired + budget := Nat.min_le_left ..
    obtain ⟨n, hn, hpasses⟩ := passes_of_visits hfit hstart
    exact ⟨n, by omega, hpasses⟩
  · obtain ⟨hfit', hin, -⟩ := hv.steps hfit
    exact advances hfit' hin w fun next p' w' _ hpass => hpass.back
  · obtain ⟨hfit', hin, -⟩ := hv.steps hfit
    exact advances hfit' hin w fun _ _ _ hb => nomatch hb
  · exact fun slot t ht => (hv.steps hfit).1.len_pos ht
  · exact fun i hgave => (executed_execute s (p₀.limitFor budget) i p w).progress hgave

/-! ## Faults without end -/

/-- Delivery that has every fault tried again. -/
def Delivery.retrying : Delivery (Board Unit Unit) where
  events _ cpu w := (.resume, cpu, w)
  fault _ _ cpu w := (.retry, cpu, w)

/-- A page of zeros, and an event without a meaning that nobody clears. -/
def noisyBoard : Board Unit Unit := ⟨{ ram := .zeroPage }, (), (), #[⟨0x8⟩]⟩

/-- A processor whose instruction pointer is behind the end of memory. -/
def lost : Processor := small { Cpu.new .protectedMode with rip := 0x2000 }

/-- Its fetches fault for ever. Three of them use up a budget of three, in four passes at most. -/
theorem passes_lost :
    (lost.run (Board.socket .none Delivery.retrying 0) 3 noisyBoard).1 = .quantumExhausted ∧
      (lost.run (Board.socket .none Delivery.retrying 0) 3 noisyBoard).2.1.retired = 3 ∧
      ∃ n ≤ 4, Passes (Board.socket .none Delivery.retrying 0) (lost.limitFor 3) n lost noisyBoard
        (lost.run (Board.socket .none Delivery.retrying 0) 3 noisyBoard) :=
  ⟨by decide +kernel, by decide +kernel,
    (passes_of_used (used_small (Board Unit Unit) _) (Board.socket .none Delivery.retrying 0) 3 noisyBoard).1⟩

end Processor

end TraceCore
