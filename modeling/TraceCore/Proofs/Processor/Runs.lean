/-
From steps to runs: at every moment of a run the processor is sound and ready, and at its end it is
sound, if no stamp came round on the way. While fewer than 2^32 stores hit cached code, none does.
-/
import TraceCore.Proofs.Processor.Sound

namespace TraceCore

/-! ## Stamps that have not come round -/

namespace StampTable

/-- Each of the missing stores was counted. -/
theorem lag_le_generation (t : StampTable) : t.lag ≤ t.generation := by
  have hsum : ∀ l : List PageState, 0 ≤ (l.map fun s => (s.stamp.toNat : Int)).sum := by
    intro l
    induction l with
    | nil => simp
    | cons s l ih =>
      rw [List.map_cons, List.sum_cons]
      omega
  have := hsum t.pages.toList
  unfold lag
  omega

theorem lag_ofPages (n : Nat) : (ofPages n).lag = 0 := by
  simp [lag, ofPages]

end StampTable

namespace Board

variable {γ δ : Type} {w w' : Board γ δ}

/-- Stamps came round some number of times since the table was new. -/
def Counted (w : Board γ δ) : Prop := ∃ k : Nat, w.mem.ram.stamps.lag = 2 ^ 32 * k

theorem Counted.passes (h : w.Counted) (hw : w.Passes w') : w'.Counted := by
  obtain ⟨k, hk⟩ := h
  obtain ⟨k', hk', -⟩ := hw.later
  exact ⟨k + k', by omega⟩

/-- With fewer than 2^32 stores into cached code, no stamp came round. -/
theorem Counted.lag_eq (h : w.Counted) (hgen : w.mem.ram.stamps.generation < 2 ^ 32) : w.mem.ram.stamps.lag = 0 := by
  obtain ⟨k, hk⟩ := h
  have := w.mem.ram.stamps.lag_le_generation
  omega

/-- So it is when the table was new at the start. -/
theorem Passes.lag_eq (h : w.Passes w') (hnew : ∃ n, w.mem.ram.stamps = .ofPages n)
    (hfew : w'.mem.ram.stamps.generation < 2 ^ 32) : w'.mem.ram.stamps.lag = w.mem.ram.stamps.lag := by
  obtain ⟨n, hstamps⟩ := hnew
  have hzero : w.mem.ram.stamps.lag = 0 := by rw [hstamps]; exact StampTable.lag_ofPages n
  have hcounted : w.Counted := ⟨0, hzero⟩
  rw [hzero, (hcounted.passes h).lag_eq hfew]

end Board

namespace Processor

variable {γ δ : Type} {R : Regime γ δ} {g : Guard (Board γ δ)} {d : Delivery (Board γ δ)} {i : Nat} {p p' : Processor}
    {w w' : Board γ δ}

/-! ## Moments of a run -/

/-- The dispatch loop comes to `point`, with processor and world as they are then. -/
inductive Visits {ω : Type} (s : Socket ω) (limit : Nat) (p₀ : Processor) (w₀ : ω) : Point → Processor → ω → Prop
  | start : Visits s limit p₀ w₀ .boundary p₀ w₀
  | goto {point next : Point} {p p' : Processor} {w w' : ω} (before : Visits s limit p₀ w₀ point p w)
      (steps : p.step s limit point w = (.goto next, p', w')) : Visits s limit p₀ w₀ next p' w'

theorem course_of_visits (hg : g.Quiet) (hd : d.Tame R) {limit : Nat} {point : Point}
    (h : Visits (Board.socket g d i) limit p w point p' w') : R.course w w' := by
  induction h with
  | start => exact R.isCourse.quiet rfl
  | @goto point next p₁ p₂ w₁ w₂ _ steps ih =>
    have hstep := course_step (i := i) hg hd limit point p₁ w₁
    rw [steps] at hstep
    exact R.isCourse.trans ih hstep

theorem sound_of_visits (hg : g.Quiet) (hd : d.Tame R) (h : p.Sound R w) {limit : Nat} {point : Point}
    (hv : Visits (Board.socket g d i) limit p w point p' w') (hlag : w'.mem.ram.stamps.lag = w.mem.ram.stamps.lag) :
    p.cpu.SameContext p'.cpu ∧ p'.Sound R w' ∧ p'.Ready w' point := by
  induction hv with
  | start => exact ⟨.refl _, h, trivial⟩
  | @goto point next p₁ p₂ w₁ w₂ before steps ih =>
    have hstep := course_step (i := i) hg hd limit point p₁ w₁
    rw [steps] at hstep
    have hle := R.lag_le (course_of_visits hg hd before)
    have hle' := R.lag_le hstep
    dsimp only at hle'
    obtain ⟨hcontext, hsound, hready⟩ := ih (by omega)
    have hs := stepped_step (i := i) hg hd hsound limit hready
    rw [steps] at hs
    obtain ⟨hcontext', hsound', hready'⟩ := hs (by dsimp only; omega)
    exact ⟨hcontext.trans hcontext', hsound', hready' next rfl⟩

/-- No stamp came round in a step of a run where none did. -/
theorem lag_of_runSteps {g' : Guard (Board γ δ)} (hg : g.Quiet) (hg' : g'.Quiet) (hd : d.Tame R) {limit n : Nat}
    {point next : Point} (hstep : p.step (Board.socket g d i) limit point w = (.goto next, p', w'))
    (hlag : (runSteps (Board.socket g' d i) limit n next p' w').2.2.mem.ram.stamps.lag = w.mem.ram.stamps.lag) :
    w'.mem.ram.stamps.lag = w.mem.ram.stamps.lag := by
  have hfirst := course_step (i := i) hg hd limit point p w
  rw [hstep] at hfirst
  have hrest := course_runSteps (i := i) R.isCourse hg' hd.keeps limit n next p' w'
  have hle := R.lag_le hfirst
  have hle' := R.lag_le hrest
  dsimp only at hle
  omega

theorem sound_runSteps (hg : g.Quiet) (hd : d.Tame R) (limit n : Nat) {point : Point} (h : p.Sound R w)
    (hready : p.Ready w point)
    (hlag : (runSteps (Board.socket g d i) limit n point p w).2.2.mem.ram.stamps.lag = w.mem.ram.stamps.lag) :
    p.cpu.SameContext (runSteps (Board.socket g d i) limit n point p w).2.1.cpu ∧
      (runSteps (Board.socket g d i) limit n point p w).2.1.Sound R
        (runSteps (Board.socket g d i) limit n point p w).2.2 := by
  induction n generalizing point p w with
  | zero => exact ⟨.refl _, h⟩
  | succ n ih =>
    have hstep := stepped_step (i := i) hg hd h limit hready
    unfold runSteps at hlag ⊢
    generalize hout : p.step (Board.socket g d i) limit point w = out at hlag hstep ⊢
    obtain ⟨next, p₁, w₁⟩ := out
    cases next with
    | leave exit =>
      obtain ⟨hcontext, hsound, -⟩ := hstep hlag
      exact ⟨hcontext, hsound⟩
    | goto point' =>
      have hlag₁ := lag_of_runSteps hg hg hd hout hlag
      obtain ⟨hcontext, hsound, hready'⟩ := hstep hlag₁
      obtain ⟨hcontext', hsound'⟩ := ih hsound (hready' point' rfl) (hlag.trans hlag₁.symm)
      exact ⟨hcontext.trans hcontext', hsound'⟩

theorem sound_run (hg : g.Quiet) (hd : d.Tame R) (budget : Nat) (h : p.Sound R w)
    (hlag : (p.run (Board.socket g d i) budget w).2.2.mem.ram.stamps.lag = w.mem.ram.stamps.lag) :
    p.cpu.SameContext (p.run (Board.socket g d i) budget w).2.1.cpu ∧
      (p.run (Board.socket g d i) budget w).2.1.Sound R (p.run (Board.socket g d i) budget w).2.2 := by
  rw [run_eq] at hlag ⊢
  exact sound_runSteps hg hd (p.limitFor budget) (2 * budget + 1) h (show p.Ready w .boundary from trivial) hlag

/-! ## Between runs -/

theorem new_eq_ok {id : Nat} {config : CoreConfig} {cpu : Cpu} (h : Processor.new id config cpu = .ok p) :
    p.cpu = cpu ∧ p.retired = 0 ∧ p.decode = decodeInstr := by
  unfold Processor.new withDecoder at h
  cases hv : config.validate with
  | error e => rw [hv] at h; cases h
  | ok _ =>
    rw [hv] at h
    cases h
    exact ⟨rfl, rfl, rfl⟩

/-- A new processor has nothing to be wrong about. -/
theorem sound_new {id : Nat} {config : CoreConfig} {cpu : Cpu} (h : Processor.new id config cpu = .ok p)
    (hcpu : R.cpu cpu)
    (hmem : R.mem w.mem) (ht : w.mem.ram.Tracked) : p.Sound R w := by
  unfold Processor.new withDecoder at h
  cases hv : config.validate with
  | error e => rw [hv] at h; cases h
  | ok _ =>
    rw [hv] at h
    cases h
    have hempty := TraceCache.coherent_new hv w.mem.ram
    refine ⟨rfl, hcpu, hmem, ht, hempty, Or.inl rfl, fun slot t hs => ?_⟩
    simp only [TraceCache.trace?, TraceCache.new, Array.getElem?_replicate] at hs
    split at hs <;> cases hs

theorem Sound.dropTraces (h : p.Sound R w) : p.dropTraces.Sound R w := by
  refine ⟨h.decode, h.cpu, h.mem, h.tracked, TraceCache.coherent_flush h.coherent _, Or.inl rfl, fun slot t ht => ?_⟩
  rw [show p.dropTraces.cache = p.cache.flush from rfl, TraceCache.trace?_flush] at ht
  cases ht

/-- The processor's state is assigned, but for mode, segments and privilege level. -/
theorem Sound.assigned (h : p.Sound R w) {cpu : Cpu} (hc : p.cpu.SameContext cpu) (hcpu : R.cpu cpu) :
    Sound R { p with cpu } w :=
  h.steady ⟨rfl, rfl, Or.inl rfl, hc⟩ hcpu (R.isCourse.quiet rfl) rfl

/-- Others go on. -/
theorem Sound.goesOn (h : p.Sound R w) (hw : R.course w w') (hlag : w'.mem.ram.stamps.lag = w.mem.ram.stamps.lag) :
    p.Sound R w' :=
  h.steady (.refl p) h.cpu hw hlag

end Processor

end TraceCore
