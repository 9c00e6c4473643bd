/-
Time slices are transparent. A program that comes to an end comes to the same end when it runs in slices of
whatever length, although these cut traces between any two instructions, and repeated instructions between
any two iterations.
-/
import TraceCore.Proofs.Processor.Spared
import TraceCore.Proofs.Processor.Twins

namespace TraceCore

namespace Processor

/-- Runs with one budget after the other, until something else than a used-up budget ends a run, or `n` runs
are over. -/
def runSlices {ω : Type} (s : Socket ω) (budgets : Nat → Nat) : (n : Nat) → Processor → ω → Exit × Processor × ω
  | 0, p, w => (.quantumExhausted, p, w)
  | n + 1, p, w =>
    match p.run s (budgets 0) w with
    | (.quantumExhausted, p, w) => runSlices s (fun k => budgets (k + 1)) n p w
    | (exit, p, w) => (exit, p, w)

section

variable {ω : Type} {s : Socket ω} {budgets : Nat → Nat} {exit : Exit} {p p' : Processor} {w w' : ω}

theorem runSlices_of_cut (h : p.run s (budgets 0) w = (.quantumExhausted, p', w')) (n : Nat) :
    p.runSlices s budgets (n + 1) w = p'.runSlices s (fun k => budgets (k + 1)) n w' := by
  conv_lhs => unfold runSlices
  rw [h]

theorem runSlices_of_end (h : p.run s (budgets 0) w = (exit, p', w')) (hexit : exit ≠ .quantumExhausted) (n : Nat) :
    p.runSlices s budgets (n + 1) w = (exit, p', w') := by
  unfold runSlices
  rw [h]
  cases exit <;> first | rfl | exact absurd rfl hexit

end

variable {γ δ : Type} {L : Layout} {d : Delivery (Board γ δ)} {i : Nat} {p q pf : Processor} {w v wf : Board γ δ}
    {exit : Exit}

/-- Each slice goes on where the last one stopped, so they come to the end of the single steps. -/
theorem Ends.runSlices (hd : d.Blind) (htame : d.Tame (Regime.identity γ δ L)) (hmute : d.Mute)
    (hcount : pf.retired < 2 ^ 64)
    (hexit : exit ≠ .quantumExhausted) (n : Nat) {budgets : Nat → Nat} (hbudgets : ∀ k, 1 ≤ budgets k)
    (h : Ends (Board.unwatched d i) exit pf wf n q.single v) (hsound : p.Sound (Regime.identity γ δ L) w)
    (hp : p.Alike q)
    (hw : w.Matches v) (hquiet : v.Quiet i)
    (hlag : ∀ k, (p.runSlices (Board.unwatched d i) budgets k w).2.2.mem.ram.stamps.lag = w.mem.ram.stamps.lag) :
    ∃ k, (p.runSlices (Board.unwatched d i) budgets k w).1 = exit ∧
      (p.runSlices (Board.unwatched d i) budgets k w).2.1.cpu = pf.cpu ∧
      (p.runSlices (Board.unwatched d i) budgets k w).2.1.retired = pf.retired ∧
      (p.runSlices (Board.unwatched d i) budgets k w).2.2.Matches wf := by
  induction n using Nat.strongRecOn generalizing budgets p q w v with
  | ind n ih =>
    rcases hrun : p.run (Board.unwatched d i) (budgets 0) w with ⟨e, p₁, w₁⟩
    have hsame : w₁.mem.ram.stamps.lag = w.mem.ram.stamps.lag := by
      rw [← hlag 1]
      by_cases he : e = .quantumExhausted
      · rw [runSlices_of_cut (by rw [hrun, he])]
        rfl
      · rw [runSlices_of_end hrun he]
    have hagree := agree_run (i := i) hd htame (budgets 0) hsound hp hw (by rw [hrun]; exact hsame)
    have hsound₁ := (sound_run (i := i) Guard.quiet_none htame (budgets 0) hsound (by rw [hrun]; exact hsame)).2
    rw [hrun] at hagree hsound₁
    rcases h.runPlain hmute hquiet hcount (hbudgets 0) with ⟨q', hplain, hlast⟩ |
      ⟨m, q', v', hplain, hquiet', hless, hends⟩
    · rw [hplain] at hagree
      obtain ⟨rfl, halike, hboards⟩ := hagree
      refine ⟨1, ?_⟩
      rw [runSlices_of_end hrun hexit, ← hlast]
      exact ⟨rfl, halike.cpu.symm, halike.retired.symm, hboards⟩
    · rw [hplain] at hagree
      obtain ⟨hcut, halike, hboards⟩ := hagree
      dsimp only at hcut halike hboards hsound₁
      subst hcut
      obtain ⟨k, hrest⟩ := ih m hless (fun k => hbudgets (k + 1)) hends hsound₁ halike hboards hquiet' fun k => by
        rw [← runSlices_of_cut hrun, hlag, hsame]
      refine ⟨k + 1, ?_⟩
      rw [runSlices_of_cut hrun]
      exact hrest

end Processor

end TraceCore
