/-
Runs that come to an end. Where no events are pending, a run goes through single steps to its end or to the
end of its budget, and whoever goes on from there comes to the same end.
-/
import TraceCore.Proofs.Processor.Pace
import TraceCore.Proofs.Processor.Refetch
import TraceCore.Proofs.Processor.Single

namespace TraceCore

variable {γ δ : Type} {d : Delivery (Board γ δ)} {i : Nat} {w w' v v' : Board γ δ}

/-! ## What an instruction leaves alone -/

namespace Board

/-- Of what a processor and a delivery see, only memory's bytes differ. -/
structure Still (w w' : Board γ δ) : Prop where
  lines : w'.lines = w.lines
  delivery : w'.delivery = w.delivery
  mappings : w'.mem.mappings = w.mem.mappings
  size : w'.mem.ram.bytes.size = w.mem.ram.bytes.size

/-- No events are pending for the processor. -/
def Quiet (i : Nat) (w : Board γ δ) : Prop := ((line i).events w).any = false

theorem Quiet.of_lines (h : w.Quiet i) (hlines : w'.lines = w.lines) : w'.Quiet i := by
  unfold Quiet line at h ⊢
  dsimp only at h ⊢
  rwa [hlines]

end Board

/-- Handing over a fault raises no events. -/
def Delivery.Mute (d : Delivery (Board γ δ)) : Prop := ∀ fault rip cpu w, (d.fault fault rip cpu w).2.2.lines = w.lines

namespace Processor

variable {p p' q : Processor} {instr : Instr} {limit n : Nat} {exit : Exit}

theorem still_execute (limit : Nat) (instr : Instr) (p : Processor) (w : Board γ δ) :
    w.Still (p.execute (Board.unwatched d i) limit instr w).2.2.2 := by
  refine Exec.instr_keeps (Q := w.Still) ⟨fun _ _ _ _ h => h, fun _ _ _ h => h, ?_, fun _ _ _ h => h⟩ _ _ _
    ⟨rfl, rfl, rfl, rfl⟩
  intro addr src w' h
  exact ⟨h.lines, h.delivery, h.mappings, ((Board.course_moves (γ := γ) (δ := δ)).write addr src w').size.trans h.size⟩

theorem lines_handFault (hd : d.Mute) (fault : Fault) (rip : UInt64) (p : Processor) (w : Board γ δ) :
    (p.handFault (Board.unwatched d i) fault rip w).2.2.lines = w.lines := by
  have hhanded := handed_handFault (Board.unwatched d i) fault rip p w
  have hlines := hd fault rip p.cpu w
  generalize p.handFault (Board.unwatched d i) fault rip w = out at hhanded ⊢
  cases hhanded with
  | retried window closed cpu w' answer => rw [show d.fault fault rip p.cpu w = _ from answer] at hlines; exact hlines
  | delivered window closed cpu w' answer => rw [show d.fault fault rip p.cpu w = _ from answer] at hlines; exact hlines
  | escalated window closed cpu w' answer => rw [show d.fault fault rip p.cpu w = _ from answer] at hlines; exact hlines

/-- An instruction is counted, and it raises no events. -/
theorem stepInstr_counts (hd : d.Mute) (limit : Nat) (p : Processor) (w : Board γ δ) :
    p.retired < (p.stepInstr (Board.unwatched d i) limit w).2.1.retired ∧
      (p.stepInstr (Board.unwatched d i) limit w).2.2.lines = w.lines := by
  cases hfetch : (p.refetch (Board.unwatched d i) w).1 with
  | error fault =>
    rw [stepInstr_of_error hfetch]
    exact ⟨by rw [retired_handFault]; exact Nat.lt_succ_self _, lines_handFault hd fault _ p w⟩
  | ok instr =>
    have hran := executed_execute (Board.unwatched d i) limit instr p w
    have hstill := still_execute (d := d) (i := i) limit instr p w
    rw [stepInstr_of_ok hfetch, perform_eq]
    generalize p.execute (Board.unwatched d i) limit instr w = out at hran hstill ⊢
    obtain ⟨x, hit, p₁, w₁⟩ := out
    dsimp only at hran hstill
    cases x with
    | error fault =>
      unfold concluded
      dsimp only
      rw [retired_handFault, lines_handFault hd]
      exact ⟨Nat.lt_succ_of_le hran.retired, hstill.lines⟩
    | ok flow =>
      refine ⟨?_, hstill.lines⟩
      unfold concluded
      dsimp only
      split
      case isTrue hgave => exact hran.progress (by rw [hgave])
      case isFalse => exact Nat.lt_succ_of_le hran.retired

theorem serve_quiet (h : w.Quiet i) (p : Processor) : serve (Board.unwatched d i) p w = (none, p, w) := by
  have hnone : ((Board.unwatched d i).line.events w).any = false := h
  exact serve_of_quiet (pending_of_none hnone) p

/-- So is a single step, unless the processor is halted. -/
theorem stepSingle_counts (hd : d.Mute) (hawake : q.cpu.halted = false) (w : Board γ δ) :
    q.retired < (q.stepSingle (Board.unwatched d i) w).2.1.retired := by
  rw [stepSingle_of_awake hawake]
  exact (stepInstr_counts hd 0 q.single w).1

/-! ## From single steps to a run -/

section

variable {pf : Processor} {wf : Board γ δ}

theorem Ends.retired_le (hd : d.Mute) (h : Ends (Board.unwatched d i) exit pf wf n q v) :
    q.retired ≤ pf.retired ∧ (q.cpu.halted = false → q.retired < pf.retired) := by
  induction h with
  | @leave q v steps =>
    cases hhalted : q.cpu.halted with
    | true =>
      rw [stepSingle_of_halted hhalted] at steps
      cases steps
      exact ⟨Nat.le_refl _, nofun⟩
    | false =>
      have hlt := stepSingle_counts (i := i) hd hhalted v
      rw [steps] at hlt
      exact ⟨Nat.le_of_lt hlt, fun _ => hlt⟩
  | @step n q q₁ v v₁ next steps stays rest ih =>
    cases hhalted : q.cpu.halted with
    | true =>
      rw [stepSingle_of_halted hhalted] at steps
      cases steps
    | false =>
      have hlt := stepSingle_counts (i := i) hd hhalted v
      rw [steps] at hlt
      have hlt : q.retired < pf.retired := Nat.lt_of_lt_of_le hlt ih.1
      exact ⟨Nat.le_of_lt hlt, fun _ => hlt⟩

/-- Single steps that come to an end leave a repeated instruction alone until it is through. -/
theorem abides_ends : Abides (Board.unwatched d i) fun q v => ∃ n, Ends (Board.unwatched d i) exit pf wf n q v := by
  rintro p w p' w' instr hit ⟨n, h⟩ hawake hfetch hexec
  have hhit : hit = false := by
    have hwatch := watchHit_running (d := d) (i := i) ⟨p.cpu.rip, 0, 1⟩ instr p w
    rw [execute_eq] at hexec
    exact (congrArg (fun out => out.2.1) hexec).symm.trans hwatch
  have hstep : p.stepSingle (Board.unwatched d i) w = (.goto .boundary, p', w') := by
    rw [stepSingle_of_ok hawake hfetch, hexec, hhit]
    rfl
  cases h with
  | leave steps => rw [hstep] at steps; cases steps
  | step steps stays rest =>
    rw [hstep] at steps
    cases steps
    exact ⟨stays instr hit hfetch hexec, _, rest⟩

/-- Where a run of at most `k` instructions gets: to the end, or to where its budget is used up. -/
inductive Reached (d : Delivery (Board γ δ)) (i : Nat) (exit : Exit) (pf : Processor) (wf : Board γ δ) (limit k n : Nat)
    (p : Processor) : Option Exit × Processor × Board γ δ → Prop
  | ended (p' : Processor) (last : p'.single = pf) : Reached d i exit pf wf limit k n p (some exit, p', wf)
  | cut (e : Option Exit) (m : Nat) (p' : Processor) (w' : Board γ δ)
      (used : e = none ∧ p.retired + k ≤ p'.retired ∨
        e = some .quantumExhausted ∧ limit ≤ p'.retired ∧ p'.cpu.halted = false)
      (quiet : w'.Quiet i) (ends : Ends (Board.unwatched d i) exit pf wf m p'.single w')
      (fewer : m < n ∨ m = n ∧ (k = 0 ∨ limit ≤ p.retired ∧ p.cpu.halted = false)) :
      Reached d i exit pf wf limit k n p (e, p', w')

/-- However many instructions a run may execute, it stays on the way of the single steps. -/
theorem Ends.runInstrs (hd : d.Mute) (h : Ends (Board.unwatched d i) exit pf wf n p.single w) (hquiet : w.Quiet i)
    (limit k : Nat) :
    Reached d i exit pf wf limit k n p (p.runInstrs (Board.unwatched d i) limit k w) := by
  induction k generalizing n p w with
  | zero => exact .cut none n p w (Or.inl ⟨rfl, Nat.le_refl _⟩) hquiet h (Or.inr ⟨rfl, Or.inl rfl⟩)
  | succ k ih =>
    unfold Processor.runInstrs stepPlain
    rw [serve_quiet hquiet]
    dsimp only
    cases hhalted : p.cpu.halted with
    | true =>
      have hstep : p.single.stepSingle (Board.unwatched d i) w = (.leave .halted, p.single, w) :=
        stepSingle_of_halted hhalted w
      cases h with
      | leave steps => rw [hstep] at steps; cases steps; exact .ended p rfl
      | step steps => rw [hstep] at steps; cases steps
    | false =>
      rw [if_neg Bool.false_ne_true]
      by_cases hspent : limit ≤ p.retired
      case pos =>
        rw [if_pos hspent]
        exact .cut _ n p w (Or.inr ⟨rfl, hspent, hhalted⟩) hquiet h (Or.inr ⟨rfl, Or.inr ⟨hspent, hhalted⟩⟩)
      case neg =>
        rw [if_neg hspent]
        obtain ⟨hless, hlines⟩ := stepInstr_counts (i := i) hd limit p w
        have hresolved := resolved_stepInstr abides_ends ⟨n, h⟩ hhalted limit
        unfold singly at hresolved
        generalize p.stepInstr (Board.unwatched d i) limit w = out at hless hlines hresolved ⊢
        obtain ⟨next, p₁, w₁⟩ := out
        dsimp only at hless hlines hresolved ⊢
        cases hresolved with
        | on walks =>
          obtain ⟨m, hm, hends⟩ := h.walks walks
          have hrest := ih hends (hquiet.of_lines hlines)
          dsimp only
          generalize p₁.runInstrs (Board.unwatched d i) limit k w₁ = out at hrest ⊢
          cases hrest with
          | ended p' last => exact .ended p' last
          | cut e m' p' w' used quiet ends fewer =>
            refine .cut e m' p' w' ?_ quiet ends (Or.inl (by omega))
            rcases used with ⟨he, hle⟩ | hspent
            · exact Or.inl ⟨he, by omega⟩
            · exact Or.inr hspent
        | out walks last =>
          obtain ⟨m, -, hends⟩ := h.walks walks
          cases hends with
          | leave steps => rw [last] at steps; cases steps; exact .ended p₁ rfl
          | step steps => rw [last] at steps; cases steps

theorem limitFor_eq (p : Processor) (budget : Nat) : p.limitFor budget = min (p.retired + budget) (2 ^ 64 - 1) := rfl

/-- A run that has a budget gets somewhere. -/
theorem Ends.runPlain (hd : d.Mute) (h : Ends (Board.unwatched d i) exit pf wf n p.single w) (hquiet : w.Quiet i)
    (hcount : pf.retired < 2 ^ 64) {budget : Nat} (hbudget : 1 ≤ budget) :
    (∃ p', p.runPlain (Board.unwatched d i) budget w = (exit, p', wf) ∧ p'.single = pf) ∨
      ∃ m p' w', p.runPlain (Board.unwatched d i) budget w = (.quantumExhausted, p', w') ∧ w'.Quiet i ∧ m < n ∧
        Ends (Board.unwatched d i) exit pf wf m p'.single w' := by
  have hreached := h.runInstrs hd hquiet (p.limitFor budget) (budget + 1)
  unfold Processor.runPlain
  generalize p.runInstrs (Board.unwatched d i) (p.limitFor budget) (budget + 1) w = out at hreached ⊢
  cases hreached with
  | ended p' last => exact Or.inl ⟨p', rfl, last⟩
  | cut e m p' w' used quiet ends fewer =>
    refine Or.inr ⟨m, p', w', ?_, quiet, ?_, ends⟩
    · rcases used with ⟨rfl, -⟩ | ⟨rfl, -⟩ <;> rfl
    · rcases fewer with hless | ⟨rfl, hnone | ⟨hspent, hawake⟩⟩
      · exact hless
      · omega
      · have hlt : p.retired < pf.retired := (h.retired_le hd).2 hawake
        rw [limitFor_eq] at hspent
        omega

end

/-! ## Repeated instructions that leave themselves alone -/

/-- However many iterations run of the repeated instruction that the processor is before, the bytes of the
instruction stay as they are. -/
def Spares (s : Socket (Board γ δ)) (p : Processor) (w : Board γ δ) : Prop :=
  ∀ instr, (p.refetch s w).1 = .ok instr → instr.rep ≠ .once → ∀ limit, ∀ k < instr.len,
    (p.single.execute s limit instr w).2.2.2.mem.ram.bytes[(p.cpu.codeAddress (p.cpu.rip + UInt64.ofNat k)).toNat]? =
      w.mem.ram.bytes[(p.cpu.codeAddress (p.cpu.rip + UInt64.ofNat k)).toNat]?

/-- What it means that an iteration gave way. -/
structure GaveWay (s : Socket (Board γ δ)) (instr : Instr) (q : Processor) (w : Board γ δ) (q' : Processor)
    (w' : Board γ δ)
    (r : Running (Board γ δ)) : Prop where
  result : Exec.eval (Exec.instr s ⟨q.cpu.rip, 0, 1⟩ instr) (q.running instr w) = (.ok .giveWay, r)
  proc : q' = q.single.after r
  world : w' = r.world
  rip : q'.cpu.rip = q.cpu.rip
  context : q.cpu.SameContext q'.cpu
  again : q'.running instr w' = r.at (q.running instr w).cpu.rip

theorem gaveWay_of_execute {hit : Bool}
    (h : q.single.execute (Board.unwatched d i) 0 instr w = (.ok .giveWay, hit, p', w')) :
    ∃ r, GaveWay (Board.unwatched d i) instr q w p' w' r := by
  have hran := Exec.ran_instr (Board.unwatched d i) ⟨q.cpu.rip, 0, 1⟩ instr (q.running instr w)
  have hhit := watchHit_running (d := d) (i := i) ⟨q.cpu.rip, 0, 1⟩ instr q w
  rw [execute_eq] at h
  rw [show q.single.cpu = q.cpu from rfl, show q.single.running instr w = q.running instr w from rfl,
    show q.single.config.repeatInterval = 1 from rfl] at h
  rcases hout : Exec.eval (Exec.instr (Board.unwatched d i) ⟨q.cpu.rip, 0, 1⟩ instr) (q.running instr w) with ⟨x, r⟩
  rw [hout] at h hran hhit
  cases h
  have hrip : r.cpu.rip = q.cpu.rip := hran.rip
  exact ⟨r, hout, rfl, rfl, hrip, hran.context, running_after hran.context hrip hhit⟩

variable {L : Layout}

theorem Alike.single {p q : Processor} (h : p.Alike q) : p.single.Alike q.single := ⟨h.cpu, h.retired, rfl, h.decode⟩

theorem Spares.alike (h : p.Spares (Board.unwatched d i) w) (hp : p.Alike q) (hw : w.Matches v) :
    q.single.Spares (Board.unwatched d i) v := by
  intro instr hfetch hrep limit k hk
  have hboards := (agree_execute (d := d) (i := i) hp.single hw limit instr).2.boards
  dsimp only at hboards
  rw [show q.single.single = q.single from rfl, hboards.agrees.bytes, hw.agrees.bytes,
    show q.single.cpu = p.cpu from hp.cpu]
  exact h instr ((hp.refetch hw).symm.trans hfetch) hrep limit k hk

theorem Abreast.quiet {point : Point} (h : Abreast (Board.unwatched d i) limit p w q v point) (hquiet : v.Quiet i) :
    p.Alike q ∧ w.Matches v := by
  cases h with
  | boundary alike boards => exact ⟨alike, boards⟩
  | record q' v' served alike boards =>
    rw [serve_quiet hquiet] at served
    cases served
    exact ⟨alike, boards⟩

end Processor

end TraceCore
