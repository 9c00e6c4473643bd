/-
What the dispatch loop does to the world and to the fetch window, whatever it runs: the world goes on
by stores, registrations and deliveries, and the window stays, is closed, or is opened for the state
that the processor has at that moment.
-/
import TraceCore.Proofs.Processor.Steps
import TraceCore.Proofs.Processor.Window

namespace TraceCore

variable {γ δ : Type}

/-- The socket of processor `i` on a board. -/
abbrev Board.socket (guard : Guard (Board γ δ)) (delivery : Delivery (Board γ δ)) (i : Nat) : Socket (Board γ δ) :=
  (Board.wiring guard delivery).socket i

/-- A way for boards to go on that admits every store, every registration of code, and whatever leaves
memory alone. No change of a mapping goes uncounted on it. -/
structure Board.Course (W : Board γ δ → Board γ δ → Prop) : Prop where
  trans : ∀ {a b c}, W a b → W b c → W a c
  moves : ∀ {w w'}, W w w' → w.mem.Moves w'.mem
  quiet : ∀ {w w'}, w'.mem = w.mem → W w w'
  write : ∀ addr src w, W w (Board.bus.write addr src w).2
  register : ∀ p mask w, W w (Board.bus.mapStamps (·.register p mask) w)

/-- Deliveries go the same way. -/
structure Delivery.Keeps (delivery : Delivery (Board γ δ)) (W : Board γ δ → Board γ δ → Prop) : Prop where
  events : ∀ i cpu w, W w (delivery.events (Board.line i) cpu w).2.2
  fault : ∀ fault rip cpu w, W w (delivery.fault fault rip cpu w).2.2

theorem Delivery.keeps_toCaller {W : Board γ δ → Board γ δ → Prop} (hW : Board.Course W) : Delivery.toCaller.Keeps W :=
  ⟨fun _ _ _ => hW.quiet rfl, fun _ _ _ _ => hW.quiet rfl⟩

theorem Board.course_moves : Board.Course fun w w' : Board γ δ => w.mem.Moves w'.mem where
  trans := .trans
  moves := id
  quiet h := by rw [h]; exact .refl _
  write addr src w := w.mem.moves_write addr src
  register _ _ _ := ⟨Nat.le_refl _, rfl, fun _ => rfl⟩

namespace Processor

variable {g : Guard (Board γ δ)} {d : Delivery (Board γ δ)} {i : Nat} {W : Board γ δ → Board γ δ → Prop}
  {p p' p'' : Processor} {w w' w'' : Board γ δ}

/-- The processor's window, unless it is closed, was opened for some state. -/
def Opened (p : Processor) (w : Board γ δ) : Prop := p.window.size = 0 ∨ ∃ c, p.window.OpenedFor c w

theorem Opened.moves (h : p.Opened w) (hm : w.mem.Moves w'.mem) (hp : p'.window = p.window) : p'.Opened w' := by
  unfold Opened
  rw [hp]
  rcases h with h | ⟨c, h⟩
  · exact Or.inl h
  · exact Or.inr ⟨c, h.moves hm⟩

/-- The world goes on, and the window stays or is opened anew. -/
structure Onward (W : Board γ δ → Board γ δ → Prop) (p : Processor) (w : Board γ δ) (p' : Processor) (w' : Board γ δ) :
    Prop where
  world : W w w'
  window : p'.window = p.window ∨ p'.Opened w'

section

variable (hW : Board.Course W) (hguard : g.Quiet) (hdelivery : d.Keeps W)

include hW

theorem Onward.same (hw : w'.mem = w.mem) (hp : p'.window = p.window) : Onward W p w p' w' := ⟨hW.quiet hw, Or.inl hp⟩

theorem Onward.trans (h : Onward W p w p' w') (h' : Onward W p' w' p'' w'') : Onward W p w p'' w'' := by
  refine ⟨hW.trans h.world h'.world, ?_⟩
  rcases h'.window with hsame' | hopened'
  · rcases h.window with hsame | hopened
    · exact Or.inl (hsame'.trans hsame)
    · exact Or.inr (hopened.moves (hW.moves h'.world) hsame')
  · exact Or.inr hopened'

theorem Onward.opened (h : Onward W p w p' w') (ho : p.Opened w) : p'.Opened w' := by
  rcases h.window with hsame | hopened
  · exact ho.moves (hW.moves h.world) hsame
  · exact hopened

/-! ## Boundaries -/

include hdelivery in
theorem onward_serve (p : Processor) (w : Board γ δ) :
    Onward W p w (serve (Board.socket g d i) p w).2.1 (serve (Board.socket g d i) p w).2.2 := by
  have hserved := served_serve (Board.socket g d i) p w
  have hheard : W w (heard (Board.socket g d i) w) := hW.quiet rfl
  have hevents := hW.trans hheard (hdelivery.events i p.cpu (heard (Board.socket g d i) w))
  generalize serve (Board.socket g d i) p w = out at hserved ⊢
  cases hserved with
  | quiet => exact .same hW rfl rfl
  | stopped => exact ⟨hheard, Or.inl rfl⟩
  | passed => exact ⟨hheard, Or.inl rfl⟩
  | resumed cpu w' answer => exact ⟨(congrArg (W w ·.2.2) answer).mp hevents, Or.inl rfl⟩
  | exited cpu w' answer => exact ⟨(congrArg (W w ·.2.2) answer).mp hevents, Or.inl rfl⟩

omit hW in
include hdelivery in
theorem onward_handFault (fault : Fault) (rip : UInt64) (p : Processor) (w : Board γ δ) :
    Onward W p w (handFault (Board.socket g d i) fault rip p w).2.1
      (handFault (Board.socket g d i) fault rip p w).2.2 := by
  have hhanded := handed_handFault (Board.socket g d i) fault rip p w
  have hworld := hdelivery.fault fault rip p.cpu w
  have hwindow : ∀ (p' : Processor) (w' : Board γ δ), p'.window = p.window ∨ p'.window = p.window.close →
      p'.window = p.window ∨ p'.Opened w' := fun p' w' h => h.imp_right fun h => Or.inl (by rw [h]; rfl)
  generalize handFault (Board.socket g d i) fault rip p w = out at hhanded ⊢
  cases hhanded with
  | retried window closed cpu w' answer => exact ⟨(congrArg (W w ·.2.2) answer).mp hworld, hwindow _ _ closed⟩
  | delivered window closed cpu w' answer => exact ⟨(congrArg (W w ·.2.2) answer).mp hworld, hwindow _ _ closed⟩
  | escalated window closed cpu w' answer => exact ⟨(congrArg (W w ·.2.2) answer).mp hworld, hwindow _ _ closed⟩

include hguard in
theorem onward_enterWindow (p : Processor) (w : Board γ δ) :
    Onward W p w (p.enterWindow (Board.socket g d i) w).2.1
      (p.enterWindow (Board.socket g d i) w).2.2 := by
  unfold enterWindow
  split
  case h_1 => exact .same hW rfl rfl
  case h_2 =>
    have hmem := Board.mem_openWindow hguard p.cpu p.cpu.rip w
    rcases hopen : openWindow Board.bus g p.cpu p.cpu.rip w with ⟨r, w'⟩
    rw [hopen] at hmem
    rw [show openWindow (Board.socket g d i).bus (Board.socket g d i).guard p.cpu p.cpu.rip w = _
      from hopen]
    cases r with
    | error e => exact .same hW hmem rfl
    | ok window =>
      refine ⟨hW.quiet hmem, Or.inr (Or.inr ⟨p.cpu, g, p.cpu.rip, w, hguard, by rw [hopen], ?_⟩)⟩
      exact hW.moves (hW.quiet hmem)

include hguard in
theorem onward_findTrace (p : Processor) (w : Board γ δ) :
    Onward W p w (p.findTrace (Board.socket g d i) w).2.1
      (p.findTrace (Board.socket g d i) w).2.2 := by
  have henter := onward_enterWindow (d := d) (i := i) hW hguard p w
  unfold findTrace
  rcases he : p.enterWindow (Board.socket g d i) w with ⟨r, p₁, w₁⟩
  rw [he] at henter
  cases r with
  | error e => exact henter
  | ok offset =>
    refine henter.trans hW ⟨?_, Or.inl rfl⟩
    refine TraceCache.ensure_keeps (Q := W w₁) ?_ _ _ ?_ _ _ (hW.quiet rfl)
    · exact fun q mask w' hw' => hW.trans hw' (hW.register q mask w')
    · exact fun rip w' hw' => hW.trans hw' (hW.quiet (Board.mem_openWindow hguard p₁.cpu rip w'))

include hguard hdelivery in
theorem onward_stepBoundary (limit : Nat) (p : Processor) (w : Board γ δ) :
    Onward W p w (p.stepBoundary (Board.socket g d i) limit w).2.1
      (p.stepBoundary (Board.socket g d i) limit w).2.2 := by
  have hserve := onward_serve (g := g) (i := i) hW hdelivery { p with linker := p.linker.reset } w
  have hreset : Onward W p w { p with linker := p.linker.reset } w := .same hW rfl rfl
  unfold stepBoundary
  rcases hs : serve (Board.socket g d i) { p with linker := p.linker.reset } w with ⟨e, p₁, w₁⟩
  rw [hs] at hserve
  have hserved := hreset.trans hW hserve
  cases e with
  | some exit => exact hserved
  | none =>
    dsimp only at hserved ⊢
    split
    case isTrue => exact hserved
    case isFalse =>
      split
      case isTrue => exact hserved
      case isFalse =>
        have hfind := onward_findTrace (d := d) (i := i) hW hguard p₁ w₁
        rcases hf : p₁.findTrace (Board.socket g d i) w₁ with ⟨r, p₂, w₂⟩
        rw [hf] at hfind
        cases r with
        | error fault => exact (hserved.trans hW hfind).trans hW (onward_handFault hdelivery _ _ _ _)
        | ok slot => exact hserved.trans hW hfind

/-! ## Records -/

include hguard in
theorem onward_stopsAt (rip : UInt64) (len : Nat) (p : Processor) (w : Board γ δ) :
    Onward W p w (p.stopsAt (Board.socket g d i) rip len w).2.1
      (p.stopsAt (Board.socket g d i) rip len w).2.2 := by
  unfold stopsAt
  split
  case isTrue => exact .same hW rfl rfl
  case isFalse =>
    dsimp only
    have hstop : ((Board.socket g d i).guard.stopsBefore rip w).2.mem = w.mem := hguard.stopsBefore rip w
    split
    case isTrue => exact .same hW hstop rfl
    case isFalse =>
      split
      case isTrue => exact .same hW ((hguard.watches ..).trans hstop) rfl
      case isFalse => exact .same hW hstop rfl

include hguard in
theorem onward_execute (limit : Nat) (instr : Instr) (p : Processor) (w : Board γ δ) :
    Onward W p w (p.execute (Board.socket g d i) limit instr w).2.2.1
      (p.execute (Board.socket g d i) limit instr w).2.2.2 := by
  refine ⟨?_, Or.inl rfl⟩
  refine Exec.instr_keeps (Q := W w) ⟨?_, ?_, ?_, ?_⟩ _ _ _ (hW.quiet rfl)
  · exact fun _ _ _ _ h => h
  · exact fun _ _ _ h => h
  · exact fun addr src w' h => hW.trans h (hW.write addr src w')
  · exact fun addr len w' h => hW.trans h (hW.quiet (hguard.watches ..))

include hguard hdelivery in
theorem onward_stepRecord (limit index left generation : Nat) (branch : Option Nat) (p : Processor) (w : Board γ δ) :
    Onward W p w (p.stepRecord (Board.socket g d i) limit index left generation branch w).2.1
      (p.stepRecord (Board.socket g d i) limit index left generation branch w).2.2 := by
  unfold stepRecord
  split
  case h_1 => exact .same hW rfl rfl
  case h_2 record _ =>
    dsimp only
    have hstop := onward_stopsAt (d := d) (i := i) hW hguard p.cpu.rip record.instr.len p w
    rcases hs : p.stopsAt (Board.socket g d i) p.cpu.rip record.instr.len w with ⟨b, p₁, w₁⟩
    rw [hs] at hstop
    cases b with
    | true => exact hstop
    | false =>
      dsimp only at hstop ⊢
      have hexec := onward_execute (d := d) (i := i) hW hguard limit record.instr p₁ w₁
      rcases he : p₁.execute (Board.socket g d i) limit record.instr w₁ with ⟨x, hit, p₂, w₂⟩
      rw [he] at hexec
      have hran := hstop.trans hW hexec
      cases x with
      | error fault => exact hran.trans hW (onward_handFault hdelivery _ _ _ _)
      | ok flow =>
        dsimp only at hran ⊢
        have hcounted : Onward W p w (if flow = .giveWay then p₂ else { p₂ with retired := p₂.retired + 1 }) w₂ := by
          refine hran.trans hW (.same hW rfl ?_)
          split <;> rfl
        generalize (if flow = .giveWay then p₂ else { p₂ with retired := p₂.retired + 1 }) = p₃ at hcounted ⊢
        split
        case isTrue => exact hcounted
        case isFalse =>
          split
          case isTrue => exact hcounted
          case isFalse =>
            cases left with
            | succ left => exact hcounted
            | zero =>
              refine hcounted.trans hW (.same hW rfl ?_)
              obtain ⟨linker, cache, hfollow⟩ := follow_only (Board.socket g d i) limit _ _ _
              rw [hfollow]

include hguard hdelivery in
theorem onward_step (limit : Nat) (point : Point) (p : Processor) (w : Board γ δ) :
    Onward W p w (p.step (Board.socket g d i) limit point w).2.1
      (p.step (Board.socket g d i) limit point w).2.2 := by
  cases point with
  | boundary => exact onward_stepBoundary hW hguard hdelivery limit p w
  | record index left generation branch =>
    exact onward_stepRecord hW hguard hdelivery limit index left generation branch p w

end

/-! ## Runs -/

theorem course_runSteps (hW : Board.Course W) (hguard : g.Quiet) (hdelivery : d.Keeps W) (limit n : Nat) (point : Point)
    (p : Processor) (w : Board γ δ) : W w (runSteps (Board.socket g d i) limit n point p w).2.2 :=
  runSteps_induction (Q := fun _ w' => W w w')
    (fun point p₁ w₁ h => hW.trans h (onward_step hW hguard hdelivery limit point p₁ w₁).world) n point p w
    (hW.quiet rfl)

theorem course_run (hW : Board.Course W) (hguard : g.Quiet) (hdelivery : d.Keeps W) (budget : Nat)
    (p : Processor) (w : Board γ δ) : W w (p.run (Board.socket g d i) budget w).2.2 :=
  run_induction (Q := fun _ w' => W w w') budget p w
    (fun limit point p₁ w₁ h => hW.trans h (onward_step hW hguard hdelivery limit point p₁ w₁).world) (hW.quiet rfl)

end Processor

end TraceCore
