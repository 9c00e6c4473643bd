/-
What a run keeps. A property of the world that nothing in a processor's socket makes false holds at every moment of its
runs and at their end, for any bus, decoder, guard and delivery.
-/
import TraceCore.Proofs.Processor.Runs

namespace TraceCore

variable {ω : Type} {s : Socket ω} {Q : ω → Prop}

/-- Nothing that a processor asks of its socket makes a property of the world false. -/
structure Socket.Keeps (s : Socket ω) (Q : ω → Prop) : Prop where
  translate : ∀ linear access cpl w, Q w → Q (s.bus.translate linear access cpl w).2
  read : ∀ addr len w, Q w → Q (s.bus.read addr len w).2
  write : ∀ addr src w, Q w → Q (s.bus.write addr src w).2
  register : ∀ p mask w, Q w → Q (s.bus.mapStamps (·.register p mask) w)
  stopsBefore : ∀ rip w, Q w → Q (s.guard.stopsBefore rip w).2
  watches : ∀ addr len kind w, Q w → Q (s.guard.watches addr len kind w).2
  events : ∀ cpu w, Q w → Q (s.delivery.events s.line cpu w).2.2
  fault : ∀ fault rip cpu w, Q w → Q (s.delivery.fault fault rip cpu w).2.2
  set : ∀ e w, Q w → Q (s.line.set e w)

/-- Nothing that a processor asks of bus and guard makes a property of the world false. -/
structure Socket.Leaves (s : Socket ω) (Q : ω → Prop) : Prop where
  translate : ∀ linear access cpl w, Q w → Q (s.bus.translate linear access cpl w).2
  read : ∀ addr len w, Q w → Q (s.bus.read addr len w).2
  write : ∀ addr src w, Q w → Q (s.bus.write addr src w).2
  register : ∀ p mask w, Q w → Q (s.bus.mapStamps (·.register p mask) w)
  stopsBefore : ∀ rip w, Q w → Q (s.guard.stopsBefore rip w).2
  watches : ∀ addr len kind w, Q w → Q (s.guard.watches addr len kind w).2

/-- What registering code and opening windows for its present state keep, a processor's search for a trace keeps. -/
theorem Processor.findTrace_keeps {p : Processor} {w : ω}
    (hregister : ∀ p mask w, Q w → Q (s.bus.mapStamps (·.register p mask) w))
    (hopen : ∀ rip w, Q w → Q (openWindow s.bus s.guard p.cpu rip w).2) (hw : Q w) : Q (p.findTrace s w).2.2 := by
  have henter : (p.enterWindow s w).2.1.cpu = p.cpu ∧ Q (p.enterWindow s w).2.2 := by
    unfold enterWindow
    split
    case h_1 => exact ⟨rfl, hw⟩
    case h_2 =>
      have hopened := hopen p.cpu.rip w hw
      generalize openWindow s.bus s.guard p.cpu p.cpu.rip w = out at hopened ⊢
      obtain ⟨e | window, w₁⟩ := out <;> exact ⟨rfl, hopened⟩
  unfold findTrace
  generalize p.enterWindow s w = out at henter ⊢
  obtain ⟨e | offset, p₁, w₁⟩ := out
  · exact henter.2
  · obtain ⟨hcpu, henter⟩ := henter
    refine TraceCache.ensure_keeps hregister _ _ (fun rip w' hw' => ?_) _ _ henter
    rw [hcpu]
    exact hopen rip w' hw'

namespace Socket.Leaves

open Processor

variable {p : Processor} {w : ω}

theorem openWindow (h : s.Leaves Q) (cpu : Cpu) (rip : UInt64) (hw : Q w) :
    Q (openWindow s.bus s.guard cpu rip w).2 := by
  unfold TraceCore.openWindow
  split
  case h_1 => exact hw
  case h_2 linear bias size _ =>
    have hw := h.translate linear .execute cpu.cpl w hw
    generalize s.bus.translate linear .execute cpu.cpl w = out at hw ⊢
    obtain ⟨pf | addr, w₁⟩ := out
    · exact hw
    · dsimp only at hw ⊢
      split
      case isTrue => exact hw
      case isFalse => exact h.watches (pageBase linear) size .execute w₁ hw

theorem findTrace (h : s.Leaves Q) (p : Processor) (hw : Q w) : Q (p.findTrace s w).2.2 :=
  findTrace_keeps h.register (fun rip _ hw => h.openWindow p.cpu rip hw) hw

theorem stopsAt (h : s.Leaves Q) (rip : UInt64) (len : Nat) (p : Processor) (hw : Q w) :
    Q (p.stopsAt s rip len w).2.2 := by
  have hstop := h.stopsBefore rip w hw
  unfold Processor.stopsAt
  split
  case isTrue => exact hw
  case isFalse =>
    dsimp only
    split
    case isTrue => exact hstop
    case isFalse =>
      split
      case isTrue => exact h.watches _ _ _ _ hstop
      case isFalse => exact hstop

theorem instr (h : s.Leaves Q) : Exec.Keeps s Q :=
  ⟨h.translate, h.read, h.write, fun addr len => h.watches addr len .write⟩

theorem execute (h : s.Leaves Q) (limit : Nat) (i : Instr) (p : Processor) (hw : Q w) :
    Q (p.execute s limit i w).2.2.2 :=
  Exec.instr_keeps h.instr _ i _ hw

end Socket.Leaves

namespace Socket.Keeps

open Processor

variable {limit : Nat} {p : Processor} {w : ω}

theorem leaves (h : s.Keeps Q) : s.Leaves Q :=
  ⟨h.translate, h.read, h.write, h.register, h.stopsBefore, h.watches⟩

theorem serve (h : s.Keeps Q) (p : Processor) (hw : Q w) : Q (serve s p w).2.2 := by
  have hheard : Q (heard s w) := h.set _ _ (h.set _ _ hw)
  have hevents := h.events p.cpu (heard s w) hheard
  have hserved := served_serve s p w
  generalize Processor.serve s p w = out at hserved ⊢
  cases hserved with
  | quiet => exact hw
  | stopped => exact hheard
  | passed => exact hheard
  | resumed cpu w' answer => rwa [answer] at hevents
  | exited cpu w' answer => rwa [answer] at hevents

theorem handFault (h : s.Keeps Q) (fault : Fault) (rip : UInt64) (p : Processor) (hw : Q w) :
    Q (p.handFault s fault rip w).2.2 := by
  have hfault := h.fault fault rip p.cpu w hw
  have hhanded := handed_handFault s fault rip p w
  generalize p.handFault s fault rip w = out at hhanded ⊢
  cases hhanded with
  | retried window closed cpu w' answer => rwa [answer] at hfault
  | delivered window closed cpu w' answer => rwa [answer] at hfault
  | escalated window closed cpu w' answer => rwa [answer] at hfault

theorem step (h : s.Keeps Q) (limit : Nat) (point : Point) (p : Processor) (hw : Q w) :
    Q (p.step s limit point w).2.2 := by
  cases point with
  | boundary =>
    have hserve := h.serve { p with linker := p.linker.reset } hw
    have hbounded := bounded_stepBoundary s limit p w
    rw [show p.step s limit .boundary w = p.stepBoundary s limit w from rfl]
    generalize p.stepBoundary s limit w = out at hbounded ⊢
    cases hbounded with
    | left exit p₁ w₁ served => rwa [served] at hserve
    | halted p₁ w₁ served _ => rwa [served] at hserve
    | spent p₁ w₁ served _ _ => rwa [served] at hserve
    | searched p₁ w₁ served _ _ =>
      rw [served] at hserve
      have hfind := h.leaves.findTrace p₁ hserve
      unfold searched
      generalize p₁.findTrace s w₁ = out at hfind ⊢
      obtain ⟨fault | slot, p₂, w₂⟩ := out
      · exact h.handFault fault p₁.cpu.rip p₂ hfind
      · exact hfind
  | record index left generation branch =>
    have hrecorded := recorded_stepRecord s limit index left generation branch p w
    rw [show p.step s limit (.record index left generation branch) w =
      p.stepRecord s limit index left generation branch w from rfl]
    generalize p.stepRecord s limit index left generation branch w = out at hrecorded ⊢
    have hran : ∀ {i : Instr} {p₁ p₂ : Processor} {w₁ w₂ : ω} {x : Except Fault Flow} {hit : Bool},
        p.stopsAt s p.cpu.rip i.len w = (false, p₁, w₁) → p₁.execute s limit i w₁ = (x, hit, p₂, w₂) → Q w₂ := by
      intro i p₁ p₂ w₁ w₂ x hit hpasses hexecuted
      have hstop := h.leaves.stopsAt p.cpu.rip i.len p hw
      rw [hpasses] at hstop
      have hexec := h.leaves.execute limit i p₁ hstop
      rwa [hexecuted] at hexec
    cases hrecorded with
    | missing => exact hw
    | stopped record found p₁ w₁ stops =>
      have hstop := h.leaves.stopsAt p.cpu.rip record.instr.len p hw
      rwa [stops] at hstop
    | faulted record found p₁ w₁ passes fault hit p₂ w₂ executed =>
      exact h.handFault fault p.cpu.rip p₂ (hran passes executed)
    | struck record found p₁ w₁ passes flow p₂ w₂ executed => exact hran passes executed
    | left record found p₁ w₁ passes flow p₂ w₂ executed _ => exact hran passes executed
    | next record found p₁ w₁ passes flow p₂ w₂ executed _ _ _ => exact hran passes executed
    | through record found p₁ w₁ passes flow p₂ w₂ executed _ _ => exact hran passes executed

/-- What nothing in the socket makes false, holds at every moment of a run if it does at the start. -/
theorem visits (h : s.Keeps Q) {p₀ : Processor} {w₀ : ω} {point : Point} (hw : Q w₀)
    (hv : Visits s limit p₀ w₀ point p w) : Q w := by
  induction hv with
  | start => exact hw
  | @goto point next p p' w w' _ steps ih =>
    have hstep := h.step limit point p ih
    rwa [steps] at hstep

/-- And at its end. -/
theorem run (h : s.Keeps Q) (budget : Nat) (p : Processor) (hw : Q w) : Q (p.run s budget w).2.2 :=
  run_induction (Q := fun _ => Q) budget p w (fun limit point p₁ _ h₁ => h.step limit point p₁ h₁) hw

end Socket.Keeps

end TraceCore
