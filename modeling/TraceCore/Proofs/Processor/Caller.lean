/-
A processor that leaves events and faults to its caller. At a boundary its event word decides what it does. It leaves for a
debugger's stop and for an interrupt, and an interrupt wakes it. Otherwise it goes on, and no event with a meaning is left.
-/
import TraceCore.Proofs.Cpu.Event
import TraceCore.Proofs.Processor.Plain

namespace TraceCore

variable {γ δ : Type} {i : Nat} {w w' : Board γ δ}

namespace Board

/-- A board without the line takes no events. -/
theorem events_set (i : Nat) (e : Events) (w : Board γ δ) :
    (line i).events ((line i).set e w) = if i < w.lines.size then e else {} := by
  show (w.lines.setIfInBounds i e).getD i {} = _
  rw [Array.getD_eq_getD_getElem?, Array.getElem?_setIfInBounds, if_pos rfl]
  split <;> rfl

theorem set_set (i : Nat) (e f : Events) (w : Board γ δ) : (line i).set e ((line i).set f w) = (line i).set e w :=
  congrArg (fun lines => { w with lines }) (Array.setIfInBounds_setIfInBounds ..)

end Board

namespace Processor

open Board

variable {p p' : Processor}

/-- What a processor does about its events. -/
theorem serve_toCaller (i : Nat) (p : Processor) (w : Board γ δ) : serve (unwatched .toCaller i) p w =
    let events := (line i).events w
    let left := (events \ .stopTrace) \ .debugStop
    if events.pending.any = false then (none, p, w)
    else if ((events \ .stopTrace).take .debugStop).1.any = true then (some .breakpoint, p, (line i).set left w)
    else if (events.pending ∩ (.interrupt ∪ .nmi)).any = true then
      (some .asyncEvent, { p with cpu := { p.cpu with halted := false } },
        (line i).set (left \ (.interrupt ∪ .nmi)) w)
    else (none, p, (line i).set left w) := by
  dsimp only
  split
  case isTrue hquiet =>
    have hnone : ((unwatched .toCaller i : Socket (Board γ δ)).line.events w).pending.any = false := hquiet
    exact serve_of_quiet hnone p
  case isFalse hpending =>
    -- there is a line, so what is set there can be read back
    have hi : i < w.lines.size := by
      by_contra hout
      have hnone : (line i).events w = {} := dif_neg hout
      rw [hnone] at hpending
      exact hpending rfl
    have hset : ∀ e : Events, (line i).events ((line i).set e w) = e := fun e => by rw [events_set, if_pos hi]
    have hsome : (!((line i).events w).pending.any) = false := by simpa using hpending
    unfold serve EventLine.clear EventLine.take
    dsimp only
    rw [show (unwatched .toCaller i : Socket (Board γ δ)).line = line i from rfl,
      show (unwatched .toCaller i : Socket (Board γ δ)).delivery = .toCaller from rfl, hsome, hset, set_set,
      if_neg Bool.false_ne_true]
    split
    case isTrue => rfl
    case isFalse =>
      split
      case isFalse => rfl
      case isTrue hinterrupts =>
        have htaken : ((((line i).events w \ .stopTrace).take .debugStop).2.take (.interrupt ∪ .nmi)).1 =
            ((line i).events w).pending ∩ (.interrupt ∪ .nmi) := Events.inter_heard _
        have hevents : (Delivery.toCaller : Delivery (Board γ δ)).events (line i) p.cpu
            ((line i).set (((line i).events w \ .stopTrace).take .debugStop).2 w) =
            (.exit, { p.cpu with halted := false },
              (line i).set ((((line i).events w \ .stopTrace) \ .debugStop) \ (.interrupt ∪ .nmi)) w) := by
          unfold Delivery.toCaller EventLine.take
          dsimp only
          rw [hset, set_set, htaken, if_pos hinterrupts]
          rfl
        rw [hevents]

/-- The events let any processor go on. Some may be put away, and none with a meaning are left. -/
structure Passed (i : Nat) (w w' : Board γ δ) : Prop where
  serves : ∀ p : Processor, serve (unwatched .toCaller i) p w = (none, p, w')
  pending : ((line i).events w').pending.any = false
  only : w' = w ∨ ∃ e, w' = (line i).set e w

theorem passed_of_pending (h : ((line i).events w).pending.any = false) : Passed i w w := by
  have hnone : ((unwatched .toCaller i : Socket (Board γ δ)).line.events w).pending.any = false := h
  exact ⟨serve_of_quiet hnone, h, Or.inl rfl⟩

theorem passed_of_serve (h : serve (unwatched .toCaller i) p w = (none, p', w')) : Passed i w w' ∧ p' = p := by
  rw [serve_toCaller] at h
  dsimp only at h
  split at h
  case isTrue hquiet =>
    cases h
    exact ⟨passed_of_pending hquiet, rfl⟩
  case isFalse hpending =>
    split at h
    case isTrue => cases h
    case isFalse hstop =>
      split at h
      case isTrue => cases h
      case isFalse hinterrupts =>
        cases h
        refine ⟨⟨fun q => ?_, ?_, Or.inr ⟨_, rfl⟩⟩, rfl⟩
        · rw [serve_toCaller, if_neg hpending, if_neg hstop, if_neg hinterrupts]
        · rw [events_set]
          split
          case isTrue => exact Events.pending_heard (Bool.not_eq_true _ ▸ hinterrupts)
          case isFalse => rfl

/-! ## Runs -/

/-- The processor, but halted. -/
def dozing (p : Processor) : Processor := { p with cpu := { p.cpu with halted := true } }

/-- Events that do not let a processor go on make it leave in the same way if it is halted. It still is, or was woken. -/
theorem run_dozing (i : Nat) (p : Processor) (budget : Nat) (w : Board γ δ) :
    (∃ w', Passed i w w') ∨ ∃ exit p' q' w', p.run (unwatched .toCaller i) budget w = (exit, p', w') ∧
      p.dozing.run (unwatched .toCaller i) budget w = (exit, q', w') ∧ (q' = p' ∨ q' = p'.dozing) := by
  have hserve := serve_toCaller i { p with linker := p.linker.reset } w
  have hserve' := serve_toCaller i { p.dozing with linker := p.dozing.linker.reset } w
  dsimp only at hserve hserve'
  split at hserve
  case isTrue => exact Or.inl ⟨_, (passed_of_serve hserve).1⟩
  case isFalse hpending =>
    rw [if_neg hpending] at hserve'
    split at hserve
    case isTrue hstop =>
      rw [if_pos hstop] at hserve'
      exact Or.inr ⟨_, _, _, _, run_of_serve hserve budget, run_of_serve hserve' budget, Or.inr rfl⟩
    case isFalse hstop =>
      rw [if_neg hstop] at hserve'
      split at hserve
      case isTrue hinterrupts =>
        rw [if_pos hinterrupts] at hserve'
        exact Or.inr ⟨_, _, _, _, run_of_serve hserve budget, run_of_serve hserve' budget, Or.inl rfl⟩
      case isFalse => exact Or.inl ⟨_, (passed_of_serve hserve).1⟩

end Processor

end TraceCore
