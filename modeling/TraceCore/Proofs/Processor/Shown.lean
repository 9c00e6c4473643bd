/-
A processor on worlds that remember more. Through each of them another world shows, and every operation of its socket
does there what the operation of a plainer socket does. Then so does every step and every run, with the same answers:
whatever such worlds remember of a run, they remember of the plain one.
-/
import TraceCore.Proofs.Processor.Runs
import TraceCore.Proofs.Processor.Tandem

namespace TraceCore

variable {ω ω' : Type} {f : ω' → ω} {s' : Socket ω'} {s : Socket ω}

/-- Each operation of `s'` does to the world that shows what that of `s` does. -/
structure Socket.Shows (f : ω' → ω) (s' : Socket ω') (s : Socket ω) : Prop where
  translate : ∀ linear access cpl w, s.bus.translate linear access cpl (f w) =
    ((s'.bus.translate linear access cpl w).1, f (s'.bus.translate linear access cpl w).2)
  codePage : ∀ addr w, s.bus.codePage addr (f w) = s'.bus.codePage addr w
  read : ∀ addr len w, s.bus.read addr len (f w) = ((s'.bus.read addr len w).1, f (s'.bus.read addr len w).2)
  write : ∀ addr src w, s.bus.write addr src (f w) = ((s'.bus.write addr src w).1, f (s'.bus.write addr src w).2)
  remaps : ∀ w, s.bus.remaps (f w) = s'.bus.remaps w
  stamps : ∀ w, s.bus.stamps (f w) = s'.bus.stamps w
  mapStamps : ∀ g w, s.bus.mapStamps g (f w) = f (s'.bus.mapStamps g w)
  stopsBefore : ∀ rip w, s.guard.stopsBefore rip (f w) =
    ((s'.guard.stopsBefore rip w).1, f (s'.guard.stopsBefore rip w).2)
  watches : ∀ addr len kind w, s.guard.watches addr len kind (f w) =
    ((s'.guard.watches addr len kind w).1, f (s'.guard.watches addr len kind w).2)
  deliver : ∀ cpu w, s.delivery.events s.line cpu (f w) = ((s'.delivery.events s'.line cpu w).1,
    (s'.delivery.events s'.line cpu w).2.1, f (s'.delivery.events s'.line cpu w).2.2)
  fault : ∀ fault rip cpu w, s.delivery.fault fault rip cpu (f w) = ((s'.delivery.fault fault rip cpu w).1,
    (s'.delivery.fault fault rip cpu w).2.1, f (s'.delivery.fault fault rip cpu w).2.2)
  events : ∀ w, s.line.events (f w) = s'.line.events w
  set : ∀ e w, s.line.set e (f w) = f (s'.line.set e w)

namespace Socket.Shows

theorem alike (h : s'.Shows f s) : s'.Alike (fun w' w => f w' = w) s where
  translate linear access cpl w' _ hw := by
    subst hw
    rw [h.translate]
    exact ⟨rfl, rfl⟩
  read addr len w' _ hw := by
    subst hw
    rw [h.read]
    exact ⟨rfl, rfl⟩
  write addr src w' _ hw := by
    subst hw
    rw [h.write]
    exact ⟨rfl, rfl⟩
  watches addr len w' _ hw := by
    subst hw
    rw [h.watches]
    exact ⟨rfl, rfl⟩
  events w' _ hw := by
    subst hw
    exact (h.events w').symm

/-! ## Fetching -/

theorem openWindow (h : s'.Shows f s) (cpu : Cpu) (rip : UInt64) (w : ω') :
    openWindow s.bus s.guard cpu rip (f w) =
      ((openWindow s'.bus s'.guard cpu rip w).1, f (openWindow s'.bus s'.guard cpu rip w).2) := by
  unfold TraceCore.openWindow
  rcases windowAt cpu rip with e | ⟨linear, bias, size⟩
  · rfl
  · dsimp only
    rw [h.translate]
    rcases s'.bus.translate linear .execute cpu.cpl w with ⟨pf | addr, w₁⟩
    · rfl
    · simp only [h.codePage, h.watches, h.remaps]
      split <;> rfl

theorem track (h : s'.Shows f s) (addr : UInt64) (len : Nat) (stamp : UInt32) (w : ω') :
    TraceCache.track s.bus addr len stamp (f w) =
      ((TraceCache.track s'.bus addr len stamp w).1, f (TraceCache.track s'.bus addr len stamp w).2) := by
  unfold TraceCache.track
  dsimp only
  rw [h.mapStamps]

variable {next : UInt64 → ω → Except Fault FetchWindow × ω} (next' : UInt64 → ω' → Except Fault FetchWindow × ω')

theorem buildSplit (h : s'.Shows f s) (hnext : ∀ rip w, next rip (f w) = ((next' rip w).1, f (next' rip w).2))
    (decode : Decoder) (site : Site) (slot : Nat) (stamp : UInt32) (page : PageView) (c : TraceCache) (w : ω') :
    c.buildSplit s.bus decode site next slot stamp page (f w) =
      ((c.buildSplit s'.bus decode site next' slot stamp page w).1,
        (c.buildSplit s'.bus decode site next' slot stamp page w).2.1,
        f (c.buildSplit s'.bus decode site next' slot stamp page w).2.2) := by
  unfold TraceCache.buildSplit
  split
  case isTrue => rfl
  case isFalse =>
    dsimp only
    rw [hnext]
    rcases next' _ w with ⟨fault | window, w₁⟩
    · rfl
    · dsimp only
      rcases window.offset? _ with _ | offset
      · rfl
      · dsimp only
        rw [h.codePage, h.stamps]
        rcases s'.bus.codePage (window.address offset) w₁ with _ | tailPage
        · rfl
        · dsimp only
          split
          case h_1 => rfl
          case h_2 => rfl
          case h_3 i _ =>
            split
            case isTrue => rfl
            case isFalse =>
              rw [h.track]
              dsimp only
              split
              case isTrue => rfl
              case isFalse => rw [h.track]

theorem ensure (h : s'.Shows f s) (hnext : ∀ rip w, next rip (f w) = ((next' rip w).1, f (next' rip w).2))
    (decode : Decoder) (site : Site) (c : TraceCache) (w : ω') :
    c.ensure s.bus decode site next (f w) = ((c.ensure s'.bus decode site next' w).1,
      (c.ensure s'.bus decode site next' w).2.1, f (c.ensure s'.bus decode site next' w).2.2) := by
  unfold TraceCache.ensure
  rw [h.stamps]
  rcases c.lookup (s'.bus.stamps w) site.addr site.mode with ⟨_ | slot, c₁⟩
  · dsimp only
    unfold TraceCache.build
    dsimp only
    rw [h.stamps, h.codePage]
    rcases s'.bus.codePage site.addr w with _ | page
    · rfl
    · dsimp only
      split
      case h_1 => exact h.buildSplit next' hnext ..
      case h_2 => rfl
      case h_3 =>
        unfold TraceCache.buildRun
        dsimp only
        rw [h.track]
  · rfl

end Socket.Shows

namespace Processor

theorem offsetOf_shown (h : s'.Shows f s) (p : Processor) (rip : UInt64) (w : ω') :
    p.offsetOf s.bus rip (f w) = p.offsetOf s'.bus rip w := by
  unfold offsetOf
  rw [h.remaps]

theorem findTrace_shown (h : s'.Shows f s) (p : Processor) (w : ω') :
    p.findTrace s (f w) = ((p.findTrace s' w).1, (p.findTrace s' w).2.1, f (p.findTrace s' w).2.2) := by
  have henter : p.enterWindow s (f w) = ((p.enterWindow s' w).1, (p.enterWindow s' w).2.1, f (p.enterWindow s' w).2.2) := by
    unfold enterWindow
    rw [offsetOf_shown h]
    rcases p.offsetOf s'.bus p.cpu.rip w with _ | offset
    · dsimp only
      rw [h.openWindow]
      rcases openWindow s'.bus s'.guard p.cpu p.cpu.rip w with ⟨e | window, w₁⟩ <;> rfl
    · rfl
  unfold findTrace
  rw [henter]
  rcases p.enterWindow s' w with ⟨e | offset, p₁, w₁⟩
  · rfl
  · dsimp only
    rw [h.ensure (fun rip w => ((openWindow s'.bus s'.guard p₁.cpu rip w).1.mapError .fetch,
      (openWindow s'.bus s'.guard p₁.cpu rip w).2)) fun rip w => by rw [h.openWindow]]

/-! ## Events and faults -/

theorem serve_shown (h : s'.Shows f s) (p : Processor) (w : ω') :
    serve s p (f w) = ((serve s' p w).1, (serve s' p w).2.1, f (serve s' p w).2.2) := by
  unfold serve EventLine.take EventLine.clear
  dsimp only
  simp only [h.events, h.set, h.deliver]
  split
  case isTrue => rfl
  case isFalse =>
    split
    case isTrue => rfl
    case isFalse =>
      split
      case isFalse => rfl
      case isTrue => rcases s'.delivery.events s'.line p.cpu _ with ⟨_ | _, cpu, w₁⟩ <;> rfl

theorem handFault_shown (h : s'.Shows f s) (fault : Fault) (rip : UInt64) (p : Processor) (w : ω') :
    p.handFault s fault rip (f w) =
      ((p.handFault s' fault rip w).1, (p.handFault s' fault rip w).2.1, f (p.handFault s' fault rip w).2.2) := by
  unfold handFault
  dsimp only
  rw [h.fault]
  rcases s'.delivery.fault fault rip p.cpu w with ⟨_ | _ | _, cpu, w₁⟩ <;> rfl

/-! ## Running -/

theorem stopsAt_shown (h : s'.Shows f s) (rip : UInt64) (len : Nat) (p : Processor) (w : ω') :
    p.stopsAt s rip len (f w) = ((p.stopsAt s' rip len w).1, (p.stopsAt s' rip len w).2.1,
      f (p.stopsAt s' rip len w).2.2) := by
  unfold stopsAt
  simp only [h.stopsBefore, h.watches]
  split
  case isTrue => rfl
  case isFalse =>
    split
    case isTrue => rfl
    case isFalse => split <;> rfl

theorem execute_shown (h : s'.Shows f s) (limit : Nat) (i : Instr) (p : Processor) (w : ω') :
    p.execute s limit i (f w) = ((p.execute s' limit i w).1, (p.execute s' limit i w).2.1,
      (p.execute s' limit i w).2.2.1, f (p.execute s' limit i w).2.2.2) := by
  have hsame := Exec.same_instr h.alike { rip := p.cpu.rip, limit, interval := p.config.repeatInterval } i
    { cpu := p.cpu.setRip (p.cpu.rip + UInt64.ofNat i.len), world := w, retired := p.retired }
    { cpu := p.cpu.setRip (p.cpu.rip + UInt64.ofNat i.len), world := f w, retired := p.retired } ⟨rfl, rfl, rfl, rfl⟩
  unfold Exec.eval at hsame
  unfold execute
  dsimp only
  generalize (Exec.instr s' _ i).run.run _ = out at hsame ⊢
  generalize (Exec.instr s _ i).run.run _ = out' at hsame ⊢
  obtain ⟨x, cpu, w₁, retired, hit⟩ := out
  obtain ⟨x', cpu', w₁', retired', hit'⟩ := out'
  obtain ⟨hx, ⟨hcpu, hworld, hretired, hhit⟩, -⟩ := hsame
  cases hx
  cases hcpu
  cases hworld
  cases hretired
  cases hhit
  rfl

/-- The worlds that remember more are related to those that show through them. -/
theorem tandem_shown (h : s'.Shows f s) : s'.Tandem (fun _ => True) (fun w' w => f w' = w) s where
  remaps {w' _} hw := hw ▸ h.remaps w'
  stamps {w' _} hw := hw ▸ h.stamps w'
  events {w' _} hw := hw ▸ h.events w'
  carries _ _ _ _ := trivial
  serve _ hw := by
    rw [← hw, serve_shown h]
    exact ⟨rfl, rfl, trivial, rfl⟩
  handFault _ _ _ hw := by
    rw [← hw, handFault_shown h]
    exact ⟨rfl, rfl, trivial, rfl⟩
  findTrace _ hw := by
    rw [← hw, findTrace_shown h]
    exact ⟨rfl, rfl, trivial, rfl⟩
  stopsAt _ _ _ hw := by
    rw [← hw, stopsAt_shown h]
    exact ⟨rfl, rfl, trivial, rfl⟩
  execute _ _ _ hw := by
    rw [← hw, execute_shown h]
    exact ⟨⟨rfl, rfl, trivial, rfl⟩, rfl⟩

theorem shown_of_inTandem {α : Type} {x : α × Processor × ω'} {y : α × Processor × ω}
    (h : InTandem (fun _ => True) (fun w' w => f w' = w) x y) : y = (x.1, x.2.1, f x.2.2) := by
  obtain ⟨houtcome, hprocessor, -, hworld⟩ := h
  rw [← houtcome, ← hprocessor, hworld]

theorem step_shown (h : s'.Shows f s) (limit : Nat) (point : Point) (p : Processor) (w : ω') :
    p.step s limit point (f w) = ((p.step s' limit point w).1, (p.step s' limit point w).2.1,
      f (p.step s' limit point w).2.2) :=
  shown_of_inTandem ((tandem_shown h).step trivial rfl limit point)

/-! ## Runs -/

/-- The run on worlds that remember more is the run on those that show through them. -/
theorem run_shown (h : s'.Shows f s) (budget : Nat) (p : Processor) (w : ω') :
    p.run s budget (f w) = ((p.run s' budget w).1, (p.run s' budget w).2.1, f (p.run s' budget w).2.2) :=
  shown_of_inTandem ((tandem_shown h).run trivial rfl budget)

/-- The loop comes to a point in the one just if it does in the other. -/
theorem visits_shown (h : s'.Shows f s) {limit : Nat} {p₀ : Processor} {w₀ : ω'} {point : Point} {p : Processor} {w : ω} :
    Visits s limit p₀ (f w₀) point p w ↔ ∃ w', f w' = w ∧ Visits s' limit p₀ w₀ point p w' := by
  constructor
  · intro hv
    induction hv with
    | start => exact ⟨w₀, rfl, .start⟩
    | @goto point next p p' w w₁ _ steps ih =>
      obtain ⟨w', rfl, hbefore⟩ := ih
      rw [step_shown h] at steps
      rcases hstep : p.step s' limit point w' with ⟨step, p₁, w₁'⟩
      rw [hstep] at steps
      cases steps
      exact ⟨w₁', rfl, .goto hbefore hstep⟩
  · rintro ⟨w', rfl, hv⟩
    induction hv with
    | start => exact .start
    | @goto point next p p' w w' _ steps ih =>
      have hstep := step_shown h limit point p w
      rw [steps] at hstep
      exact .goto ih hstep

end Processor

end TraceCore
