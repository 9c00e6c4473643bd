/-
When a machine has come to rest. The rounds stop once all processors reported that they are halted and no timer is left.
No deadline that came due in the round before was seen by a processor, so the machine is at rest just if none of them
raised what a halted processor does not sleep through: an interrupt, or a debugger's stop.
-/
import TraceCore.Machine.Basic
import TraceCore.Proofs.Cpu.Event
import TraceCore.Proofs.Processor.Kept
import TraceCore.Proofs.Processor.Progress
import TraceCore.Socket.Board

namespace TraceCore

/-! ## Events -/

namespace Events

variable {e : Events}

/-- What a halted processor does not sleep through. -/
def waking : Events := interrupt ∪ nmi ∪ debugStop

/-- One of the events wakes a halted processor, or stops it for a debugger. -/
def wakes (e : Events) : Bool := (e ∩ waking).any

theorem wakes_eq_false : e.wakes = false ↔ e.bits &&& 0x7 = 0 := any_eq_false

/-- A set without some events is without any of them. -/
theorem and_eq_zero_of_and {x mask part : UInt32} (h : x &&& mask = 0) (hpart : mask &&& part = part) :
    x &&& part = 0 := by
  rw [← hpart, ← UInt32.and_assoc, h, UInt32.zero_and]

theorem wakes_union (a b : Events) : (a ∪ b).wakes = (a.wakes || b.wakes) := by
  rw [Bool.eq_iff_iff, ← not_iff_not, Bool.or_eq_true, not_or, Bool.not_eq_true, Bool.not_eq_true, Bool.not_eq_true,
    wakes_eq_false, wakes_eq_false, wakes_eq_false, ← UInt32.or_eq_zero_iff]
  rw [show (a ∪ b).bits &&& 0x7 = a.bits &&& 0x7 ||| b.bits &&& 0x7 from
    UInt32.toBitVec_inj.1 BitVec.and_or_distrib_right]

theorem wakes_of_not_pending (h : e.pending.any = false) : e.wakes = false :=
  wakes_eq_false.2 (and_eq_zero_of_and (any_eq_false.1 h) (by decide))

/-- Leaving the trace aside and a debugger's stop taken, nothing is left that wakes if there was no interrupt. -/
theorem wakes_heard (h : (e.pending ∩ (interrupt ∪ nmi)).any = false) :
    ((e \ stopTrace) \ debugStop).wakes = false :=
  wakes_of_not_pending (pending_heard h)

/-- What wakes is a debugger's stop or an interrupt. -/
theorem wakes_eq_false_iff : e.wakes = false ↔
    ((e \ stopTrace).take debugStop).1.any = false ∧ (e.pending ∩ (interrupt ∪ nmi)).any = false := by
  have hstop : ((e \ stopTrace).take debugStop).1.any = false ↔ e.bits &&& 0x4 = 0 := by
    rw [any_eq_false]
    change e.bits &&& ~~~0x80000000 &&& 0x80000007 &&& 0x4 = 0 ↔ _
    rw [UInt32.and_assoc, UInt32.and_assoc]
    rfl
  have hnone : (e.pending ∩ (interrupt ∪ nmi)).any = false ↔ e.bits &&& 0x3 = 0 := by
    rw [any_eq_false]
    change e.bits &&& 0x80000007 &&& 0x3 = 0 ↔ _
    rw [UInt32.and_assoc]
    rfl
  have hsplit : e.bits &&& 0x7 = e.bits &&& 0x4 ||| e.bits &&& 0x3 :=
    UInt32.toBitVec_inj.1 (BitVec.and_or_distrib_left (x := e.bits.toBitVec) (y := 0x4) (z := 0x3))
  rw [wakes_eq_false, hsplit, UInt32.or_eq_zero_iff, hstop, hnone]

end Events

namespace TimerQueue

/-- Once no timer is left, all that there were have come due. -/
theorem due_of_size {q : TimerQueue} {now : Nat} (h : (q.due now).2.size = 0) : (q.due now).1 = q.deadlines := by
  have hnone : q.deadlines.dropWhile (·.tick ≤ now) = [] := List.length_eq_zero_iff.1 h
  have hall := List.takeWhile_append_dropWhile (p := fun d : Deadline => decide (d.tick ≤ now)) (l := q.deadlines)
  rw [hnone, List.append_nil] at hall
  exact hall

end TimerQueue

/-! ## Event lines -/

variable {ω : Type}

/-- Events and faults go to the caller, and each of the first `n` processors has its event line to itself: what is set
there is pending there, and nothing that another processor does changes it. The worlds are those with `I`. -/
structure Wiring.Private (W : Wiring ω) (n : Nat) (I : ω → Prop) : Prop where
  caller : W.delivery = .toCaller
  keeps : ∀ i < n, (W.socket i).Keeps I
  set : ∀ i < n, ∀ e w, I w → (W.line i).events ((W.line i).set e w) = e
  others : ∀ i < n, ∀ j < n, i ≠ j → ∀ e, (W.socket i).Keeps fun w => I w ∧ (W.line j).events w = e

/-- A guard that raises no events. -/
structure Guard.SparesLines {γ δ : Type} (g : Guard (Board γ δ)) : Prop where
  stopsBefore : ∀ rip w, (g.stopsBefore rip w).2.lines = w.lines
  watches : ∀ addr len kind w, (g.watches addr len kind w).2.lines = w.lines

theorem Guard.sparesLines_none {γ δ : Type} : (Guard.none : Guard (Board γ δ)).SparesLines :=
  ⟨fun _ _ => rfl, fun _ _ _ _ => rfl⟩

/-- A processor keeps what can be said of the lines, if setting its own does. -/
theorem Board.keeps_lines {γ δ : Type} {g : Guard (Board γ δ)} (hg : g.SparesLines) {Q : Array Events → Prop} {i : Nat}
    (hset : ∀ e lines, Q lines → Q (lines.setIfInBounds i e)) :
    ((Board.wiring g .toCaller).socket i).Keeps fun w => Q w.lines where
  translate _ _ _ _ h := h
  read _ _ _ h := h
  write _ _ _ h := h
  register _ _ _ h := h
  stopsBefore rip w h := (congrArg Q (hg.stopsBefore rip w)).mpr h
  watches addr len kind w h := (congrArg Q (hg.watches addr len kind w)).mpr h
  events _ w h := hset _ w.lines h
  fault _ _ _ _ h := h
  set e w h := hset e w.lines h

/-- On a board with a line for each, lines are private. -/
theorem Board.private_wiring {γ δ : Type} {g : Guard (Board γ δ)} (hg : g.SparesLines) (n : Nat) :
    (Board.wiring g .toCaller).Private n fun w => n ≤ w.lines.size := by
  refine ⟨rfl, fun i _ => ?_, fun i hi e w hw => ?_, fun i _ j _ hij e => ?_⟩
  · exact Board.keeps_lines hg (Q := fun lines => n ≤ lines.size) fun e lines h => by simpa using h
  · show (w.lines.setIfInBounds i e).getD i {} = e
    simp [show i < w.lines.size by omega]
  · refine Board.keeps_lines hg (Q := fun lines => n ≤ lines.size ∧ lines.getD j {} = e) ?_
    rintro e' lines ⟨hsize, hevents⟩
    refine ⟨by simpa using hsize, ?_⟩
    rw [← hevents]
    simp [hij]

/-- Nothing is pending on the line that wakes its processor. -/
def Wiring.Still (W : Wiring ω) (i : Nat) (w : ω) : Prop := ((W.line i).events w).wakes = false

namespace Processor

variable {W : Wiring ω} {n i : Nat} {I : ω → Prop} {p p' : Processor} {w w' : ω}

theorem serve_eq_none_iff (hW : W.Private n I) (hi : i < n) (hw : I w) :
    (serve (W.socket i) p w).1 = none ↔ W.Still i w := by
  have hcleared : (W.line i).events ((W.line i).clear .stopTrace w) = (W.line i).events w \ .stopTrace :=
    hW.set i hi _ w hw
  unfold serve Wiring.Still
  dsimp only [Wiring.socket, EventLine.take]
  rw [hW.caller, hcleared]
  split
  case isTrue hquiet => simp [Events.wakes_of_not_pending (by simpa using hquiet)]
  case isFalse =>
    rw [Events.wakes_eq_false_iff]
    split
    case isTrue hstop => simp [hstop]
    case isFalse hstop =>
      rw [Bool.not_eq_true] at hstop
      split
      case isTrue hnone => simp [Delivery.toCaller, hnone]
      case isFalse hnone =>
        rw [Bool.not_eq_true] at hnone
        simp [hstop, hnone]

/-- Where nothing wakes the processor, it goes on as it is, and nothing does afterwards. -/
theorem serve_of_still (hW : W.Private n I) (hi : i < n) (hw : I w) (hstill : W.Still i w) (p : Processor) :
    ∃ w', serve (W.socket i) p w = (none, p, w') ∧ I w' ∧ W.Still i w' := by
  have hnone := (serve_eq_none_iff (p := p) hW hi hw).2 hstill
  have hcleared : I ((W.line i).clear .stopTrace w) := (hW.keeps i hi).set _ w hw
  have hheard : I (heard (W.socket i) w) := (hW.keeps i hi).set _ _ hcleared
  have hwithout : (W.line i).events ((W.line i).clear .stopTrace w) = (W.line i).events w \ .stopTrace :=
    hW.set i hi _ w hw
  have hevents : (W.line i).events (heard (W.socket i) w) = ((W.line i).events w \ .stopTrace) \ .debugStop := by
    rw [← hwithout]
    exact hW.set i hi _ _ hcleared
  have hserved := served_serve (W.socket i) p w
  generalize serve (W.socket i) p w = out at hserved hnone ⊢
  cases hserved with
  | quiet => exact ⟨w, rfl, hw, hstill⟩
  | stopped => cases hnone
  | passed =>
    refine ⟨_, rfl, hheard, ?_⟩
    unfold Wiring.Still
    rw [hevents]
    exact Events.wakes_heard (Events.wakes_eq_false_iff.1 hstill).2
  | resumed cpu w' answer =>
    rw [show (W.socket i).delivery = .toCaller from hW.caller] at answer
    cases answer
  | exited => cases hnone

/-! ## Turns -/

/-- A halted processor that nothing wakes reports that it is halted, and has run nothing. -/
theorem run_of_asleep (hW : W.Private n I) (hi : i < n) (hw : I w) (hhalted : p.cpu.halted = true)
    (hstill : W.Still i w) (budget : Nat) : ∃ w',
      p.run (W.socket i) budget w = (.halted, { p with linker := p.linker.reset }, w') ∧ I w' ∧ W.Still i w' := by
  obtain ⟨w', hserve, hw', hstill'⟩ := serve_of_still hW hi hw hstill { p with linker := p.linker.reset }
  exact ⟨w', run_of_halted hserve hhalted budget, hw', hstill'⟩

/-- Only at a boundary where nothing else is to be done does the loop leave as halted. -/
theorem served_of_step_halted {s : Socket ω} {limit : Nat} {point : Point}
    (h : p.step s limit point w = (.leave .halted, p', w')) :
    serve s { p with linker := p.linker.reset } w = (none, p', w') ∧ p'.cpu.halted = true := by
  cases point with
  | boundary =>
    have hbounded := bounded_stepBoundary s limit p w
    rw [show p.stepBoundary s limit w = _ from h] at hbounded
    generalize hout : (Step.leave Exit.halted, p', w') = out at hbounded
    cases hbounded with
    | left exit p₁ w₁ served =>
      cases hout
      have hserved := served_serve s { p with linker := p.linker.reset } w
      rw [served] at hserved
      cases hserved
    | halted p₁ w₁ served asleep =>
      cases hout
      exact ⟨served, asleep⟩
    | spent => cases hout
    | searched p₁ w₁ =>
      unfold searched at hout
      split at hout
      case h_1 => cases fatal_of_handFault (congrArg Prod.fst hout.symm)
      case h_2 => cases hout
  | record index left generation branch =>
    obtain hnone | ⟨fault, hnone⟩ := exit_of_stepRecord (congrArg Prod.fst h) <;> cases hnone

/-- A processor that reports that it is halted is, and nothing woke it before or wakes it now. -/
theorem asleep_of_run (hW : W.Private n I) (hi : i < n) (hw : I w) {budget : Nat}
    (h : (p.run (W.socket i) budget w).1 = .halted) :
    W.Still i w ∧ (p.run (W.socket i) budget w).2.1.cpu.halted = true ∧
      W.Still i (p.run (W.socket i) budget w).2.2 := by
  have hstart : W.Still i w := by
    rcases hserve : serve (W.socket i) { p with linker := p.linker.reset } w with ⟨_ | exit, p₁, w₁⟩
    · exact (serve_eq_none_iff hW hi hw).1 (by rw [hserve])
    · have hstep : p.step (W.socket i) (p.limitFor budget) .boundary w = (.leave exit, p₁, w₁) := by
        unfold step stepBoundary
        dsimp only
        rw [hserve]
      unfold run at h
      rw [runSteps, hstep] at h
      obtain rfl : exit = .halted := h
      have hserved := served_serve (W.socket i) { p with linker := p.linker.reset } w
      rw [hserve] at hserved
      cases hserved
  unfold run at h ⊢
  rcases hout : runSteps (W.socket i) (p.limitFor budget) (2 * budget + 1) .boundary p w with ⟨_ | exit, p', w'⟩
  · rw [hout] at h
    cases h
  · rw [hout] at h
    obtain rfl : exit = .halted := h
    obtain ⟨point, q, v, hvisits, hstep⟩ := Visits.leaves .start hout
    obtain ⟨hserve, hhalted⟩ := served_of_step_halted hstep
    have hv : I v := (hW.keeps i hi).visits hw hvisits
    have hstill := (serve_eq_none_iff hW hi hv).1 (by rw [hserve])
    obtain ⟨v', hserve', -, hstill'⟩ := serve_of_still hW hi hv hstill { q with linker := q.linker.reset }
    rw [hserve] at hserve'
    cases hserve'
    exact ⟨hstart, hhalted, hstill'⟩

end Processor

namespace Machine

variable {W : Wiring ω} {n : Nat} {I Q : ω → Prop} {quantum index : Nat} {cpus : List Processor} {w : ω}

/-! ## Rounds -/

theorem runTurns_cons (W : Wiring ω) (quantum index : Nat) (p : Processor) (rest : List Processor) (w : ω) :
    runTurns W quantum index (p :: rest) w =
      let (exit, p', w') := p.run (W.socket index) quantum w
      let (turns, rest, w') := runTurns W quantum (index + 1) rest w'
      ({ cpu := p'.id, exit, executed := p'.retired - p.retired } :: turns, p' :: rest, w') := rfl

theorem length_runTurns (W : Wiring ω) (quantum index : Nat) (cpus : List Processor) (w : ω) :
    (runTurns W quantum index cpus w).2.1.length = cpus.length := by
  induction cpus generalizing index w with
  | nil => rfl
  | cons p rest ih =>
    rw [runTurns_cons]
    dsimp only
    rw [List.length_cons, List.length_cons, ih]

/-- What the socket of each processor keeps, their turns keep. -/
theorem runTurns_keeps (h : ∀ i, index ≤ i → i < index + cpus.length → (W.socket i).Keeps Q) (hw : Q w) :
    Q (runTurns W quantum index cpus w).2.2 := by
  induction cpus generalizing index w with
  | nil => exact hw
  | cons p rest ih =>
    rw [runTurns_cons]
    rw [List.length_cons] at h
    refine ih (fun i hle hlt => h i (by omega) (by omega)) ?_
    exact (h index (Nat.le_refl _) (by omega)).run quantum p hw

/-- Turns of others leave a line as it is. -/
theorem events_runTurns (hW : W.Private n I) (hn : index + cpus.length ≤ n) (hw : I w) {j : Nat} (hj : j < index) :
    (W.line j).events (runTurns W quantum index cpus w).2.2 = (W.line j).events w := by
  have hsockets : ∀ i, index ≤ i → i < index + cpus.length →
      (W.socket i).Keeps fun w' => I w' ∧ (W.line j).events w' = (W.line j).events w :=
    fun i hle hlt => hW.others i (by omega) j (by omega) (by omega) _
  exact (runTurns_keeps hsockets ⟨hw, rfl⟩).2

theorem events_run (hW : W.Private n I) {i j : Nat} (hi : i < n) (hj : j < n) (hij : i ≠ j) (hw : I w) (p : Processor)
    (quantum : Nat) :
    (W.line j).events (p.run (W.socket i) quantum w).2.2 = (W.line j).events w :=
  ((hW.others i hi j hj hij _).run quantum p ⟨hw, rfl⟩).2

/-- If all report that they are halted, then all are, and nothing wakes any of them, before or after. -/
theorem asleep_of_runTurns (hW : W.Private n I) (hn : index + cpus.length ≤ n) (hw : I w)
    (h : ∀ t ∈ (runTurns W quantum index cpus w).1, t.exit = .halted) :
    (∀ p ∈ (runTurns W quantum index cpus w).2.1, p.cpu.halted = true) ∧
      ∀ i, index ≤ i → i < index + cpus.length →
        W.Still i w ∧ W.Still i (runTurns W quantum index cpus w).2.2 := by
  induction cpus generalizing index w with
  | nil =>
    refine ⟨fun p hp => absurd hp List.not_mem_nil, fun i hle hlt => absurd hlt ?_⟩
    rw [List.length_nil]
    omega
  | cons p rest ih =>
    rw [List.length_cons] at hn ⊢
    have hindex : index < n := by omega
    rw [runTurns_cons] at h ⊢
    dsimp only at h ⊢
    obtain ⟨hstart, hhalted, hend⟩ := Processor.asleep_of_run hW hindex hw (h _ List.mem_cons_self)
    have hw₁ := (hW.keeps index hindex).run quantum p hw
    -- the first turn leaves the other lines alone, and later turns leave its line alone
    have hothers := fun j (hj : j < n) (hne : index ≠ j) => events_run hW hindex hj hne hw p quantum
    generalize p.run (W.socket index) quantum w = out at h hhalted hend hw₁ hothers ⊢
    obtain ⟨exit, p₁, w₁⟩ := out
    dsimp only at h hhalted hend hw₁ hothers ⊢
    obtain ⟨hrest, hstill⟩ := ih (show index + 1 + rest.length ≤ n by omega) hw₁ fun t ht =>
      h t (List.mem_cons_of_mem _ ht)
    refine ⟨fun q hq => ?_, fun i hle hlt => ?_⟩
    · rcases List.mem_cons.1 hq with rfl | hq
      · exact hhalted
      · exact hrest q hq
    · rcases Nat.eq_or_lt_of_le hle with rfl | hlater
      · refine ⟨hstart, ?_⟩
        unfold Wiring.Still at hend ⊢
        rwa [events_runTurns hW (by omega) hw₁ (Nat.lt_succ_self _)]
      · obtain ⟨hbefore, hafter⟩ := hstill i hlater (by omega)
        refine ⟨?_, hafter⟩
        unfold Wiring.Still at hbefore ⊢
        rwa [hothers i (by omega) (by omega)] at hbefore

/-- Processors that are halted, with nothing that wakes them, report that they are halted and run nothing. -/
theorem runTurns_of_asleep (hW : W.Private n I) (hn : index + cpus.length ≤ n) (hw : I w)
    (hhalted : ∀ p ∈ cpus, p.cpu.halted = true) (hstill : ∀ i, index ≤ i → i < index + cpus.length → W.Still i w) :
    ∀ t ∈ (runTurns W quantum index cpus w).1, t.exit = .halted ∧ t.executed = 0 := by
  induction cpus generalizing index w with
  | nil => exact fun t ht => absurd ht List.not_mem_nil
  | cons p rest ih =>
    rw [List.length_cons] at hn hstill
    have hindex : index < n := by omega
    have hothers := fun j (hj : j < n) (hne : index ≠ j) => events_run hW hindex hj hne hw p quantum
    obtain ⟨w₁, hrun, hw₁, -⟩ := Processor.run_of_asleep hW hindex hw (hhalted p List.mem_cons_self)
      (hstill index (Nat.le_refl _) (by omega)) quantum
    rw [runTurns_cons]
    rw [hrun] at hothers ⊢
    intro t ht
    rcases List.mem_cons.1 ht with rfl | ht
    · exact ⟨rfl, Nat.sub_self _⟩
    · refine ih (by omega) hw₁ (fun q hq => hhalted q (List.mem_cons_of_mem _ hq)) (fun i hle hlt => ?_) t ht
      unfold Wiring.Still
      rw [hothers i (by omega) (by omega)]
      exact hstill i (by omega) (by omega)

/-! ## Timers -/

variable {m m₀ : Machine ω}

/-- Raising events on a line wakes its processor just if one of them does. -/
theorem still_raise (hW : W.Private n I) (hw : I w) {d : Deadline} (hd : d.cpu < n) {i : Nat} (hi : i < n) :
    I ((W.line d.cpu).raise d.events w) ∧ (W.Still i ((W.line d.cpu).raise d.events w) ↔
      W.Still i w ∧ (d.cpu = i → d.events.wakes = false)) := by
  refine ⟨(hW.keeps d.cpu hd).set _ w hw, ?_⟩
  unfold Wiring.Still EventLine.raise
  by_cases hcpu : d.cpu = i
  · subst hcpu
    rw [hW.set d.cpu hi _ w hw, Events.wakes_union]
    simp
  · have hothers := (hW.others d.cpu hd i hi hcpu ((W.line i).events w)).set ((W.line d.cpu).events w ∪ d.events) w
      ⟨hw, rfl⟩
    rw [show (W.line i).events ((W.line d.cpu).set ((W.line d.cpu).events w ∪ d.events) w) = (W.line i).events w
      from hothers.2]
    simp [hcpu]

theorem inv_fire (hW : m.wiring.Private m.cpus.length I) (hw : I m.world) : I m.fire.world := by
  refine List.foldlRecOn (m.timers.due m.ticks).1 _ hw fun w hw d _ => ?_
  split
  case isTrue hd => exact (hW.keeps d.cpu hd).set _ w hw
  case isFalse => exact hw

/-- What has come due wakes a processor just if one of its events does. -/
theorem still_fire (hW : m.wiring.Private m.cpus.length I) (hw : I m.world) {i : Nat} (hi : i < m.cpus.length) :
    m.wiring.Still i m.fire.world ↔
      m.wiring.Still i m.world ∧ ∀ d ∈ (m.timers.due m.ticks).1, d.cpu = i → d.events.wakes = false := by
  -- by induction on what has come due, for any world that it is raised in
  have hfold : ∀ (ds : List Deadline) (w : ω), I w →
      (m.wiring.Still i
        (ds.foldl (fun w d => if d.cpu < m.cpus.length then (m.wiring.line d.cpu).raise d.events w else w) w) ↔
          m.wiring.Still i w ∧ ∀ d ∈ ds, d.cpu = i → d.events.wakes = false) := by
    intro ds
    induction ds with
    | nil => exact fun w _ => by simp
    | cons d ds ih =>
      intro w hw
      rw [List.foldl_cons]
      simp only [List.forall_mem_cons]
      split
      case isTrue hd =>
        obtain ⟨hraised, hiff⟩ := still_raise hW hw hd hi
        rw [ih _ hraised, hiff, and_assoc]
      case isFalse hd =>
        refine (ih w hw).trans (and_congr_right fun _ => ⟨fun h => ⟨fun hcpu => ?_, h⟩, And.right⟩)
        exact absurd (by rw [hcpu]; exact hi) hd
  exact hfold _ _ hw

/-! ## Rest -/

/-- The machine some rounds later, with nothing done to it in between. -/
def later (m : Machine ω) : Nat → Machine ω
  | 0 => m
  | k + 1 => (m.later k).round.2

/-- In every further round all processors report that they are halted, and none has run anything. -/
def Quiescent (m : Machine ω) : Prop := ∀ k, ∀ t ∈ (m.later k).round.1.turns, t.exit = .halted ∧ t.executed = 0

/-- All processors are halted, nothing wakes them, and no timer is left that could. -/
structure Asleep (m : Machine ω) : Prop where
  halted : ∀ p ∈ m.cpus, p.cpu.halted = true
  still : ∀ i < m.cpus.length, m.wiring.Still i m.world
  timers : m.timers.size = 0

/-- The rounds from `m` on stop before the limit of `n`, and the last of them is that of the second machine. -/
inductive HaltsAt : Machine ω → Nat → Machine ω → Prop
  | now {m : Machine ω} {k : Nat} (halted : m.round.1.allHalted = true) (timers : m.round.2.timers.size = 0) :
      HaltsAt m (k + 1) m
  | next {m m₀ : Machine ω} {k : Nat} (onward : ¬(m.round.1.allHalted = true ∧ m.round.2.timers.size = 0))
      (rest : HaltsAt m.round.2 k m₀) : HaltsAt m (k + 1) m₀

/-- The machine once all have had their turn, before anything comes due. -/
def ran (m : Machine ω) : Machine ω :=
  let turns := runTurns m.wiring m.quantum 0 m.cpus m.world
  { m with
    world := turns.2.2
    cpus := turns.2.1
    ticks := min (m.ticks + max ((turns.1.map (·.executed)).foldl max 0) 1) (UInt64.size - 1)
    rounds := m.rounds + 1 }

theorem round_eq_fire (m : Machine ω) : m.round.2 = m.ran.fire := by cases m; rfl

theorem turns_round (m : Machine ω) : m.round.1.turns = (runTurns m.wiring m.quantum 0 m.cpus m.world).1 := by
  cases m; rfl

theorem halted_of_allHalted (h : m.round.1.allHalted = true) :
    ∀ t ∈ (runTurns m.wiring m.quantum 0 m.cpus m.world).1, t.exit = .halted := by
  rw [← turns_round]
  intro t ht
  simpa using List.all_eq_true.1 h t ht

theorem wiring_round (m : Machine ω) : m.round.2.wiring = m.wiring := by rw [round_eq_fire]; rfl

theorem cpus_round (m : Machine ω) : m.round.2.cpus = (runTurns m.wiring m.quantum 0 m.cpus m.world).2.1 := by
  rw [round_eq_fire]; rfl

theorem length_cpus_round (m : Machine ω) : m.round.2.cpus.length = m.cpus.length := by
  rw [cpus_round]
  exact length_runTurns ..

/-- The wiring stays, and what comes due is all that is pending behind a round besides what the turns left. -/
theorem private_round (hW : m.wiring.Private m.cpus.length I) (hw : I m.world) :
    m.round.2.wiring.Private m.round.2.cpus.length I ∧ I m.round.2.world ∧
      ∀ i < m.cpus.length, m.wiring.Still i m.round.2.world ↔
        m.wiring.Still i m.ran.world ∧ ∀ d ∈ (m.timers.due m.ran.ticks).1, d.cpu = i → d.events.wakes = false := by
  have hran : I m.ran.world := runTurns_keeps (fun i _ hlt => hW.keeps i (by omega)) hw
  have hprivate : m.ran.wiring.Private m.ran.cpus.length I := by
    rw [show m.ran.cpus.length = m.cpus.length from length_runTurns ..]
    exact hW
  rw [wiring_round, length_cpus_round, round_eq_fire]
  refine ⟨hW, inv_fire hprivate hran, fun i hi => ?_⟩
  exact still_fire hprivate hran (by rw [show m.ran.cpus.length = m.cpus.length from length_runTurns ..]; exact hi)

/-- When all reported that they are halted, they are, and only what came due behind their turns can wake them. -/
theorem asleep_round_iff (hW : m.wiring.Private m.cpus.length I) (hw : I m.world) (h : m.round.1.allHalted = true)
    (htimers : m.round.2.timers.size = 0) :
    m.round.2.Asleep ↔ ∀ d ∈ m.timers.deadlines, d.cpu < m.cpus.length → d.events.wakes = false := by
  obtain ⟨hhalted, hstill⟩ := asleep_of_runTurns hW (Nat.le_of_eq (Nat.zero_add _)) hw (halted_of_allHalted h)
  obtain ⟨-, -, hiff⟩ := private_round hW hw
  have hdue : (m.timers.due m.ran.ticks).1 = m.timers.deadlines :=
    TimerQueue.due_of_size (by rw [round_eq_fire] at htimers; exact htimers)
  rw [hdue] at hiff
  constructor
  · rintro ⟨-, hlines, -⟩ d hd hcpu
    rw [wiring_round, length_cpus_round] at hlines
    exact ((hiff d.cpu hcpu).1 (hlines d.cpu hcpu)).2 d hd rfl
  · intro hevents
    refine ⟨by rw [cpus_round]; exact hhalted, fun i hi => ?_, htimers⟩
    rw [length_cpus_round] at hi
    rw [wiring_round, hiff i hi]
    refine ⟨(hstill i (Nat.zero_le _) (by omega)).2, fun d hd hcpu => hevents d hd (by rw [hcpu]; exact hi)⟩

/-- A round of a machine that sleeps runs nothing, and it sleeps on. -/
theorem Asleep.round (h : m.Asleep) (hW : m.wiring.Private m.cpus.length I) (hw : I m.world) :
    (∀ t ∈ m.round.1.turns, t.exit = .halted ∧ t.executed = 0) ∧ m.round.2.Asleep := by
  have hturns : ∀ t ∈ (runTurns m.wiring m.quantum 0 m.cpus m.world).1, t.exit = .halted ∧ t.executed = 0 :=
    runTurns_of_asleep hW (Nat.le_of_eq (Nat.zero_add _)) hw h.halted fun i _ hi => h.still i (by omega)
  have hnone : m.timers.deadlines = [] := List.length_eq_zero_iff.1 h.timers
  rw [turns_round]
  refine ⟨hturns, (asleep_round_iff hW hw ?_ ?_).2 (by rw [hnone]; exact nofun)⟩
  · refine List.all_eq_true.2 fun t ht => ?_
    rw [turns_round] at ht
    simpa using (hturns t ht).1
  · rw [round_eq_fire]
    show (m.timers.deadlines.dropWhile _).length = 0
    rw [hnone]
    rfl

/-- A machine is at rest just if it sleeps, once its processors are halted and no timer is left. -/
theorem quiescent_iff_asleep (hW : m.wiring.Private m.cpus.length I) (hw : I m.world)
    (hhalted : ∀ p ∈ m.cpus, p.cpu.halted = true) (htimers : m.timers.size = 0) : m.Quiescent ↔ m.Asleep := by
  constructor
  · intro h
    have hturns : ∀ t ∈ (runTurns m.wiring m.quantum 0 m.cpus m.world).1, t.exit = .halted := by
      rw [← turns_round]
      exact fun t ht => (h 0 t ht).1
    obtain ⟨-, hstill⟩ := asleep_of_runTurns hW (Nat.le_of_eq (Nat.zero_add _)) hw hturns
    exact ⟨hhalted, fun i hi => (hstill i (Nat.zero_le _) (by omega)).1, htimers⟩
  · intro h k
    have hlater : (m.later k).Asleep ∧ (m.later k).wiring.Private (m.later k).cpus.length I ∧ I (m.later k).world := by
      induction k with
      | zero => exact ⟨h, hW, hw⟩
      | succ k ih =>
        obtain ⟨hasleep, hprivate, hworld⟩ := ih
        obtain ⟨hprivate', hworld', -⟩ := private_round hprivate hworld
        exact ⟨(hasleep.round hprivate hworld).2, hprivate', hworld'⟩
    exact (hlater.1.round hlater.2.1 hlater.2.2).1

/-! ## Running until all are halted -/

/-- What the rounds keep, the machine before the last of them has. -/
theorem HaltsAt.spec {k : Nat} (h : m.HaltsAt k m₀) (hW : m.wiring.Private m.cpus.length I) (hw : I m.world) :
    m.runToHalt k = m₀.round.2 ∧ m₀.round.1.allHalted = true ∧ m₀.round.2.timers.size = 0 ∧
      m₀.cpus.length = m.cpus.length ∧ m₀.wiring.Private m₀.cpus.length I ∧ I m₀.world := by
  induction h with
  | @now m k halted timers =>
    refine ⟨?_, halted, timers, rfl, hW, hw⟩
    unfold runToHalt
    dsimp only
    rw [if_pos (by simp [halted, timers])]
  | @next m m₀ k onward rest ih =>
    obtain ⟨hprivate, hworld, -⟩ := private_round hW hw
    obtain ⟨hrun, hhalted, htimers, hlength, hprivate', hworld'⟩ := ih hprivate hworld
    refine ⟨?_, hhalted, htimers, hlength.trans (length_cpus_round m), hprivate', hworld'⟩
    unfold runToHalt
    dsimp only
    rw [if_neg (by simpa using onward)]
    exact hrun

/-- A machine that ran until all were halted has no timer left. It is at rest just if none of the timers that were left
before the last round wakes its processor. -/
theorem quiescent_runToHalt_iff {k : Nat} (hW : m.wiring.Private m.cpus.length I) (hw : I m.world)
    (h : m.HaltsAt k m₀) : m.runToHalt k = m₀.round.2 ∧ (m.runToHalt k).timers.size = 0 ∧
      ((m.runToHalt k).Quiescent ↔
        ∀ d ∈ m₀.timers.deadlines, d.cpu < m.cpus.length → d.events.wakes = false) := by
  obtain ⟨hrun, hhalted, htimers, hlength, hprivate, hworld⟩ := h.spec hW hw
  obtain ⟨hprivate', hworld', -⟩ := private_round hprivate hworld
  have hasleep := asleep_round_iff hprivate hworld hhalted htimers
  rw [hrun, ← hlength, ← hasleep]
  refine ⟨rfl, htimers, quiescent_iff_asleep hprivate' hworld' ?_ htimers⟩
  rw [cpus_round]
  exact (asleep_of_runTurns hprivate (Nat.le_of_eq (Nat.zero_add _)) hworld (halted_of_allHalted hhalted)).1

/-! ## A timer in the last round -/

/-- `hlt`, `inc eax`, `hlt` on a page of zeros. -/
def napBoard : Board Unit Unit := ⟨{ ram := Ram.zeroPage.store 0 [0xF4, 0x40, 0xF4] }, (), (), #[{}]⟩

/-- A processor there, on which `events` are raised after one tick. -/
def napper (events : Events) : Machine (Board Unit Unit) :=
  { schedule := {}, wiring := Board.wiring .none .toCaller, world := napBoard
    cpus := [Processor.small (.new .protectedMode)], timers := ({} : TimerQueue).push 1 0 events
    ticks := 0, rounds := 0 }

/-- Both stop after one round. The interrupt of that round is still pending, and the other event wakes nobody. -/
theorem quiescent_napper :
    ¬((napper .interrupt).runToHalt 10).Quiescent ∧ ((napper .stopTrace).runToHalt 10).Quiescent := by
  have hinterrupt := quiescent_runToHalt_iff (m := napper .interrupt) (Board.private_wiring Guard.sparesLines_none 1)
    (Nat.le_refl 1) (.now (k := 9) (by decide +kernel) (by decide +kernel))
  have hstop := quiescent_runToHalt_iff (m := napper .stopTrace) (Board.private_wiring Guard.sparesLines_none 1)
    (Nat.le_refl 1) (.now (k := 9) (by decide +kernel) (by decide +kernel))
  rw [hinterrupt.2.2, hstop.2.2]
  decide +kernel

end Machine

end TraceCore
