/-
Events are heeded. Let events be raised on a processor's line, before a run or by bus or guard in the course of it, and
not be taken off again by these at once. Then at most one more record is executed until the run has returned or its loop is back
at the top, where it samples the line, and of a repeated instruction at most an interval of iterations. The events stay
on the line until the delivery takes them off, unless they are the word to leave a trace, or a debugger's stop that the
run returns with. That is so for any bus, decoder, guard and delivery.
-/
import TraceCore.Proofs.Processor.Logged
import TraceCore.Proofs.Processor.Quantum
import TraceCore.Proofs.Processor.Watched

namespace TraceCore

variable {ω : Type} {s : Socket ω} {e : Events}

/-! ## Raised and not taken off -/

/-- Among these actions is none by which bus or guard takes the events off the line. -/
def Spared (e : Events) (log : List Action) : Prop := ∀ a ∈ log, a.outside → ¬a.takes e

theorem Spared.append {later earlier : List Action} (h : Spared e later) (h' : Spared e earlier) :
    Spared e (later ++ earlier) := by
  intro a ha
  rcases List.mem_append.1 ha with ha | ha
  · exact h a ha
  · exact h' a ha

/-- Between two worlds with logs, neither bus nor guard took the events off the line. -/
def SparedIn (e : Events) (l l' : Logged ω) : Prop := ∃ new, l'.log = new ++ l.log ∧ Spared e new

/-- Between two worlds with logs, bus or guard left the events on the line, and neither took them off since. -/
def Raised (e : Events) (l l' : Logged ω) : Prop :=
  ∃ later a earlier, l'.log = later ++ a :: (earlier ++ l.log) ∧ a.outside ∧ e.Within a.after ∧ Spared e later

/-- The events were on the line or were raised, and neither bus nor guard took them off since. -/
def Up (s : Socket ω) (e : Events) (l l' : Logged ω) : Prop :=
  e.Within (s.line.events l.world) ∧ SparedIn e l l' ∨ Raised e l l'

variable {l l₁ l' : Logged ω}

theorem SparedIn.before (h : SparedIn e l l') (hfirst : l.log <:+ l₁.log) (hlast : l₁.log <:+ l'.log) :
    SparedIn e l l₁ := by
  obtain ⟨new, hlog, hspared⟩ := h
  obtain ⟨first, hfirst⟩ := hfirst
  obtain ⟨last, hlast⟩ := hlast
  have hnew : new = last ++ first := by
    refine List.append_cancel_right (hlog.symm.trans ?_)
    rw [← hlast, ← hfirst, List.append_assoc]
  rw [hnew] at hspared
  exact ⟨first, hfirst.symm, fun a ha => hspared a (List.mem_append_right _ ha)⟩

theorem Up.trans (h : Up s e l l₁) (h' : SparedIn e l₁ l') : Up s e l l' := by
  obtain ⟨last, hlast, hspared'⟩ := h'
  rcases h with ⟨he, new, hlog, hspared⟩ | ⟨later, a, earlier, hlog, hout, he, hspared⟩
  · exact Or.inl ⟨he, last ++ new, by rw [hlast, hlog, List.append_assoc], hspared'.append hspared⟩
  · exact Or.inr ⟨last ++ later, a, earlier, by rw [hlast, hlog, List.append_assoc], hout, he, hspared'.append hspared⟩

/-- Where bus and guard did not act at first, they raised what they raised afterwards. -/
theorem Raised.after (h : Raised e l l') {first last : List Action} (hfirst : l₁.log = first ++ l.log)
    (hlast : l'.log = last ++ l₁.log) (hinside : ∀ a ∈ first, ¬a.outside) : Raised e l₁ l' := by
  obtain ⟨later, a, earlier, hlog, hout, he, hspared⟩ := h
  have hsame : later ++ a :: earlier = last ++ first := by
    refine List.append_cancel_right (show later ++ a :: earlier ++ l.log = last ++ first ++ l.log from ?_)
    rw [List.append_assoc, List.cons_append, ← hlog, hlast, hfirst, List.append_assoc]
  rcases List.append_eq_append_iff.1 hsame with ⟨c, hc, hrest⟩ | ⟨c, -, hc⟩
  · cases c with
    | nil => exact absurd hout (hinside a (by rw [← List.nil_append first, ← hrest]; exact List.mem_cons_self))
    | cons b c =>
      cases hrest
      exact ⟨later, a, c, by rw [hlast, hc, List.append_assoc, List.cons_append], hout, he, hspared⟩
  · exact absurd hout (hinside a (by rw [hc]; exact List.mem_append_right _ List.mem_cons_self))

/-- While nobody but bus and guard acts, the events stay on the line. -/
theorem Asked.within (h : Asked s l l') (he : Up s e l l') : e.Within (s.line.events l'.world) := by
  obtain ⟨new, hacted, hout⟩ := h
  have hkept : ∀ {actions : List Action}, (∀ a ∈ actions, a ∈ new) → Spared e actions → ∀ a ∈ actions, ¬a.takes e :=
    fun hmem hspared a ha => hspared a ha (hout a (hmem a ha))
  rcases he with ⟨he, new', hlog, hspared⟩ | ⟨later, a, earlier, hlog, -, he, hspared⟩
  · cases List.append_cancel_right (hacted.log.symm.trans hlog)
    exact hacted.chain.within (hkept (fun _ => id) hspared) he
  · obtain rfl : new = later ++ a :: earlier := by
      refine List.append_cancel_right (hacted.log.symm.trans ?_)
      rw [hlog, List.append_assoc, List.cons_append]
    obtain ⟨middle, hearlier, hlater⟩ := hacted.chain.split
    cases hearlier
    exact hlater.within (hkept (fun _ => List.mem_append_left _) hspared) he

/-- What an iteration does is put down first. -/
theorem Exec.suffix_iterate (s : Socket ω) (frame : Frame) (i : Instr) (op : StringOp) (width : Width) (n since : Nat)
    (r : Running (Logged ω)) :
    (eval (element s.logging.bus s.logging.guard i op width) r).2.world.log <:+
      (eval (iterate s.logging.line frame i (element s.logging.bus s.logging.guard i op width) (n + 1) since)
        r).2.world.log := by
  generalize hlog : (eval (element s.logging.bus s.logging.guard i op width) r).2.world.log = log
  have hgrows := (keeps_suffix s log).leaves
  refine iterate_keeps_after (Q := fun l : Logged ω => log <:+ l.log)
    (iterate_keeps (Q := fun l : Logged ω => log <:+ l.log) (element_keeps hgrows.instr i op width) n) since ?_
  simp only [hlog, List.suffix_refl]

/-- In the loop of a repeated instruction, no more than what is left of an interval is executed from the head of the
iteration on in which the events were raised, that one included: the next check finds them. -/
theorem Exec.retired_of_raised {frame : Frame} {i : Instr} {op : StringOp} {width : Width} {n since : Nat} {l : Logged ω}
    {r : Running (Logged ω)} (hl : Asked s l r.world) (he : e.any = true)
    (hup : Up s e l (eval (element s.logging.bus s.logging.guard i op width) r).2.world)
    (hspared : SparedIn e (eval (element s.logging.bus s.logging.guard i op width) r).2.world
      (eval (iterate s.logging.line frame i (element s.logging.bus s.logging.guard i op width) n since) r).2.world)
    (hsince : since < max frame.interval 1) :
    (eval (iterate s.logging.line frame i (element s.logging.bus s.logging.guard i op width) n since) r).2.retired +
      uncounted (eval (iterate s.logging.line frame i (element s.logging.bus s.logging.guard i op width) n since) r).1 +
        since ≤ r.retired + max frame.interval 1 := by
  have hlast := element_keeps (leaves_asked s l).instr i op width r hl
  suffices hle : (eval (iterate s.logging.line frame i (element s.logging.bus s.logging.guard i op width) n since)
      r).2.retired +
        uncounted (eval (iterate s.logging.line frame i (element s.logging.bus s.logging.guard i op width) n since) r).1 ≤
          r.retired + (max frame.interval 1 - since) by omega
  -- a check that follows finds the events, for nobody but bus and guard has acted since
  refine retired_iterate_le (calm_element s.logging i op width) (fun {n' since' r₁ r₂} hcomes hran hquiet _ => ?_) hsince
    (le_refl _)
  have hnext := hcomes.keeps_after (fun r => element_keeps (leaves_asked s _).instr i op width r) (.refl s _ _)
  rw [hran] at hnext
  have hrest := suffix_iterate s frame i op width n' since' r₁
  rw [hran] at hrest
  rw [← hcomes.eval_eq] at hrest
  have hasked : Asked s l r₂.world := hlast.trans hnext
  have hwithin := hasked.within (hup.trans (hspared.before hnext.suffix hrest))
  exact absurd (hwithin.any he) (ne_true_of_eq_false hquiet)

/-- Records that a step from the point executes. -/
def Point.records : Point → Nat
  | .boundary => 0
  | .record .. => 1

namespace Processor

variable {I : ω → Prop} {limit budget : Nat} {p p₀ q : Processor} {l v : Logged ω} {w₀ : ω} {point : Point} {i : Instr}

/-! ## How soon -/

/-- `n` more records are executed until the run has returned, or its loop is at the top, where it samples the line; or
else bus or guard takes the events off in the meantime. -/
inductive Heeds (s : Socket ω) (budget : Nat) (p₀ : Processor) (w₀ : ω) (e : Events) :
    (n : Nat) → Step × Processor × Logged ω → Prop
  | returns {exit : Exit} {p : Processor} {l : Logged ω} (run : p₀.run s budget w₀ = (exit, p, l.world)) :
      Heeds s budget p₀ w₀ e 0 (.leave exit, p, l)
  | samples (p : Processor) (l : Logged ω) : Heeds s budget p₀ w₀ e 0 (.goto .boundary, p, l)
  | executes {n index left generation : Nat} {branch : Option Nat} {p : Processor} {l : Logged ω}
      (rest : SparedIn e l (p.step s.logging (p₀.limitFor budget) (.record index left generation branch) l).2.2 →
        Heeds s budget p₀ w₀ e n (p.step s.logging (p₀.limitFor budget) (.record index left generation branch) l)) :
      Heeds s budget p₀ w₀ e (n + 1) (.goto (.record index left generation branch), p, l)

/-- What a moment of the run leaves with, the run returns. -/
theorem heeds_of_leave (hfit : p₀.Fit) (hv : Visits s.logging (p₀.limitFor budget) p₀ ⟨w₀, []⟩ point p l) {exit : Exit}
    {p' : Processor} {l' : Logged ω} (hstep : p.step s.logging (p₀.limitFor budget) point l = (.leave exit, p', l')) :
    Heeds s budget p₀ w₀ e 0 (.leave exit, p', l') := by
  have hrun := run_shown s.shows_logging budget p₀ ⟨w₀, []⟩
  rw [run_of_visits hfit hv hstep] at hrun
  exact .returns hrun

/-- With the events on the line when a record is come to, or raised while it is executed, the loop goes to its top. -/
theorem heeds_of_record (hfit : p₀.Fit) {index left generation : Nat} {branch : Option Nat}
    (hv : Visits s.logging (p₀.limitFor budget) p₀ ⟨w₀, []⟩ (.record index left generation branch) p l)
    (he : e.any = true)
    (hup : Up s e l (p.step s.logging (p₀.limitFor budget) (.record index left generation branch) l).2.2) :
    Heeds s budget p₀ w₀ e 0 (p.step s.logging (p₀.limitFor budget) (.record index left generation branch) l) := by
  obtain ⟨-, honward⟩ := only_stepRecord s (p₀.limitFor budget) index left generation branch p l
  rcases hstep : p.step s.logging (p₀.limitFor budget) (.record index left generation branch) l with
    ⟨next | exit, p', l'⟩
  · by_cases hnext : next = .boundary
    · rw [hnext]
      exact .samples p' l'
    · rw [show p.stepRecord s.logging _ index left generation branch l = _ from hstep] at honward
      rw [hstep] at hup
      obtain ⟨hasked, hquiet⟩ := honward next rfl hnext
      exact absurd ((hasked.within hup).any he) (ne_true_of_eq_false hquiet)
  · exact heeds_of_leave hfit hv hstep

/-- With the events on the line, at most one more record is executed. -/
theorem heeds_of_within (hfit : p₀.Fit) (hv : Visits s.logging (p₀.limitFor budget) p₀ ⟨w₀, []⟩ point p l)
    (he : e.any = true) (hwithin : e.Within (s.line.events l.world)) :
    ∃ n ≤ 1, Heeds s budget p₀ w₀ e n (.goto point, p, l) := by
  cases point with
  | boundary => exact ⟨0, Nat.zero_le 1, .samples p l⟩
  | record index left generation branch =>
    exact ⟨1, le_refl 1, .executes fun hspared => heeds_of_record hfit hv he (Or.inl ⟨hwithin, hspared⟩)⟩

/-- Raised in the course of a step, the events are on the line behind it, or the loop is at its top or has been left. -/
theorem heeds_of_raised (hs : s.Lined I) (hw : I w₀) (hfit : p₀.Fit)
    (hv : Visits s.logging (p₀.limitFor budget) p₀ ⟨w₀, []⟩ point p l) (he : e.any = true)
    (hraised : Raised e l (p.step s.logging (p₀.limitFor budget) point l).2.2) :
    ∃ n, n + point.records ≤ 1 ∧ Heeds s budget p₀ w₀ e n (p.step s.logging (p₀.limitFor budget) point l) := by
  cases point with
  | record index left generation branch => exact ⟨0, le_refl 1, heeds_of_record hfit hv he (Or.inr hraised)⟩
  | boundary =>
    obtain ⟨-, honward⟩ := only_stepBoundary hs (hs.keeps.logging.visits hw hv) (p₀.limitFor budget) p
    rcases hstep : p.step s.logging (p₀.limitFor budget) .boundary l with ⟨next | exit, p', l'⟩
    · by_cases hnext : next = .boundary
      · rw [hnext]
        exact ⟨0, Nat.zero_le 1, .samples p' l'⟩
      · rw [show p.stepBoundary s.logging _ l = _ from hstep] at honward
        rw [hstep] at hraised
        obtain ⟨l₁, ⟨served, hserved, hinside⟩, asked, hasked, hout⟩ := honward next rfl hnext
        have hsearched := hraised.after hserved.log hasked.log hinside
        exact heeds_of_within hfit (hv.goto hstep) he (Asked.within ⟨asked, hasked, hout⟩ (Or.inr hsearched))
    · exact ⟨0, Nat.zero_le 1, heeds_of_leave hfit hv hstep⟩

/-! ## Repeated instructions -/

/-- In executing a repeated instruction, the processor comes to a head of its loop: with `n` iterations to go, `since`
run since the last check for events, and all before it retired. -/
structure Repeats (s : Socket ω) (limit : Nat) (i : Instr) (q : Processor) (w : ω) (body : Exec ω Unit) (n since : Nat)
    (r : Running ω) : Prop where
  repeated : ∃ op width, i.op = .string op width ∧ i.rep ≠ .once ∧ body = Exec.element s.bus s.guard i op width
  comes : Exec.Comes s.line { rip := q.cpu.rip, limit, interval := q.config.repeatInterval } i body
    (q.cpu.count i.addrSize).toNat 0
    { cpu := q.cpu.setRip (q.cpu.rip + UInt64.ofNat i.len), world := w, retired := q.retired } n since r

/-- What comes of the instruction is what comes of its loop from there on. -/
theorem Repeats.execute_eq {w : ω} {body : Exec ω Unit} {n since : Nat} {r : Running ω}
    (h : Repeats s limit i q w body n since r) :
    q.execute s limit i w =
      let out := Exec.eval (Exec.iterate s.line { rip := q.cpu.rip, limit, interval := q.config.repeatInterval } i body n
        since) r
      (out.1, out.2.watchHit, { q with cpu := out.2.cpu, retired := out.2.retired }, out.2.world) := by
  obtain ⟨op, width, hop, hrep, rfl⟩ := h.repeated
  have heval := (Exec.eval_instr_repeated hop hrep s { rip := q.cpu.rip, limit, interval := q.config.repeatInterval }
    { cpu := q.cpu.setRip (q.cpu.rip + UInt64.ofNat i.len), world := w, retired := q.retired }).trans h.comes.eval_eq
  rw [← heval]
  rfl

/-- The log of an instruction is the beginning of that of its step. -/
theorem suffix_of_executes (h : Executes s.logging limit p₀ ⟨w₀, []⟩ point p l i q v) :
    (q.execute s.logging limit i v).2.2.2.log <:+ (p.step s.logging limit point l).2.2.log := by
  have hperformed := h.performed
  generalize p.step s.logging limit point l = out at hperformed ⊢
  cases hperformed with
  | faulted fault hit p' l' executed =>
    obtain ⟨a, -, hacted⟩ := acted_handFault s fault p.cpu.rip p' l'
    rw [executed, hacted.log]
    exact List.suffix_append [a] l'.log
  | struck flow p' l' executed => simp only [executed, List.suffix_refl]
  | through flow p' l' executed next p'' => simp only [executed, List.suffix_refl]

/-- Of a repeated instruction, no more than what is left of an interval is executed from the head of the iteration on in
which the events were raised, that one included. -/
theorem retired_of_repeats (hfit : p₀.Fit)
    (hexec : Executes s.logging (p₀.limitFor budget) p₀ ⟨w₀, []⟩ point p l i q v) {body : Exec (Logged ω) Unit}
    {n since : Nat} {r : Running (Logged ω)}
    (hrepeats : Repeats s.logging (p₀.limitFor budget) i q v body (n + 1) since r) (he : e.any = true)
    (hup : Up s e l (Exec.eval body r).2.world)
    (hspared : SparedIn e (Exec.eval body r).2.world (p.step s.logging (p₀.limitFor budget) point l).2.2) :
    (p.step s (p₀.limitFor budget) point l.world).2.1.retired + since ≤ r.retired + p.config.repeatInterval := by
  have hstart : Asked s l v := by
    have hstop := (leaves_asked s l).stopsAt p.cpu.rip i.len p (.refl s _ l)
    rwa [hexec.passes] at hstop
  have hconfig : q.config = p.config := by
    obtain ⟨resume, honly⟩ := stopsAt_only s.logging p.cpu.rip i.len p l
    rw [hexec.passes] at honly
    obtain rfl : q = { p with resume } := honly
    rfl
  have hlog := suffix_of_executes hexec
  have hinterval := (CoreConfig.bounds_of_validate (hexec.visits.steps hfit).1.config).interval
  have hretired : (p.step s (p₀.limitFor budget) point l.world).2.1.retired =
      (q.execute s.logging (p₀.limitFor budget) i v).2.2.1.retired +
        Exec.uncounted (q.execute s.logging (p₀.limitFor budget) i v).1 := by
    obtain ⟨index, left, generation, branch, record, rfl, hfound, rfl⟩ := hexec.found
    rw [step_shown s.shows_logging]
    exact (ran_stepRecord hfound hexec.passes (p₀.limitFor budget) left generation branch).2
  have hcomes := hrepeats.comes
  rw [hrepeats.execute_eq] at hlog hretired
  obtain ⟨op, width, hop, hrep, rfl⟩ := hrepeats.repeated
  have hfirst := Exec.suffix_iterate s { rip := q.cpu.rip, limit := p₀.limitFor budget, interval := q.config.repeatInterval } i
    op width n since r
  have hhead := hcomes.keeps (fun r => Exec.element_keeps (leaves_asked s l).instr i op width r) hstart
  have hle := Exec.retired_of_raised hhead he hup (hspared.before hfirst hlog) (hcomes.since_lt (by omega))
  dsimp only at hle hretired
  rw [hconfig, Nat.max_eq_left hinterval] at hle
  rw [hretired, hconfig]
  exact hle

/-! ## Whole runs -/

/-- What becomes of events in a run with this log. -/
structure Heeded (s : Socket ω) (budget : Nat) (p₀ : Processor) (w₀ : ω) (log : List Action) (e : Events) : Prop where
  /-- With them on the line, at most one more record is executed until the line is sampled or the run returns. -/
  onLine : ∀ point p l, Visits s.logging (p₀.limitFor budget) p₀ ⟨w₀, []⟩ point p l →
    e.Within (s.line.events l.world) → ∃ n ≤ 1, Heeds s budget p₀ w₀ e n (.goto point, p, l)
  /-- When it is sampled, a debugger's stop makes the run return, and an interrupt is offered to the delivery before
  anything is asked of bus or guard. -/
  sampled : ∀ p l, Visits s.logging (p₀.limitFor budget) p₀ ⟨w₀, []⟩ .boundary p l → e.Within (s.line.events l.world) →
    ((e ∩ .debugStop).any = true → (p.step s (p₀.limitFor budget) .boundary l.world).1 = .leave .breakpoint) ∧
      ((e ∩ (.interrupt ∪ .nmi)).any = true →
        (p.step s (p₀.limitFor budget) .boundary l.world).1 = .leave .breakpoint ∨
          Offered l (p.step s.logging (p₀.limitFor budget) .boundary l).2.2)
  /-- Raised in the course of a step, they are as soon heeded, with the record that the step executes counted. -/
  raised : ∀ point p l, Visits s.logging (p₀.limitFor budget) p₀ ⟨w₀, []⟩ point p l →
    Raised e l (p.step s.logging (p₀.limitFor budget) point l).2.2 →
      ∃ n, n + point.records ≤ 1 ∧ Heeds s budget p₀ w₀ e n (p.step s.logging (p₀.limitFor budget) point l)
  /-- Of a repeated instruction, an interval of iterations is executed at most, from that on in which they were raised,
  unless bus or guard takes them off. -/
  repeated : ∀ point p l i q v body n since r, Executes s.logging (p₀.limitFor budget) p₀ ⟨w₀, []⟩ point p l i q v →
    Repeats s.logging (p₀.limitFor budget) i q v body (n + 1) since r → Up s e l (Exec.eval body r).2.world →
      SparedIn e (Exec.eval body r).2.world (p.step s.logging (p₀.limitFor budget) point l).2.2 →
        (p.step s (p₀.limitFor budget) point l.world).2.1.retired + since ≤ r.retired + p.config.repeatInterval
  /-- Other events than the word to leave a trace stay on the line as far as bus and guard let them, until the delivery
  takes them off, or they are a debugger's stop and the run returns with that. -/
  stay : (e ∩ .stopTrace).any = false → ∀ later earlier middle, log = later ++ earlier →
    Chain (s.line.events w₀) earlier middle → e.Within middle → Spared e later →
      e.Within (s.line.events (p₀.run s budget w₀).2.2) ∨
        ∃ a ∈ later, a.takes e ∧ (a.party = .delivery ∨
          a.party = .processor ∧ (e ∩ .debugStop).any = true ∧ (p₀.run s budget w₀).1 = .breakpoint)

/-- Every run has a log, which tells of each moment of it what was done to the line until then; and whatever is raised
on the line is heeded. -/
theorem heeded_of_used (hused : p₀.Used ω) (hs : s.Lined I) (hw : I w₀) (budget : Nat) :
    ∃ log, p₀.run s.logging budget ⟨w₀, []⟩ =
        ((p₀.run s budget w₀).1, (p₀.run s budget w₀).2.1, ⟨(p₀.run s budget w₀).2.2, log⟩) ∧
      Chain (s.line.events w₀) log (s.line.events (p₀.run s budget w₀).2.2) ∧
      (∀ point p w, Visits s (p₀.limitFor budget) p₀ w₀ point p w →
        ∃ l, l.world = w ∧ l.log <:+ log ∧ Visits s.logging (p₀.limitFor budget) p₀ ⟨w₀, []⟩ point p l) ∧
      ∀ e : Events, e.any = true → Heeded s budget p₀ w₀ log e := by
  have hfit := hused.fit
  have hrun := run_shown s.shows_logging budget p₀ ⟨w₀, []⟩
  have hchain := (keeps_chain s (s.line.events w₀)).run budget p₀ (w := ⟨w₀, []⟩) .nil
  have hlawful := lawful_run hs hw hfit budget
  refine ⟨(p₀.run s.logging budget ⟨w₀, []⟩).2.2.log, ?_, ?_, fun point p w hv => ?_, fun e he => ?_⟩
  · rw [show p₀.run s budget w₀ = _ from hrun]
  · rw [show p₀.run s budget w₀ = _ from hrun]
    exact hchain
  · have hv : Visits s (p₀.limitFor budget) p₀ (Logged.mk w₀ []).world point p w := hv
    obtain ⟨l, rfl, hl⟩ := (visits_shown s.shows_logging).1 hv
    exact ⟨l, rfl, suffix_run hfit hl, hl⟩
  · refine ⟨fun point p l hv => heeds_of_within hfit hv he, fun p l hv hwithin => ?_,
      fun point p l hv => heeds_of_raised hs hw hfit hv he,
      fun point p l i q v body n since r hexec hrepeats => retired_of_repeats hfit hexec hrepeats he,
      fun htrace later earlier middle hlog hmiddle hwithin hspared => ?_⟩
    · have hsampled := sampled_stepBoundary hs (hs.keeps.logging.visits hw hv) hwithin (p₀.limitFor budget) p
      rw [step_shown s.shows_logging]
      exact hsampled
    · rw [show p₀.run s budget w₀ = _ from hrun]
      rw [hlog] at hchain hlawful
      obtain ⟨middle', hearlier, hlater⟩ := hchain.split
      obtain rfl := hearlier.unique hmiddle
      by_cases hend : e.Within (s.line.events (p₀.run s.logging budget ⟨w₀, []⟩).2.2.world)
      · exact Or.inl hend
      · -- whoever took them off was neither bus nor guard
        obtain ⟨a, ha, htakes⟩ := hlater.exists_takes hwithin hend
        have hmem := List.mem_append_left earlier ha
        refine Or.inr ⟨a, ha, htakes, ?_⟩
        rcases hparty : a.party with _ | _ | _ | _
        · exact absurd htakes (hspared a ha (Or.inl hparty))
        · exact absurd htakes (hspared a ha (Or.inr hparty))
        · exact Or.inl rfl
        · exact Or.inr ⟨rfl, (hlawful a hmem).of_takes htakes htrace hparty⟩

/-- Guard that has an interrupt raised when it is asked about the second byte of memory. -/
def ringing : Guard (Board Unit Unit) where
  stopsBefore rip w := (false, if rip = 1 then w.raise 0 .interrupt else w)
  watches _ _ _ w := (false, w)

def nopPage : Board Unit Unit := ⟨{ ram := Ram.zeroPage.store 0 [0x90, 0x90, 0x90, 0x90] }, (), (), #[{}]⟩

def nopRunner : Processor := small (Cpu.new .protectedMode)

theorem lined_ringing : (Board.socket ringing .toCaller 0).Lined fun w => 0 < w.lines.size := by
  refine Board.lined_socket (fun rip w => ?_) (fun _ _ _ _ => rfl) 0
  show (if rip = 1 then w.raise 0 .interrupt else w).lines.size = w.lines.size
  split
  case isTrue => exact Array.size_setIfInBounds
  case isFalse => rfl

/-- The interrupt is raised before the second of four instructions. That is executed, and the run returns, with the
interrupt taken off by the delivery. -/
theorem heeded_nopRunner :
    (nopRunner.run (Board.socket ringing .toCaller 0) 4 nopPage).1 = .asyncEvent ∧
      (nopRunner.run (Board.socket ringing .toCaller 0) 4 nopPage).2.1.retired = 2 ∧
      (nopRunner.run (Board.socket ringing .toCaller 0) 4 nopPage).2.2.lines = #[{}] ∧
      Heeded (Board.socket ringing .toCaller 0) 4 nopRunner nopPage
        (nopRunner.run (Board.socket ringing .toCaller 0).logging 4 ⟨nopPage, []⟩).2.2.log .interrupt := by
  obtain ⟨log, hrun, -, -, hheeded⟩ := heeded_of_used (used_small (Board Unit Unit) (Cpu.new .protectedMode))
    lined_ringing (show 0 < nopPage.lines.size by decide) 4
  refine ⟨by decide +kernel, by decide +kernel, by decide +kernel, ?_⟩
  have hlog : (nopRunner.run (Board.socket ringing .toCaller 0).logging 4 ⟨nopPage, []⟩).2.2.log = log := by
    rw [show nopRunner.run _ 4 _ = _ from hrun]
  rw [hlog]
  exact hheeded .interrupt (by decide)

end Processor

end TraceCore
