/-
A log of what becomes of the events on a processor's line. A socket is given worlds that remember, of everything that
is asked of its parts and of everything that the processor puts on the line itself, who acted and what was on the line
before and after. Nothing else of a run changes. The processor takes nothing off the line but the word to leave a trace,
and a debugger's stop, and with the latter the run returns.
-/
import TraceCore.Proofs.Cpu.Event
import TraceCore.Proofs.Processor.Kept
import TraceCore.Proofs.Processor.Progress
import TraceCore.Proofs.Processor.Shown

namespace TraceCore

/-- Who acts while a processor runs. -/
inductive Party where
  | bus | guard | delivery | processor
deriving DecidableEq

/-- Somebody acted, and this was on the processor's line before and after. -/
structure Action where
  party : Party
  before : Events
  after : Events
deriving DecidableEq

namespace Action

/-- The bus or the guard acted. -/
def outside (a : Action) : Prop := a.party = .bus ∨ a.party = .guard

/-- The events were on the line, and not all of them were left there. -/
def takes (e : Events) (a : Action) : Prop := e.Within a.before ∧ ¬e.Within a.after

/-- If the processor acted, it took the word to leave a trace, or a debugger's stop; when there was one, then in the
way that is told. -/
def Lawful (stopped : Prop) (a : Action) : Prop :=
  a.party = .processor → a.after = a.before \ .stopTrace ∨
    a.after = a.before \ .debugStop ∧ ((a.before ∩ .debugStop).any = true → stopped)

variable {stopped stopped' : Prop} {a : Action}

theorem Lawful.mono (h : a.Lawful stopped) (himp : stopped → stopped') : a.Lawful stopped' :=
  fun hparty => (h hparty).imp id fun h => ⟨h.1, fun hany => himp (h.2 hany)⟩

theorem outside.lawful (h : a.outside) : a.Lawful stopped := by
  intro hparty
  rcases h with h | h <;> cases h.symm.trans hparty

/-- The processor acted lawfully, or the delivery did. -/
def Inside (stopped : Prop) (a : Action) : Prop := ¬a.outside ∧ a.Lawful stopped

theorem inside_of_delivery (h : a.party = .delivery) : a.Inside stopped := by
  refine ⟨fun hout => ?_, fun hparty => nomatch h.symm.trans hparty⟩
  rcases hout with hout | hout <;> cases h.symm.trans hout

theorem inside_of_processor (h : a.party = .processor) (hlawful : a.Lawful stopped) : a.Inside stopped := by
  refine ⟨fun hout => ?_, hlawful⟩
  rcases hout with hout | hout <;> cases h.symm.trans hout

end Action

/-! ## Chains of actions -/

/-- The actions, the last one first, lead from some events to others: each finds what the one before it left. -/
inductive Chain (start : Events) : List Action → Events → Prop
  | nil : Chain start [] start
  | cons {a : Action} {log : List Action} (before : Chain start log a.before) : Chain start (a :: log) a.after

namespace Chain

variable {start middle finish finish' e : Events} {log later earlier : List Action}

theorem unique (h : Chain start log finish) (h' : Chain start log finish') : finish = finish' := by
  cases h <;> cases h' <;> rfl

theorem append (h : Chain start earlier middle) (h' : Chain middle later finish) :
    Chain start (later ++ earlier) finish := by
  induction h' with
  | nil => exact h
  | cons _ ih => exact .cons ih

theorem split (h : Chain start (later ++ earlier) finish) :
    ∃ middle, Chain start earlier middle ∧ Chain middle later finish := by
  induction later generalizing finish with
  | nil => exact ⟨finish, h, .nil⟩
  | cons a later ih =>
    cases h with
    | cons before =>
      obtain ⟨middle, hearlier, hlater⟩ := ih before
      exact ⟨middle, hearlier, .cons hlater⟩

/-- What is on the line and not taken off stays there. -/
theorem within (h : Chain start log finish) (hkept : ∀ a ∈ log, ¬a.takes e) (he : e.Within start) :
    e.Within finish := by
  induction h with
  | nil => exact he
  | cons _ ih =>
    have hbefore := ih fun a ha => hkept a (List.mem_cons_of_mem _ ha)
    exact Decidable.byContradiction fun hafter => hkept _ List.mem_cons_self ⟨hbefore, hafter⟩

/-- What was taken off the line, someone took off. -/
theorem exists_takes (h : Chain start log finish) (he : e.Within start) (hlost : ¬e.Within finish) :
    ∃ a ∈ log, a.takes e := by
  by_contra hnone
  exact hlost (h.within (fun a ha htakes => hnone ⟨a, ha, htakes⟩) he)

end Chain

/-- Other events than the word to leave a trace are taken off by the processor only if they are a debugger's stop. -/
theorem Action.Lawful.of_takes {stopped : Prop} {a : Action} {e : Events} (h : a.Lawful stopped) (htakes : a.takes e)
    (he : (e ∩ .stopTrace).any = false) (hparty : a.party = .processor) :
    (e ∩ .debugStop).any = true ∧ stopped := by
  obtain ⟨hbefore, hafter⟩ := htakes
  rcases h hparty with htrace | ⟨hstop, hstopped⟩
  · rw [htrace] at hafter
    exact absurd (hbefore.diff he) hafter
  · rw [hstop] at hafter
    have hany : (e ∩ .debugStop).any = true := by
      by_contra hnone
      exact hafter (hbefore.diff (Bool.eq_false_iff.2 hnone))
    exact ⟨hany, hstopped (hbefore.any_inter hany)⟩

/-! ## Worlds with a log -/

variable {ω α : Type}

/-- Nothing in the socket makes a property of the world false, and while it holds, the line holds what is put there. -/
structure Socket.Lined (s : Socket ω) (I : ω → Prop) : Prop where
  keeps : s.Keeps I
  set : ∀ e w, I w → s.line.events (s.line.set e w) = e

/-- A board with an event word for the processor holds what is put there, if the guard removes no event words. -/
theorem Board.lined_socket {γ δ : Type} {g : Guard (Board γ δ)}
    (hstop : ∀ rip w, (g.stopsBefore rip w).2.lines.size = w.lines.size)
    (hwatch : ∀ addr len kind w, (g.watches addr len kind w).2.lines.size = w.lines.size) (i : Nat) :
    (Board.socket g .toCaller i).Lined fun w => i < w.lines.size := by
  have hset : ∀ (lines : Array Events) (e : Events), i < lines.size → i < (lines.setIfInBounds i e).size := by
    intro lines e h
    rwa [Array.size_setIfInBounds]
  constructor
  case keeps =>
    exact
      { translate := fun _ _ _ _ h => h
        read := fun _ _ _ h => h
        write := fun _ _ _ h => h
        register := fun _ _ _ h => h
        stopsBefore := fun rip w h => (hstop rip w).symm ▸ h
        watches := fun addr len kind w h => (hwatch addr len kind w).symm ▸ h
        events := fun _ w h => hset w.lines _ h
        fault := fun _ _ _ _ h => h
        set := fun e w h => hset w.lines e h }
  case set =>
    intro e w h
    show (w.lines.setIfInBounds i e).getD i {} = e
    simp [h]

/-- A world, and what was done to the line so far, the last of it first. -/
structure Logged (ω : Type) where
  world : ω
  log : List Action := []

/-- A step of the world, with what it does to the line put down. -/
def EventLine.logged (line : EventLine ω) (party : Party) (f : ω → α × ω) (l : Logged ω) : α × Logged ω :=
  ((f l.world).1, ⟨(f l.world).2, ⟨party, line.events l.world, line.events (f l.world).2⟩ :: l.log⟩)

/-- The same socket, with a log kept. -/
def Socket.logging (s : Socket ω) : Socket (Logged ω) where
  bus :=
    { translate linear access cpl := s.line.logged .bus (s.bus.translate linear access cpl)
      codePage addr l := s.bus.codePage addr l.world
      read addr len := s.line.logged .bus (s.bus.read addr len)
      write addr src := s.line.logged .bus (s.bus.write addr src)
      remaps l := s.bus.remaps l.world
      stamps l := s.bus.stamps l.world
      mapStamps f l := (s.line.logged .bus (fun w => ((), s.bus.mapStamps f w)) l).2 }
  guard :=
    { stopsBefore rip := s.line.logged .guard (s.guard.stopsBefore rip)
      watches addr len kind := s.line.logged .guard (s.guard.watches addr len kind) }
  delivery :=
    { events _ cpu l :=
        let act (w : ω) : (Handling × Cpu) × ω :=
          let (handling, cpu, w) := s.delivery.events s.line cpu w
          ((handling, cpu), w)
        let ((handling, cpu), l) := s.line.logged .delivery act l
        (handling, cpu, l)
      fault fault rip cpu l :=
        let act (w : ω) : (FaultAnswer × Cpu) × ω :=
          let (answer, cpu, w) := s.delivery.fault fault rip cpu w
          ((answer, cpu), w)
        let ((answer, cpu), l) := s.line.logged .delivery act l
        (answer, cpu, l) }
  line :=
    { events l := s.line.events l.world
      set e l := (s.line.logged .processor (fun w => ((), s.line.set e w)) l).2 }

variable {s : Socket ω}

/-- Keeping a log changes nothing else. -/
theorem Socket.shows_logging (s : Socket ω) : s.logging.Shows Logged.world s where
  translate _ _ _ _ := rfl
  codePage _ _ := rfl
  read _ _ _ := rfl
  write _ _ _ := rfl
  remaps _ := rfl
  stamps _ := rfl
  mapStamps _ _ := rfl
  stopsBefore _ _ := rfl
  watches _ _ _ _ := rfl
  deliver _ _ := rfl
  fault _ _ _ _ := rfl
  events _ := rfl
  set _ _ := rfl

/-- What was done between two worlds with logs. -/
structure Acted (s : Socket ω) (l : Logged ω) (new : List Action) (l' : Logged ω) : Prop where
  log : l'.log = new ++ l.log
  chain : Chain (s.line.events l.world) new (s.line.events l'.world)

theorem acted_logged (s : Socket ω) (party : Party) (f : ω → α × ω) (l : Logged ω) :
    Acted s l [⟨party, s.line.events l.world, s.line.events (f l.world).2⟩] (s.line.logged party f l).2 :=
  ⟨rfl, .cons .nil⟩

/-- All that was done was of one kind. -/
def Only (s : Socket ω) (P : Action → Prop) (l l' : Logged ω) : Prop := ∃ new, Acted s l new l' ∧ ∀ a ∈ new, P a

namespace Only

variable {P : Action → Prop} {l l₁ l₂ : Logged ω}

theorem refl (s : Socket ω) (P : Action → Prop) (l : Logged ω) : Only s P l l := ⟨[], ⟨rfl, .nil⟩, nofun⟩

theorem trans (h : Only s P l l₁) (h' : Only s P l₁ l₂) : Only s P l l₂ := by
  obtain ⟨first, hfirst, hall⟩ := h
  obtain ⟨last, hlast, hall'⟩ := h'
  refine ⟨last ++ first, ⟨?_, hfirst.chain.append hlast.chain⟩, fun a ha => ?_⟩
  · rw [hlast.log, hfirst.log, List.append_assoc]
  · rcases List.mem_append.1 ha with ha | ha
    · exact hall' a ha
    · exact hall a ha

theorem mono {Q : Action → Prop} (h : Only s P l l₁) (hPQ : ∀ a, P a → Q a) : Only s Q l l₁ := by
  obtain ⟨new, hacted, hall⟩ := h
  exact ⟨new, hacted, fun a ha => hPQ a (hall a ha)⟩

theorem of_acted {a : Action} (h : Acted s l [a] l₁) (ha : P a) : Only s P l l₁ :=
  ⟨[a], h, fun b hb => by rw [List.mem_singleton.1 hb]; exact ha⟩

theorem suffix (h : Only s P l l₁) : l.log <:+ l₁.log := by
  obtain ⟨new, hacted, -⟩ := h
  exact ⟨new, hacted.log.symm⟩

/-- The log is of that kind if it was before. -/
theorem all (h : Only s P l l₁) (hl : ∀ a ∈ l.log, P a) : ∀ a ∈ l₁.log, P a := by
  obtain ⟨new, hacted, hall⟩ := h
  intro a ha
  rw [hacted.log] at ha
  rcases List.mem_append.1 ha with ha | ha
  · exact hall a ha
  · exact hl a ha

end Only

/-- Nobody but bus and guard acted. -/
abbrev Asked (s : Socket ω) (l l' : Logged ω) : Prop := Only s Action.outside l l'

/-- Between two worlds with logs the delivery acted, and nobody before it but the processor. -/
def Offered (l l' : Logged ω) : Prop :=
  ∃ later a earlier, l'.log = later ++ a :: (earlier ++ l.log) ∧ a.party = .delivery ∧ ∀ b ∈ earlier, b.party = .processor

theorem Offered.trans {l l₁ l₂ : Logged ω} (h : Offered l l₁) (h' : l₁.log <:+ l₂.log) : Offered l l₂ := by
  obtain ⟨later, a, earlier, hlog, hall⟩ := h
  obtain ⟨last, hlast⟩ := h'
  exact ⟨last ++ later, a, earlier, by rw [← hlast, hlog, List.append_assoc], hall⟩

/-- What bus and guard are asked, they act on themselves. -/
theorem leaves_asked (s : Socket ω) (l : Logged ω) : s.logging.Leaves (Asked s l) := by
  have hact : ∀ {party : Party} (_ : party = .bus ∨ party = .guard) {α : Type} (f : ω → α × ω) (l' : Logged ω),
      Asked s l l' → Asked s l (s.line.logged party f l').2 := by
    intro party hparty α f l' h
    exact h.trans (.of_acted (acted_logged s party f l') hparty)
  exact ⟨fun _ _ _ => hact (Or.inl rfl) _, fun _ _ => hact (Or.inl rfl) _, fun _ _ => hact (Or.inl rfl) _,
    fun p mask => hact (Or.inl rfl) fun w => ((), s.bus.mapStamps (·.register p mask) w),
    fun _ => hact (Or.inr rfl) _, fun _ _ _ => hact (Or.inr rfl) _⟩

/-- What the plain socket keeps. -/
theorem Socket.Keeps.logging {Q : ω → Prop} (h : s.Keeps Q) : s.logging.Keeps fun l => Q l.world where
  translate linear access cpl l := h.translate linear access cpl l.world
  read addr len l := h.read addr len l.world
  write addr src l := h.write addr src l.world
  register p mask l := h.register p mask l.world
  stopsBefore rip l := h.stopsBefore rip l.world
  watches addr len kind l := h.watches addr len kind l.world
  events cpu l := h.events cpu l.world
  fault fault rip cpu l := h.fault fault rip cpu l.world
  set e l := h.set e l.world

/-- Whatever is done, the log is a chain. -/
theorem keeps_chain (s : Socket ω) (start : Events) :
    s.logging.Keeps fun l => Chain start l.log (s.line.events l.world) where
  translate _ _ _ _ h := .cons h
  read _ _ _ h := .cons h
  write _ _ _ h := .cons h
  register _ _ _ h := .cons h
  stopsBefore _ _ h := .cons h
  watches _ _ _ _ h := .cons h
  events cpu l h := .cons (a := ⟨.delivery, _, s.line.events (s.delivery.events s.line cpu l.world).2.2⟩) h
  fault f rip cpu l h := .cons (a := ⟨.delivery, _, s.line.events (s.delivery.fault f rip cpu l.world).2.2⟩) h
  set e l h := .cons (a := ⟨.processor, _, s.line.events (s.line.set e l.world)⟩) h

/-- And grows. -/
theorem keeps_suffix (s : Socket ω) (log : List Action) : s.logging.Keeps fun l => log <:+ l.log where
  translate _ _ _ _ h := h.trans (List.suffix_cons ..)
  read _ _ _ h := h.trans (List.suffix_cons ..)
  write _ _ _ h := h.trans (List.suffix_cons ..)
  register _ _ _ h := h.trans (List.suffix_cons ..)
  stopsBefore _ _ h := h.trans (List.suffix_cons ..)
  watches _ _ _ _ h := h.trans (List.suffix_cons ..)
  events _ _ h := h.trans (List.suffix_cons ..)
  fault _ _ _ _ h := h.trans (List.suffix_cons ..)
  set _ _ h := h.trans (List.suffix_cons ..)

/-! ## Steps -/

namespace Processor

variable {I : ω → Prop} {limit budget : Nat} {p p₀ : Processor} {l : Logged ω} {w₀ : ω} {point : Point}

/-- A debugger's stop is taken off the line just if it is there. -/
theorem any_taken_iff {w : ω}
    (hset : s.line.events (s.line.set (s.line.events w \ .stopTrace) w) = s.line.events w \ .stopTrace) :
    (s.line.take .debugStop (s.line.clear .stopTrace w)).1.any = true ↔ (s.line.events w ∩ .debugStop).any = true := by
  have hline : s.line.events (s.line.clear .stopTrace w) = s.line.events w \ .stopTrace := hset
  unfold EventLine.take
  rw [hline]
  show (((s.line.events w \ .stopTrace).pending ∩ .debugStop).any = true) ↔ _
  rw [Events.pending_inter _ (by decide), Events.diff_inter _ (by decide)]

/-- A debugger's stop that is on the line makes the loop leave. -/
theorem serve_of_stop {w : ω}
    (hset : s.line.events (s.line.set (s.line.events w \ .stopTrace) w) = s.line.events w \ .stopTrace)
    (hstop : (s.line.events w ∩ .debugStop).any = true) (p : Processor) : (serve s p w).1 = some .breakpoint := by
  have hpending : (s.line.events w).pending.any = true := by
    rw [← Events.pending_inter _ (by decide)] at hstop
    exact Events.any_of_inter hstop
  unfold serve
  dsimp only
  rw [hpending, if_neg (by decide), if_pos ((any_taken_iff hset).2 hstop)]

/-- Without one, an interrupt on the line is offered to the delivery. -/
theorem serve_of_offer {w : ω}
    (hset : s.line.events (s.line.set (s.line.events w \ .stopTrace) w) = s.line.events w \ .stopTrace)
    (hstop : ¬(s.line.events w ∩ .debugStop).any = true)
    (hoffer : (s.line.events w ∩ (.interrupt ∪ .nmi)).any = true) (p : Processor) :
    (serve s p w).2.2 = (s.delivery.events s.line p.cpu (heard s w)).2.2 := by
  rw [← Events.pending_inter _ (by decide)] at hoffer
  unfold serve heard
  dsimp only
  rw [Events.any_of_inter hoffer, if_neg (by decide), if_neg (mt (any_taken_iff hset).1 hstop), if_pos hoffer]
  rcases s.delivery.events s.line p.cpu (s.line.take .debugStop (s.line.clear .stopTrace w)).2 with ⟨_ | _, cpu, w'⟩
  · rfl
  · rfl

/-- The processor clears events. -/
theorem acted_clear (hs : s.Lined I) (hl : I l.world) (e : Events) :
    Acted s l [⟨.processor, s.line.events l.world, s.line.events l.world \ e⟩] (s.logging.line.clear e l) := by
  have hacted := acted_logged s .processor (fun w => ((), s.line.set (s.line.events l.world \ e) w)) l
  rw [hs.set _ _ hl] at hacted
  exact hacted

/-- The delivery is handed a fault. -/
theorem acted_handFault (s : Socket ω) (fault : Fault) (rip : UInt64) (p : Processor) (l : Logged ω) :
    ∃ a : Action, a.party = .delivery ∧ Acted s l [a] (p.handFault s.logging fault rip l).2.2 := by
  let a : Action := ⟨.delivery, s.line.events l.world, s.line.events (s.delivery.fault fault rip p.cpu l.world).2.2⟩
  have hacted : Acted s l [a] (s.logging.delivery.fault fault rip p.cpu l).2.2 := ⟨rfl, .cons .nil⟩
  refine ⟨a, rfl, ?_⟩
  have hhanded := handed_handFault s.logging fault rip p l
  generalize p.handFault s.logging fault rip l = out at hhanded ⊢
  cases hhanded with
  | retried window closed cpu l' answer => rwa [answer] at hacted
  | delivered window closed cpu l' answer => rwa [answer] at hacted
  | escalated window closed cpu l' answer => rwa [answer] at hacted

/-- Nothing is asked of bus or guard at the top of the loop. The processor acts lawfully, and the delivery may act. -/
theorem only_serve (hs : s.Lined I) (hl : I l.world) (p : Processor) :
    Only s (Action.Inside ((serve s.logging p l).1 = some .breakpoint)) l (serve s.logging p l).2.2 := by
  by_cases hpending : (s.line.events l.world).pending.any = true
  case neg =>
    rw [serve_of_quiet (s := s.logging) (Bool.eq_false_iff.2 hpending)]
    exact .refl s _ l
  case pos =>
    have hstop : ((s.line.events l.world \ .stopTrace) ∩ .debugStop).any = true →
        (serve s.logging p l).1 = some .breakpoint :=
      fun hany => serve_of_stop (s := s.logging) (hs.set _ l.world hl)
        (by rwa [Events.diff_inter _ (by decide)] at hany) p
    have htrace := acted_clear hs hl .stopTrace
    have hdebug := acted_clear hs (show I (s.logging.line.clear .stopTrace l).world from hs.keeps.set _ _ hl) .debugStop
    rw [show s.line.events (s.logging.line.clear .stopTrace l).world = s.line.events l.world \ .stopTrace from
      hs.set _ _ hl] at hdebug
    have hserved := served_serve s.logging p l
    generalize serve s.logging p l = out at hserved hstop ⊢
    have hheard : Only s (Action.Inside (out.1 = some .breakpoint)) l (heard s.logging l) :=
      .trans (.of_acted htrace (Action.inside_of_processor rfl fun _ => Or.inl rfl))
        (.of_acted hdebug (Action.inside_of_processor rfl fun _ => Or.inr ⟨rfl, hstop⟩))
    -- behind that the delivery may have its say
    have hdelivered : Only s (Action.Inside (out.1 = some .breakpoint)) l
        (s.logging.delivery.events s.logging.line p.cpu (heard s.logging l)).2.2 :=
      hheard.trans (.of_acted ⟨rfl, .cons .nil⟩ (Action.inside_of_delivery rfl))
    cases hserved with
    | quiet nothing => exact absurd hpending (ne_true_of_eq_false nothing)
    | stopped => exact hheard
    | passed => exact hheard
    | resumed cpu l' answer => rwa [answer] at hdelivered
    | exited cpu l' answer => rwa [answer] at hdelivered

/-- Before an instruction and in it, bus and guard alone are asked. -/
theorem asked_ran {i : Instr} {x : Except Fault Flow} {hit : Bool} {p₁ p₂ : Processor} {l₁ l₂ : Logged ω}
    (hpasses : p.stopsAt s.logging p.cpu.rip i.len l = (false, p₁, l₁))
    (hexecuted : p₁.execute s.logging limit i l₁ = (x, hit, p₂, l₂)) : Asked s l l₂ := by
  have hstop := (leaves_asked s l).stopsAt p.cpu.rip i.len p (.refl s _ l)
  rw [hpasses] at hstop
  have hexec := (leaves_asked s l).execute limit i p₁ hstop
  rwa [hexecuted] at hexec

/-- A step from a record asks bus and guard, and the delivery for a fault. If it goes on to another record, then the
delivery was not asked, and nothing is on the line. -/
theorem only_stepRecord (s : Socket ω) (limit index left generation : Nat) (branch : Option Nat) (p : Processor)
    (l : Logged ω) :
    Only s (·.party ≠ .processor) l (p.stepRecord s.logging limit index left generation branch l).2.2 ∧
      ∀ next, (p.stepRecord s.logging limit index left generation branch l).1 = .goto next → next ≠ .boundary →
        Asked s l (p.stepRecord s.logging limit index left generation branch l).2.2 ∧
          (s.line.events (p.stepRecord s.logging limit index left generation branch l).2.2.world).any = false := by
  have hmuch : ∀ {l'}, Asked s l l' → Only s (·.party ≠ .processor) l l' := fun h =>
    h.mono fun a hout hparty => by rcases hout with h | h <;> cases h.symm.trans hparty
  have hquiet : ∀ {q : Processor} {l' : Logged ω}, q.mustLeave s.logging limit generation l' = false →
      (s.line.events l'.world).any = false := by
    intro q l' hstays
    unfold mustLeave at hstays
    exact (Bool.or_eq_false_iff.1 (Bool.or_eq_false_iff.1 hstays).1).1
  have hrecorded := recorded_stepRecord s.logging limit index left generation branch p l
  generalize p.stepRecord s.logging limit index left generation branch l = out at hrecorded ⊢
  cases hrecorded with
  | missing => exact ⟨.refl s _ l, fun next hnext hne => absurd (Step.goto.inj hnext).symm hne⟩
  | stopped record found p₁ l₁ stops =>
    have hstop := (leaves_asked s l).stopsAt p.cpu.rip record.instr.len p (.refl s _ l)
    rw [stops] at hstop
    exact ⟨hmuch hstop, nofun⟩
  | faulted record found p₁ l₁ passes fault hit p₂ l₂ executed =>
    obtain ⟨a, hparty, hacted⟩ := acted_handFault s fault p.cpu.rip p₂ l₂
    exact ⟨(hmuch (asked_ran passes executed)).trans (.of_acted hacted (by rw [hparty]; decide)),
      fun next hnext hne => absurd (boundary_of_handFault hnext) hne⟩
  | struck record found p₁ l₁ passes flow p₂ l₂ executed => exact ⟨hmuch (asked_ran passes executed), nofun⟩
  | left record found p₁ l₁ passes flow p₂ l₂ executed leaves =>
    exact ⟨hmuch (asked_ran passes executed), fun next hnext hne => absurd (Step.goto.inj hnext).symm hne⟩
  | next record found p₁ l₁ passes flow p₂ l₂ executed n more stays =>
    exact ⟨hmuch (asked_ran passes executed), fun _ _ _ => ⟨asked_ran passes executed, hquiet stays.2⟩⟩
  | through record found p₁ l₁ passes flow p₂ l₂ executed last stays =>
    exact ⟨hmuch (asked_ran passes executed), fun _ _ _ => ⟨asked_ran passes executed, hquiet stays.2⟩⟩

/-- At a boundary the line comes first. Then bus and guard are asked for the trace, and the delivery for a fault. -/
theorem only_stepBoundary (hs : s.Lined I) (hl : I l.world) (limit : Nat) (p : Processor) :
    Only s (Action.Lawful ((p.stepBoundary s.logging limit l).1 = .leave .breakpoint)) l
        (p.stepBoundary s.logging limit l).2.2 ∧
      ∀ next, (p.stepBoundary s.logging limit l).1 = .goto next → next ≠ .boundary →
        ∃ l₁, Only s (¬·.outside) l l₁ ∧ Asked s l₁ (p.stepBoundary s.logging limit l).2.2 := by
  have hserve := only_serve hs hl { p with linker := p.linker.reset }
  have hbounded := bounded_stepBoundary s.logging limit p l
  generalize p.stepBoundary s.logging limit l = out at hbounded ⊢
  cases hbounded with
  | left exit p₁ l₁ served =>
    rw [served] at hserve
    exact ⟨hserve.mono fun a ha => ha.2.mono fun h => by cases h; rfl, nofun⟩
  | halted p₁ l₁ served _ =>
    rw [served] at hserve
    exact ⟨hserve.mono fun a ha => ha.2.mono nofun, nofun⟩
  | spent p₁ l₁ served _ _ =>
    rw [served] at hserve
    exact ⟨hserve.mono fun a ha => ha.2.mono nofun, nofun⟩
  | searched p₁ l₁ served _ _ =>
    rw [served] at hserve
    have hfind := (leaves_asked s l₁).findTrace p₁ (.refl s _ l₁)
    have hlawful : ∀ {stopped : Prop}, Only s (Action.Lawful stopped) l (p₁.findTrace s.logging l₁).2.2 := fun {stopped} =>
      (hserve.mono fun a ha => ha.2.mono nofun).trans (hfind.mono fun a ha => ha.lawful)
    unfold searched
    generalize p₁.findTrace s.logging l₁ = out at hfind hlawful ⊢
    obtain ⟨fault | slot, p₂, l₂⟩ := out
    · obtain ⟨a, hparty, hacted⟩ := acted_handFault s fault p₁.cpu.rip p₂ l₂
      exact ⟨hlawful.trans (.of_acted hacted (Action.inside_of_delivery hparty).2),
        fun next hnext hne => absurd (boundary_of_handFault hnext) hne⟩
    · exact ⟨hlawful, fun _ _ _ => ⟨l₁, hserve.mono fun a ha => ha.1, hfind⟩⟩

/-- What is done once a trace is looked for is put down on top. -/
theorem suffix_searched (s : Socket ω) (p : Processor) (l : Logged ω) : l.log <:+ (p.searched s.logging l).2.2.log := by
  have hgrows := keeps_suffix s l.log
  have hfind := hgrows.leaves.findTrace p (List.suffix_refl _)
  unfold searched
  generalize p.findTrace s.logging l = out at hfind ⊢
  obtain ⟨fault | slot, p', l'⟩ := out
  · exact hgrows.handFault fault p.cpu.rip p' hfind
  · exact hfind

/-- At the top of the loop, a debugger's stop makes the loop leave. Without one, an interrupt is offered to the delivery
before anything is asked of bus or guard. -/
theorem sampled_stepBoundary (hs : s.Lined I) (hl : I l.world) {e : Events} (he : e.Within (s.line.events l.world))
    (limit : Nat) (p : Processor) :
    ((e ∩ .debugStop).any = true → (p.stepBoundary s.logging limit l).1 = .leave .breakpoint) ∧
      ((e ∩ (.interrupt ∪ .nmi)).any = true → (p.stepBoundary s.logging limit l).1 = .leave .breakpoint ∨
        Offered l (p.stepBoundary s.logging limit l).2.2) := by
  have hset := hs.set (s.line.events l.world \ .stopTrace) l.world hl
  have hleave : (serve s.logging { p with linker := p.linker.reset } l).1 = some .breakpoint →
      (p.stepBoundary s.logging limit l).1 = .leave .breakpoint := by
    intro hserve
    unfold stepBoundary
    rcases hout : serve s.logging { p with linker := p.linker.reset } l with ⟨exit, p₁, l₁⟩
    rw [hout] at hserve
    obtain rfl : exit = some .breakpoint := hserve
    rfl
  have hstop : (s.line.events l.world ∩ .debugStop).any = true →
      (serve s.logging { p with linker := p.linker.reset } l).1 = some .breakpoint :=
    fun hany => serve_of_stop (s := s.logging) hset hany _
  refine ⟨fun hany => hleave (hstop (he.any_inter hany)), fun hany => ?_⟩
  by_cases hthere : (s.line.events l.world ∩ .debugStop).any = true
  case pos => exact Or.inl (hleave (hstop hthere))
  case neg =>
    have hoffered : Offered l (serve s.logging { p with linker := p.linker.reset } l).2.2 := by
      rw [serve_of_offer (s := s.logging) hset hthere (he.any_inter hany)]
      exact ⟨[], ⟨.delivery, _, _⟩, [⟨.processor, _, _⟩, ⟨.processor, _, _⟩], rfl, rfl, by simp⟩
    have hbounded := bounded_stepBoundary s.logging limit p l
    generalize p.stepBoundary s.logging limit l = out at hbounded ⊢
    cases hbounded with
    | left exit p₁ l₁ served => rw [served] at hoffered; exact Or.inr hoffered
    | halted p₁ l₁ served _ => rw [served] at hoffered; exact Or.inr hoffered
    | spent p₁ l₁ served _ _ => rw [served] at hoffered; exact Or.inr hoffered
    | searched p₁ l₁ served _ _ =>
      rw [served] at hoffered
      exact Or.inr (hoffered.trans (suffix_searched s p₁ l₁))

theorem lawful_step (hs : s.Lined I) (hl : I l.world) (limit : Nat) (point : Point) (p : Processor) :
    Only s (Action.Lawful ((p.step s.logging limit point l).1 = .leave .breakpoint)) l
      (p.step s.logging limit point l).2.2 := by
  cases point with
  | boundary => exact (only_stepBoundary hs hl limit p).1
  | record index left generation branch =>
    exact (only_stepRecord s limit index left generation branch p l).1.mono fun a ha hparty => absurd hparty ha

/-! ## Runs -/

/-- While the loop goes on, nothing of a debugger's stop was taken. -/
theorem lawful_of_visits (hs : s.Lined I) (hw : I w₀) (hv : Visits s.logging limit p₀ ⟨w₀, []⟩ point p l) :
    ∀ a ∈ l.log, a.Lawful False := by
  induction hv with
  | start => exact nofun
  | @goto point next p p' l l' before steps ih =>
    have hstep := lawful_step hs (hs.keeps.logging.visits hw before) limit point p
    rw [steps] at hstep
    exact (hstep.mono fun a ha => ha.mono nofun).all ih

theorem lawful_run (hs : s.Lined I) (hw : I w₀) (hfit : p₀.Fit) (budget : Nat) :
    ∀ a ∈ (p₀.run s.logging budget ⟨w₀, []⟩).2.2.log,
      a.Lawful ((p₀.run s.logging budget ⟨w₀, []⟩).1 = .breakpoint) := by
  obtain ⟨point, q, l, hv, hleave⟩ := leaves_of_run hfit s.logging budget ⟨w₀, []⟩
  have hstep := lawful_step hs (hs.keeps.logging.visits hw hv) (p₀.limitFor budget) point q
  rw [hleave] at hstep
  exact (hstep.mono fun a ha => ha.mono Step.leave.inj).all
    fun a ha => (lawful_of_visits hs hw hv a ha).mono False.elim

/-- What is so at some moment of a run, and kept, is so at its end. -/
theorem keeps_ahead {Q : ω → Prop} (h : s.Keeps Q) (hfit : p₀.Fit) {w : ω}
    (hv : Visits s (p₀.limitFor budget) p₀ w₀ point p w) (hw : Q w) : Q (p₀.run s budget w₀).2.2 := by
  -- by strong induction on the potential, which each step lowers
  induction hleft : potential (p₀.limitFor budget) p point using Nat.strongRecOn generalizing point p w with
  | ind k ih =>
    obtain ⟨hfit', hin, -⟩ := hv.steps hfit
    have hstep := h.step (p₀.limitFor budget) point p hw
    have hnearer := nearer_step (s := s) hfit' hin w
    rcases hout : p.step s (p₀.limitFor budget) point w with ⟨next | exit, p', w'⟩
    · rw [hout] at hstep hnearer
      exact ih _ (by rw [← hleft]; exact (hnearer.onward next rfl).2) (.goto hv hout) hstep rfl
    · rw [hout] at hstep
      rw [run_of_visits hfit hv hout]
      exact hstep

/-- The log of a moment is the beginning of that of the run. -/
theorem suffix_run (hfit : p₀.Fit) (hv : Visits s.logging (p₀.limitFor budget) p₀ ⟨w₀, []⟩ point p l) :
    l.log <:+ (p₀.run s.logging budget ⟨w₀, []⟩).2.2.log :=
  keeps_ahead (keeps_suffix s l.log) hfit hv (List.suffix_refl _)

end Processor

end TraceCore
