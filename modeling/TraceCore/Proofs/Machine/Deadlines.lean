/-
When timers come due. Whatever is called on a machine, the queue holds the deadlines that were armed and that no round
has reached since, so that each is raised once: behind the first round that reaches its tick, on its own processor.
-/
import Mathlib.Data.List.Perm.Basic
import Mathlib.Data.Nat.Find
import TraceCore.Proofs.Machine.Quiescence

namespace TraceCore

variable {ω : Type}

/-- Events can be raised in any order. -/
theorem Events.union_right_comm (a b c : Events) : a ∪ b ∪ c = a ∪ c ∪ b := by
  refine ext_bits ?_
  show a.bits ||| b.bits ||| c.bits = a.bits ||| c.bits ||| b.bits
  ac_rfl

/-! ## The queue -/

namespace TimerQueue

variable {q : TimerQueue} {now : Nat}

/-- In the order of their ticks, the deadlines that have come due are in front. -/
theorem due_eq_filter (q : TimerQueue) (now : Nat) :
    (q.due now).1 = q.deadlines.filter (fun d => decide (d.tick ≤ now)) ∧
      (q.due now).2.deadlines = q.deadlines.filter (fun d => decide (now < d.tick)) := by
  obtain ⟨ds, ordered⟩ := q
  unfold due
  dsimp only
  induction ds with
  | nil => exact ⟨rfl, rfl⟩
  | cons d rest ih =>
    obtain ⟨hd, hrest⟩ := List.pairwise_cons.1 ordered
    by_cases hdue : d.tick ≤ now
    · obtain ⟨hbefore, hafter⟩ := ih hrest
      have hnot : ¬now < d.tick := by omega
      simp [hdue, hnot, hbefore, hafter]
    · -- none behind a deadline that is still to come has come due either
      have hlate : ∀ e ∈ rest, now < e.tick := fun e he => by
        have : d.tick ≤ e.tick := hd e he
        omega
      refine ⟨?_, ?_⟩
      · simp only [List.takeWhile_cons, List.filter_cons, hdue, decide_false, Bool.false_eq_true, if_false]
        exact (List.filter_eq_nil_iff.2 fun e he => by simpa using hlate e he).symm
      · have hnow : now < d.tick := by omega
        simp only [List.dropWhile_cons, List.filter_cons, hdue, hnow, decide_false, decide_true, Bool.false_eq_true,
          if_false, if_true]
        rw [List.filter_eq_self.2 fun e he => by simpa using hlate e he]

end TimerQueue

/-! ## Raising -/

namespace Wiring

/-- Each of the first `n` processors has its event line to itself. The worlds are those with `I`, which nothing that is
done to a machine makes false. -/
structure Apart (W : Wiring ω) (n : Nat) (I : ω → Prop) : Prop where
  keeps : ∀ i < n, (W.socket i).Keeps I
  mapStamps : ∀ f w, I w → I (W.bus.mapStamps f w)
  set : ∀ i < n, ∀ e w, I w → (W.line i).events ((W.line i).set e w) = e
  others : ∀ i < n, ∀ j < n, i ≠ j → ∀ e w, I w → (W.line j).events ((W.line i).set e w) = (W.line j).events w

variable {W : Wiring ω} {n : Nat} {I : ω → Prop} {w : ω}

theorem Private.apart (h : W.Private n I) (hstamps : ∀ f w, I w → I (W.bus.mapStamps f w)) : W.Apart n I :=
  ⟨h.keeps, hstamps, h.set, fun i hi j hj hij e w hw => ((h.others i hi j hj hij _).set e w ⟨hw, rfl⟩).2⟩

/-- The world once the events of some deadlines were raised, each on the processor that it names. -/
def raiseAll (W : Wiring ω) (ds : List Deadline) (w : ω) : ω :=
  ds.foldl (fun w d => (W.line d.cpu).raise d.events w) w

/-- What is pending on a line afterwards, besides what was, are the events of its own deadlines. -/
theorem events_raiseAll (hW : W.Apart n I) {ds : List Deadline} (hds : ∀ d ∈ ds, d.cpu < n) (hw : I w) {i : Nat}
    (hi : i < n) : I (W.raiseAll ds w) ∧ (W.line i).events (W.raiseAll ds w) =
      (ds.filter (·.cpu = i)).foldl (fun e d => e ∪ d.events) ((W.line i).events w) := by
  induction ds generalizing w with
  | nil => exact ⟨hw, rfl⟩
  | cons d ds ih =>
    have hd : d.cpu < n := hds d List.mem_cons_self
    have hraised : I ((W.line d.cpu).raise d.events w) := (hW.keeps d.cpu hd).set _ w hw
    obtain ⟨hI, hevents⟩ := ih (fun e he => hds e (List.mem_cons_of_mem _ he)) hraised
    refine ⟨hI, hevents.trans ?_⟩
    unfold EventLine.raise
    by_cases hcpu : d.cpu = i
    · subst hcpu
      rw [List.filter_cons_of_pos (by simp), List.foldl_cons, hW.set d.cpu hd _ w hw]
    · rw [List.filter_cons_of_neg (by simpa using hcpu), hW.others d.cpu hd i hi hcpu _ w hw]

end Wiring

/-- On a board with a line for each processor, lines are apart. -/
theorem Board.apart_wiring {γ δ : Type} {g : Guard (Board γ δ)} (hg : g.SparesLines) (n : Nat) :
    (Board.wiring g .toCaller).Apart n fun w => n ≤ w.lines.size :=
  (Board.private_wiring hg n).apart fun _ _ hw => hw

/-! ## Calls -/

namespace Machine

/-- What can be called on a machine. -/
inductive Call where
  | arm (tick cpu : Nat) (events : Events)
  | round
  | store (addr : UInt64) (src : List UInt8)
  | noteStore (addr : UInt64) (len : Nat)
  | clearCaches
deriving DecidableEq

/-- The machine behind a call. One that is refused leaves the machine as it was. -/
def call (m : Machine ω) : Call → Machine ω
  | .arm tick cpu events => (m.arm tick cpu events).toOption.getD m
  | .round => m.round.2
  | .store addr src => (m.store addr src).2
  | .noteStore addr len => m.noteStore addr len
  | .clearCaches => m.clearCaches

/-- The machine behind the first calls of a sequence. -/
def behind (m : Machine ω) (calls : Nat → Call) : Nat → Machine ω
  | 0 => m
  | k + 1 => (m.behind calls k).call (calls k)

/-- The deadline that call `k` arms, if it arms one and is not refused. -/
def armed (m : Machine ω) (calls : Nat → Call) (k : Nat) : Option Deadline :=
  match calls k with
  | .arm tick cpu events => if cpu < m.cpus.length then some ⟨tick, cpu, events.pending⟩ else none
  | _ => none

/-- No round behind call `k` and before call `j` reached the deadline. -/
def Waits (m : Machine ω) (calls : Nat → Call) (d : Deadline) (k j : Nat) : Prop :=
  ∀ i < j, k < i → calls i = .round → (m.behind calls (i + 1)).ticks < d.tick

instance (m : Machine ω) (calls : Nat → Call) (d : Deadline) (k j : Nat) : Decidable (m.Waits calls d k j) :=
  inferInstanceAs (Decidable (∀ i < j, _))

/-- Call `j` is the first round behind call `k` that reaches the deadline. -/
structure FallsDue (m : Machine ω) (calls : Nat → Call) (d : Deadline) (k j : Nat) : Prop where
  later : k < j
  round : calls j = .round
  reached : d.tick ≤ (m.behind calls (j + 1)).ticks
  waited : m.Waits calls d k j

theorem fallsDue_iff {m : Machine ω} {calls : Nat → Call} {d : Deadline} {k j : Nat} : m.FallsDue calls d k j ↔
    k < j ∧ calls j = .round ∧ d.tick ≤ (m.behind calls (j + 1)).ticks ∧ m.Waits calls d k j :=
  ⟨fun ⟨later, round, reached, waited⟩ => ⟨later, round, reached, waited⟩,
    fun ⟨later, round, reached, waited⟩ => ⟨later, round, reached, waited⟩⟩

instance (m : Machine ω) (calls : Nat → Call) (d : Deadline) (k j : Nat) : Decidable (m.FallsDue calls d k j) :=
  decidable_of_iff _ fallsDue_iff.symm

/-- The deadlines that the first `j` calls armed. -/
def armedBefore (m : Machine ω) (calls : Nat → Call) (j : Nat) : List Deadline :=
  (List.range j).filterMap (m.armed calls)

/-- Those of them that no round has reached. -/
def waiting (m : Machine ω) (calls : Nat → Call) (j : Nat) : List Deadline :=
  (List.range j).filterMap fun k => (m.armed calls k).filter fun d => m.Waits calls d k j

/-- Those of them that call `j` is the first round to reach. -/
def dueAt (m : Machine ω) (calls : Nat → Call) (j : Nat) : List Deadline :=
  (List.range j).filterMap fun k => (m.armed calls k).filter fun d => m.FallsDue calls d k j

/-! ### What a call leaves as it is -/

variable {m : Machine ω} {calls : Nat → Call} {d : Deadline} {c : Call} {j k : Nat}

theorem arm_of_lt {cpu : Nat} (h : cpu < m.cpus.length) (tick : Nat) (events : Events) :
    m.call (.arm tick cpu events) = { m with timers := m.timers.push tick cpu events } := by
  have harm : m.arm tick cpu events = .ok { m with timers := m.timers.push tick cpu events } := if_pos h
  show (m.arm tick cpu events).toOption.getD m = _
  rw [harm]
  rfl

theorem arm_of_le {cpu : Nat} (h : m.cpus.length ≤ cpu) (tick : Nat) (events : Events) :
    m.arm tick cpu events = .error (.noSuchProcessor cpu m.cpus.length) ∧ m.call (.arm tick cpu events) = m := by
  have harm : m.arm tick cpu events = .error (.noSuchProcessor cpu m.cpus.length) := if_neg (Nat.not_lt.2 h)
  refine ⟨harm, ?_⟩
  show (m.arm tick cpu events).toOption.getD m = _
  rw [harm]
  rfl

/-- Only rounds take time. -/
theorem ticks_call (h : c ≠ .round) : (m.call c).ticks = m.ticks := by
  cases c with
  | arm tick cpu events =>
    by_cases hcpu : cpu < m.cpus.length
    · rw [arm_of_lt hcpu]
    · rw [(arm_of_le (Nat.le_of_not_lt hcpu) tick events).2]
  | round => exact absurd rfl h
  | store addr src => rfl
  | noteStore addr len => rfl
  | clearCaches => rfl

theorem processors_call (m : Machine ω) (c : Call) :
    (m.call c).cpus.length = m.cpus.length ∧ (m.call c).wiring = m.wiring ∧ (m.call c).schedule = m.schedule := by
  cases c with
  | arm tick cpu events =>
    by_cases hcpu : cpu < m.cpus.length
    · rw [arm_of_lt hcpu]
      exact ⟨rfl, rfl, rfl⟩
    · rw [(arm_of_le (Nat.le_of_not_lt hcpu) tick events).2]
      exact ⟨rfl, rfl, rfl⟩
  | round => exact ⟨length_cpus_round m, wiring_round m, by unfold call; rw [round_eq_fire]; rfl⟩
  | store addr src => exact ⟨rfl, rfl, rfl⟩
  | noteStore addr len => exact ⟨rfl, rfl, rfl⟩
  | clearCaches => exact ⟨List.length_map _, rfl, rfl⟩

theorem processors_behind (m : Machine ω) (calls : Nat → Call) (j : Nat) :
    (m.behind calls j).cpus.length = m.cpus.length ∧ (m.behind calls j).wiring = m.wiring ∧
      (m.behind calls j).schedule = m.schedule := by
  induction j with
  | zero => exact ⟨rfl, rfl, rfl⟩
  | succ j ih =>
    obtain ⟨hlength, hwiring, hschedule⟩ := processors_call (m.behind calls j) (calls j)
    exact ⟨hlength.trans ih.1, hwiring.trans ih.2.1, hschedule.trans ih.2.2⟩

/-- What keeps the sockets and the stamps, a call keeps. -/
theorem inv_call {I : ω → Prop} (hW : m.wiring.Apart m.cpus.length I) (hn : 0 < m.cpus.length) (hw : I m.world)
    (c : Call) : I m.ran.world ∧ I (m.call c).world := by
  have hran : I m.ran.world := runTurns_keeps (fun i _ hlt => hW.keeps i (by omega)) hw
  refine ⟨hran, ?_⟩
  cases c with
  | arm tick cpu events =>
    by_cases hcpu : cpu < m.cpus.length
    · rw [arm_of_lt hcpu]
      exact hw
    · rwa [(arm_of_le (Nat.le_of_not_lt hcpu) tick events).2]
  | round =>
    show I m.round.2.world
    rw [round_eq_fire]
    refine List.foldlRecOn _ _ hran fun w hw d _ => ?_
    split
    case isTrue hd =>
      rw [show m.ran.cpus.length = m.cpus.length from length_runTurns ..] at hd
      exact (hW.keeps d.cpu hd).set _ w hw
    case isFalse => exact hw
  | store addr src => exact (hW.keeps 0 hn).write addr src _ hw
  | noteStore addr len => exact hW.mapStamps _ _ hw
  | clearCaches =>
    refine hW.mapStamps _ _ (List.foldlRecOn _ _ hw fun w hw i hi => ?_)
    exact (hW.keeps i (List.mem_range.1 hi)).set _ w hw

/-! ### The queue behind a call -/

/-- What a round raises is what its time has reached. -/
theorem round_eq (m : Machine ω) :
    m.round.2.ticks = m.ran.ticks ∧
      m.round.2.timers.deadlines = m.timers.deadlines.filter (fun d => decide (m.round.2.ticks < d.tick)) ∧
      ((∀ d ∈ m.timers.deadlines, d.cpu < m.cpus.length) → m.round.2.world =
        m.wiring.raiseAll (m.timers.deadlines.filter fun d => decide (d.tick ≤ m.round.2.ticks)) m.ran.world) := by
  rw [round_eq_fire]
  have hlength : m.ran.cpus.length = m.cpus.length := length_runTurns ..
  obtain ⟨hdue, hrest⟩ := m.timers.due_eq_filter m.ran.ticks
  refine ⟨rfl, hrest, fun hcpus => ?_⟩
  unfold fire Wiring.raiseAll
  dsimp only
  rw [show m.ran.timers = m.timers from rfl, hdue, hlength]
  refine List.foldl_ext _ _ _ fun w d hd => ?_
  rw [if_pos (hcpus d (List.mem_of_mem_filter hd))]
  rfl

theorem waits_succ {k : Nat} : m.Waits calls d k (j + 1) ↔
    m.Waits calls d k j ∧ (k < j → calls j = .round → (m.behind calls (j + 1)).ticks < d.tick) := by
  unfold Waits
  constructor
  · intro h
    exact ⟨fun i hi => h i (by omega), h j (by omega)⟩
  · rintro ⟨hbefore, hlast⟩ i hi
    rcases Nat.lt_succ_iff_lt_or_eq.1 hi with hi | rfl
    · exact hbefore i hi
    · exact hlast

/-- A call that is no round reaches no deadline. -/
theorem waiting_succ_of_ne (h : calls j ≠ .round) :
    m.waiting calls (j + 1) = m.waiting calls j ++ (m.armed calls j).toList := by
  have hsame : ∀ d k, k < j → (m.Waits calls d k (j + 1) ↔ m.Waits calls d k j) := fun d k _ => by
    rw [waits_succ]
    exact and_iff_left fun _ hround => absurd hround h
  have hnow : ∀ d, m.Waits calls d j (j + 1) := fun d i hi hlater => by omega
  unfold waiting
  rw [List.range_succ, List.filterMap_append]
  congr 1
  · refine List.filterMap_congr fun k hk => ?_
    simp only [hsame _ k (List.mem_range.1 hk)]
  · cases hd : m.armed calls j with
    | none => simp [hd]
    | some d => simp [hd, Option.filter, hnow d]

/-- A round sorts what waits by its time. -/
theorem waiting_succ_of_round (h : calls j = .round) :
    m.waiting calls (j + 1) =
        (m.waiting calls j).filter (fun d => decide ((m.behind calls (j + 1)).ticks < d.tick)) ∧
      m.dueAt calls j =
        (m.waiting calls j).filter (fun d => decide (d.tick ≤ (m.behind calls (j + 1)).ticks)) := by
  have harmed : m.armed calls j = none := by simp [armed, h]
  unfold waiting dueAt
  rw [List.range_succ, List.filterMap_append, List.filter_filterMap, List.filter_filterMap]
  constructor
  · rw [show List.filterMap _ [j] = [] by simp [harmed], List.append_nil]
    refine List.filterMap_congr fun k hk => ?_
    rw [Option.filter_filter]
    simp only [waits_succ, List.mem_range.1 hk, h, true_implies, Bool.decide_and]
  · refine List.filterMap_congr fun k hk => ?_
    rw [Option.filter_filter]
    simp only [fallsDue_iff, List.mem_range.1 hk, h, true_and, Bool.decide_and, Bool.and_comm]

/-- All that waits is for processors of the machine. -/
theorem cpu_lt_of_mem_waiting (h : d ∈ m.waiting calls j) : d.cpu < m.cpus.length := by
  obtain ⟨k, -, hk⟩ := List.mem_filterMap.1 h
  have harmed : m.armed calls k = some d := (Option.filter_eq_some_iff.1 hk).1
  unfold armed at harmed
  split at harmed
  case h_1 tick cpu events _ =>
    split at harmed
    case isTrue hcpu =>
      cases harmed
      exact hcpu
    case isFalse => cases harmed
  case h_2 => cases harmed

/-- The queue holds what waits. -/
theorem perm_waiting (h : m.timers.size = 0) (calls : Nat → Call) (j : Nat) :
    (m.behind calls j).timers.deadlines.Perm (m.waiting calls j) := by
  induction j with
  | zero =>
    rw [show (m.behind calls 0).timers.deadlines = [] from List.length_eq_zero_iff.1 h]
    rfl
  | succ j ih =>
    obtain ⟨hlength, -, -⟩ := processors_behind m calls j
    by_cases hround : calls j = .round
    · obtain ⟨-, hrest, -⟩ := round_eq (m.behind calls j)
      have hnext : m.behind calls (j + 1) = (m.behind calls j).round.2 := by
        show (m.behind calls j).call (calls j) = _
        rw [hround]
        rfl
      rw [(waiting_succ_of_round hround).1, hnext, hrest]
      exact ih.filter _
    · rw [waiting_succ_of_ne hround]
      show ((m.behind calls j).call (calls j)).timers.deadlines.Perm _
      unfold armed
      cases hcall : calls j with
      | arm tick cpu events =>
        by_cases hcpu : cpu < m.cpus.length
        · rw [arm_of_lt (by rwa [hlength])]
          dsimp only
          rw [if_pos hcpu]
          refine (Deadline.insert_perm _ _).trans ((ih.cons _).trans ?_)
          exact (List.perm_append_singleton _ _).symm
        · rw [(arm_of_le (by rw [hlength]; exact Nat.le_of_not_lt hcpu) tick events).2]
          dsimp only
          rw [if_neg hcpu]
          simpa using ih
      | round => exact absurd hcall hround
      | store addr src => simpa [call, Machine.store] using ih
      | noteStore addr len => simpa [call, Machine.noteStore] using ih
      | clearCaches => simpa [call, Machine.clearCaches] using ih

theorem inv_behind {I : ω → Prop} (hW : m.wiring.Apart m.cpus.length I) (hn : 0 < m.cpus.length) (hw : I m.world)
    (calls : Nat → Call) (j : Nat) : I (m.behind calls j).world := by
  induction j with
  | zero => exact hw
  | succ j ih =>
    obtain ⟨hlength, hwiring, -⟩ := processors_behind m calls j
    exact (inv_call (by rwa [hlength, hwiring]) (by rwa [hlength]) ih (calls j)).2

theorem dueAt_of_ne (h : calls j ≠ .round) : m.dueAt calls j = [] := by
  refine List.filterMap_eq_nil_iff.2 fun k _ => ?_
  have hnone : ∀ d, ¬m.FallsDue calls d k j := fun d hdue => h hdue.round
  simp [hnone]

/-- Each deadline that was armed waits, or came due. -/
theorem length_waiting (m : Machine ω) (calls : Nat → Call) (j : Nat) :
    (m.waiting calls j).length + ((List.range j).flatMap (m.dueAt calls)).length = (m.armedBefore calls j).length := by
  induction j with
  | zero => rfl
  | succ j ih =>
    unfold armedBefore at ih ⊢
    rw [List.range_succ, List.flatMap_append, List.filterMap_append, List.length_append, List.length_append, ← ih]
    by_cases hround : calls j = .round
    · obtain ⟨hrest, hdue⟩ := waiting_succ_of_round (m := m) hround
      have hsplit : (m.waiting calls j).length = (m.dueAt calls j).length + (m.waiting calls (j + 1)).length := by
        rw [hrest, hdue, List.length_eq_length_filter_add fun d => decide (d.tick ≤ (m.behind calls (j + 1)).ticks)]
        simp only [← decide_not, Nat.not_le]
      have hnone : m.armed calls j = none := by simp [armed, hround]
      simp only [List.flatMap_singleton, List.filterMap_cons, List.filterMap_nil, hnone, List.length_nil]
      omega
    · rw [waiting_succ_of_ne hround, List.flatMap_singleton, dueAt_of_ne hround, List.length_append]
      cases hd : m.armed calls j with
      | none => simp [hd]
      | some d =>
        simp only [hd, Option.toList_some, List.filterMap_cons, List.filterMap_nil, List.length_singleton,
          List.length_nil]
        omega

/-! ## Punctuality -/

/-- Timers are kept to, whatever is called on a machine. -/
structure Punctual (m : Machine ω) (calls : Nat → Call) : Prop where
  /-- A timer for a processor that the machine does not have is refused, and nothing changes. -/
  refused : ∀ k tick cpu events, calls k = .arm tick cpu events → m.cpus.length ≤ cpu →
    (m.behind calls k).arm tick cpu events = .error (.noSuchProcessor cpu m.cpus.length) ∧
      m.behind calls (k + 1) = m.behind calls k
  /-- A round raises, behind the turns of its processors, the deadlines that it is the first to reach, each on its own
  line. -/
  raised : ∀ j, calls j = .round → ∃ ds, ds.Perm (m.dueAt calls j) ∧
    (m.behind calls (j + 1)).world = m.wiring.raiseAll ds (m.behind calls j).ran.world
  /-- What is pending behind the round is what the turns left, and the events of the processor's own deadlines. -/
  pending : ∀ I, m.wiring.Apart m.cpus.length I → I m.world → ∀ j, calls j = .round → ∀ i < m.cpus.length,
    (m.wiring.line i).events (m.behind calls (j + 1)).world =
      ((m.dueAt calls j).filter (·.cpu = i)).foldl (fun e d => e ∪ d.events)
        ((m.wiring.line i).events (m.behind calls j).ran.world)
  /-- Nothing else looks at the queue. -/
  silent : ∀ j, calls j ≠ .round →
    (m.behind calls (j + 1)).world = (({ m.behind calls j with timers := {} } : Machine ω).call (calls j)).world
  /-- No deadline comes due twice. -/
  once : ∀ d k j j', m.FallsDue calls d k j → m.FallsDue calls d k j' → j = j'
  /-- One that a round has reached has come due. -/
  reached : ∀ d k i, k < i → calls i = .round → d.tick ≤ (m.behind calls (i + 1)).ticks →
    ∃ j ≤ i, m.FallsDue calls d k j
  /-- As many are queued as were armed and did not come due. -/
  queued : ∀ j, (m.behind calls j).timers.size + ((List.range j).flatMap (m.dueAt calls)).length =
    (m.armedBefore calls j).length

/-- A deadline comes due in the first of the rounds that reach it. -/
theorem FallsDue.unique {j' : Nat} (h : m.FallsDue calls d k j) (h' : m.FallsDue calls d k j') : j = j' := by
  rcases Nat.lt_trichotomy j j' with hlt | heq | hlt
  · exact absurd h.reached (Nat.not_le.2 (h'.waited j hlt h.later h.round))
  · exact heq
  · exact absurd h'.reached (Nat.not_le.2 (h.waited j' hlt h'.later h'.round))

theorem exists_fallsDue {i : Nat} (hlater : k < i) (hround : calls i = .round)
    (hreached : d.tick ≤ (m.behind calls (i + 1)).ticks) : ∃ j ≤ i, m.FallsDue calls d k j := by
  -- the first round that reaches it
  have hsome : ∃ j, k < j ∧ calls j = .round ∧ d.tick ≤ (m.behind calls (j + 1)).ticks :=
    ⟨i, hlater, hround, hreached⟩
  obtain ⟨hlater', hround', hreached'⟩ := Nat.find_spec hsome
  refine ⟨Nat.find hsome, Nat.find_min' hsome ⟨hlater, hround, hreached⟩, hlater', hround', hreached', ?_⟩
  intro i' hi' hafter hagain
  exact Nat.lt_of_not_le fun hle => Nat.find_min hsome hi' ⟨hafter, hagain, hle⟩

/-- A round raises the deadlines that it is the first to reach. -/
theorem world_round (h : m.timers.size = 0) (hround : calls j = .round) : ∃ ds, ds.Perm (m.dueAt calls j) ∧
    (m.behind calls (j + 1)).world = m.wiring.raiseAll ds (m.behind calls j).ran.world := by
  obtain ⟨hlength, hwiring, -⟩ := processors_behind m calls j
  obtain ⟨-, -, hworld⟩ := round_eq (m.behind calls j)
  have hnext : m.behind calls (j + 1) = (m.behind calls j).round.2 := by
    show (m.behind calls j).call (calls j) = _
    rw [hround]
    rfl
  have hperm := perm_waiting h calls j
  have hcpus : ∀ d ∈ (m.behind calls j).timers.deadlines, d.cpu < (m.behind calls j).cpus.length := fun d hd => by
    rw [hlength]
    exact cpu_lt_of_mem_waiting (hperm.mem_iff.1 hd)
  rw [(waiting_succ_of_round hround).2, hnext, hworld hcpus, hwiring]
  exact ⟨_, hperm.filter _, rfl⟩

/-- Whatever is called on a machine, each timer that is not refused is raised once, on its own processor, behind the
first round that reaches its tick, and is queued until then. -/
theorem punctual_of_size (h : m.timers.size = 0) (calls : Nat → Call) : m.Punctual calls where
  refused k tick cpu events hcall hcpu := by
    obtain ⟨hlength, -, -⟩ := processors_behind m calls k
    obtain ⟨herror, hsame⟩ := arm_of_le (m := m.behind calls k) (hlength.trans_le hcpu) tick events
    refine ⟨by rw [herror, hlength], ?_⟩
    show (m.behind calls k).call (calls k) = _
    rw [hcall, hsame]
  raised j hround := world_round h hround
  pending I hW hw j hround i hi := by
    obtain ⟨hlength, hwiring, -⟩ := processors_behind m calls j
    obtain ⟨ds, hperm, hworld⟩ := world_round h hround
    have hn : 0 < m.cpus.length := by omega
    have hbehind : (m.behind calls j).wiring.Apart (m.behind calls j).cpus.length I := by rwa [hlength, hwiring]
    obtain ⟨hran, -⟩ := inv_call hbehind (by rwa [hlength]) (inv_behind hW hn hw calls j) .round
    have hds : ∀ d ∈ ds, d.cpu < m.cpus.length := fun d hd => by
      have hdue := hperm.mem_iff.1 hd
      rw [(waiting_succ_of_round hround).2] at hdue
      exact cpu_lt_of_mem_waiting (List.mem_of_mem_filter hdue)
    rw [hworld, (Wiring.events_raiseAll hW hds hran hi).2]
    have : RightCommutative fun (e : Events) (d : Deadline) => e ∪ d.events :=
      ⟨fun e d d' => Events.union_right_comm e d.events d'.events⟩
    exact (hperm.filter _).foldl_eq _
  silent j hround := by
    show ((m.behind calls j).call (calls j)).world = _
    generalize m.behind calls j = m'
    cases hcall : calls j with
    | arm tick cpu events =>
      by_cases hcpu : cpu < m'.cpus.length
      · rw [arm_of_lt hcpu, arm_of_lt (by exact hcpu)]
      · rw [(arm_of_le (Nat.le_of_not_lt hcpu) tick events).2,
          (arm_of_le (m := { m' with timers := {} }) (Nat.le_of_not_lt hcpu) tick events).2]
    | round => exact absurd hcall hround
    | store addr src => rfl
    | noteStore addr len => rfl
    | clearCaches => rfl
  once _ _ _ _ hdue hdue' := hdue.unique hdue'
  reached _ _ _ hlater hround hreached := exists_fallsDue hlater hround hreached
  queued j := by
    rw [← length_waiting]
    exact congrArg (· + _) (perm_waiting h calls j).length_eq

/-- Two processors before `hlt`. -/
def pair : Machine (Board Unit Unit) :=
  { schedule := {}, wiring := Board.wiring .none .toCaller, world := { napBoard with lines := #[{}, {}] }
    cpus := [.small (.new .protectedMode), .small (.new .protectedMode)], timers := {}, ticks := 0, rounds := 0 }

/-- Timers out of order, for the same tick, with an event that has no meaning, and for no processor; then rounds. -/
def timetable : Nat → Call
  | 0 => .arm 3 0 .interrupt
  | 1 => .arm 1 1 ⟨0xA⟩
  | 2 => .arm 1 7 .nmi
  | 3 => .arm 0 0 .debugStop
  | _ => .round

/-- The first round reaches two of the timers, the third round the last. -/
theorem punctual_pair : pair.Punctual timetable ∧
    pair.dueAt timetable 4 = [⟨1, 1, .nmi⟩, ⟨0, 0, .debugStop⟩] ∧ pair.dueAt timetable 5 = [] ∧
    pair.dueAt timetable 6 = [⟨3, 0, .interrupt⟩] ∧
    (pair.behind timetable 7).world.lines = #[.interrupt, {}] :=
  ⟨punctual_of_size rfl timetable, by decide +kernel, by decide +kernel, by decide +kernel, by decide +kernel⟩

end Machine

end TraceCore
