/-
How late a timer can be. A lone processor runs at most up to the earliest deadline, and the processors of a larger
machine at most a shared quantum, so that only a repeated instruction carries a round past a deadline that was ahead.
-/
import TraceCore.Proofs.Machine.Deadlines
import TraceCore.Proofs.Machine.Quanta

namespace TraceCore

variable {ω : Type}

/-- The earliest deadline is none later than any in the queue. -/
theorem TimerQueue.earliest_le {q : TimerQueue} {d : Deadline} (h : d ∈ q.deadlines) :
    ∃ tick ≤ d.tick, q.earliest = some tick := by
  obtain ⟨ds, ordered⟩ := q
  cases ds with
  | nil => cases h
  | cons e rest =>
    refine ⟨e.tick, ?_, rfl⟩
    rcases List.mem_cons.1 h with rfl | h
    · exact Nat.le_refl _
    · exact List.rel_of_pairwise_cons ordered h

namespace Machine

variable {W : Wiring ω} {m : Machine ω} {calls : Nat → Call} {d : Deadline} {interval quantum index j k : Nat}
  {cpus : List Processor} {w : ω}

/-! ## Intervals -/

/-- The processors look for events equally often while they repeat an instruction. -/
def Paced (cpus : List Processor) (interval : Nat) (ω : Type) : Prop :=
  ∀ p ∈ cpus, p.Used ω ∧ p.config.repeatInterval = interval

theorem config_processors {config : CoreConfig} {id : Nat} {states : List Cpu}
    (h : processors config id states = .ok cpus) : cpus.length = states.length ∧ ∀ p ∈ cpus, p.config = config := by
  induction states generalizing id cpus with
  | nil =>
    cases h
    exact ⟨rfl, fun p hp => absurd hp List.not_mem_nil⟩
  | cons cpu rest ih =>
    unfold processors Processor.new Processor.withDecoder at h
    cases hvalid : config.validate with
    | error e => rw [hvalid] at h; cases h
    | ok _ =>
      cases hrest : processors config (id + 1) rest with
      | error e => rw [hvalid, hrest] at h; cases h
      | ok cpus' =>
        rw [hvalid, hrest] at h
        cases h
        obtain ⟨hlength, hconfig⟩ := ih hrest
        refine ⟨congrArg (· + 1) hlength, fun p hp => ?_⟩
        rcases List.mem_cons.1 hp with rfl | hp
        · rfl
        · exact hconfig p hp

/-- What a new machine is made of. -/
theorem new_eq_ok {schedule : Schedule} {states : List Cpu} (h : new schedule W w states = .ok m) :
    m.schedule = schedule ∧ m.wiring = W ∧ m.world = w ∧ m.timers = {} ∧ schedule.validate = .ok () ∧ states ≠ [] ∧
      processors (schedule.coreConfig states.length) 0 states = .ok m.cpus := by
  unfold new at h
  cases hvalid : schedule.validate with
  | error e => rw [hvalid] at h; cases h
  | ok _ =>
    cases hcpus : processors (schedule.coreConfig states.length) 0 states with
    | error e =>
      rw [hvalid, hcpus] at h
      cases states <;> cases h
    | ok cpus =>
      rw [hvalid, hcpus] at h
      cases states with
      | nil => cases h
      | cons cpu rest =>
        cases h
        exact ⟨rfl, rfl, rfl, rfl, rfl, nofun, rfl⟩

theorem paced_new {schedule : Schedule} {states : List Cpu} (h : new schedule W w states = .ok m) :
    Paced m.cpus schedule.cpu.repeatInterval ω := by
  obtain ⟨-, -, -, -, -, -, hcpus⟩ := new_eq_ok h
  refine fun p hp => ⟨used_new h p hp, ?_⟩
  rw [(config_processors hcpus).2 p hp]
  unfold Schedule.coreConfig
  split <;> rfl

theorem Paced.runTurns (h : Paced cpus interval ω) : Paced (runTurns W quantum index cpus w).2.1 interval ω := by
  induction cpus generalizing index w with
  | nil => exact h
  | cons p rest ih =>
    obtain ⟨hused, hinterval⟩ := h p List.mem_cons_self
    rw [runTurns_cons]
    intro q hq
    rcases List.mem_cons.1 hq with rfl | hq
    · exact ⟨hused.run .., (congrArg _ (Processor.retired_run hused.fit ..).1).trans hinterval⟩
    · exact ih (fun q hq => h q (List.mem_cons_of_mem _ hq)) q hq

theorem Paced.call (h : Paced m.cpus interval ω) (c : Call) : Paced (m.call c).cpus interval ω := by
  cases c with
  | arm tick cpu events =>
    by_cases hcpu : cpu < m.cpus.length
    · rw [arm_of_lt hcpu]
      exact h
    · rwa [(arm_of_le (Nat.le_of_not_lt hcpu) tick events).2]
  | round =>
    show Paced m.round.2.cpus interval ω
    rw [cpus_round]
    exact h.runTurns
  | store addr src => exact h
  | noteStore addr len => exact h
  | clearCaches =>
    intro q hq
    obtain ⟨p, hp, rfl⟩ := List.mem_map.1 hq
    obtain ⟨hused, hinterval⟩ := h p hp
    exact ⟨hused.dropped, hinterval⟩

theorem Paced.behind (h : Paced m.cpus interval ω) (calls : Nat → Call) (j : Nat) :
    Paced (m.behind calls j).cpus interval ω := by
  induction j with
  | zero => exact h
  | succ j ih => exact ih.call (calls j)

/-- A schedule that is not refused gives every processor something to run. -/
theorem positive_of_validate {schedule : Schedule} (h : schedule.validate = .ok ()) :
    0 < schedule.sharedQuantum ∧ 0 < schedule.cpu.repeatInterval := by
  unfold Schedule.validate at h
  split at h
  case isTrue => cases h
  case isFalse hshared =>
    split at h
    case isTrue => cases h
    case isFalse => exact ⟨Nat.pos_of_ne_zero hshared, (CoreConfig.bounds_of_validate h).interval⟩

/-! ## Time -/

theorem Paced.executed_le (h : Paced cpus interval ω) :
    ∀ t ∈ (Machine.runTurns W quantum index cpus w).1, t.executed ≤ quantum + interval - 1 := by
  have hbounds : List.Forall₂ (fun p t => t.executed ≤ quantum + p.config.repeatInterval - 1) cpus
      (Machine.runTurns W quantum index cpus w).1 := executed_runTurns fun p hp => (h p hp).1
  generalize (Machine.runTurns W quantum index cpus w).1 = turns at hbounds
  induction hbounds with
  | nil => exact fun t ht => absurd ht List.not_mem_nil
  | @cons p t cpus turns hle _ ih =>
    rw [(h p List.mem_cons_self).2] at hle
    exact List.forall_mem_cons.2 ⟨hle, ih fun q hq => h q (List.mem_cons_of_mem _ hq)⟩

/-- A round takes no longer than a turn can last. -/
theorem ticks_round_le (h : Paced m.cpus interval ω) :
    m.round.2.ticks ≤ m.ticks + max (m.quantum + interval - 1) 1 := by
  have hlongest : ((Machine.runTurns m.wiring m.quantum 0 m.cpus m.world).1.map (·.executed)).foldl max 0 ≤
      m.quantum + interval - 1 := by
    refine List.foldlRecOn (motive := (· ≤ m.quantum + interval - 1)) _ max (Nat.zero_le _) fun longest hlongest n hn =>
      Nat.max_le.2 ⟨hlongest, ?_⟩
    obtain ⟨t, ht, rfl⟩ := List.mem_map.1 hn
    exact h.executed_le t ht
  have hticks : m.round.2.ticks ≤ m.ticks + max _ 1 := Nat.min_le_left ..
  omega

/-- A deadline that was ahead and waits is ahead still. -/
theorem ticks_lt_of_waits (hahead : (m.behind calls (k + 1)).ticks < d.tick) (hlater : k < j)
    (hwaits : m.Waits calls d k j) : (m.behind calls j).ticks < d.tick := by
  induction j with
  | zero => omega
  | succ j ih =>
    rcases Nat.lt_succ_iff_lt_or_eq.1 hlater with hlt | rfl
    · by_cases hround : calls j = .round
      · exact hwaits j (Nat.lt_succ_self _) hlt hround
      · rw [show (m.behind calls (j + 1)).ticks = (m.behind calls j).ticks from ticks_call hround]
        exact ih hlt (waits_succ.1 hwaits).1
    · exact hahead

/-- What a round can run is no more than a deadline that is ahead leaves, or a shared quantum. -/
theorem quantum_le (h : d ∈ m.timers.deadlines) (hahead : m.ticks < d.tick) :
    m.quantum ≤ if m.cpus.length ≤ 1 then d.tick - m.ticks else m.schedule.sharedQuantum := by
  unfold quantum
  by_cases hlone : m.cpus.length ≤ 1
  · obtain ⟨tick, hle, hearliest⟩ := TimerQueue.earliest_le h
    rw [if_neg (Nat.not_lt.2 hlone), if_pos hlone, hearliest]
    dsimp only
    omega
  · rw [if_pos (Nat.lt_of_not_le hlone), if_neg hlone]

/-- A timer that was ahead when it was armed is raised less than an interval behind its tick by a lone processor, and
less than a quantum and an interval behind it where processors share the time. -/
theorem lateness_of_new {schedule : Schedule} {states : List Cpu} (h : new schedule W w states = .ok m)
    {calls : Nat → Call} (harmed : m.armed calls k = some d) (hahead : (m.behind calls k).ticks < d.tick)
    (hdue : m.FallsDue calls d k j) : (m.behind calls (j + 1)).ticks ≤ d.tick +
      if m.cpus.length = 1 then schedule.cpu.repeatInterval - 1
      else schedule.sharedQuantum + schedule.cpu.repeatInterval - 2 := by
  obtain ⟨rfl, -, -, htimers, hvalid, hstates, hcpus⟩ := new_eq_ok h
  obtain ⟨hlength, -, hschedule⟩ := processors_behind m calls j
  have hpaced := (paced_new h).behind calls j
  -- the deadline is in the queue before the round, and still ahead
  have hround : calls k ≠ .round := fun hround => by simp [armed, hround] at harmed
  have hstill : (m.behind calls j).ticks < d.tick :=
    ticks_lt_of_waits (by rwa [show (m.behind calls (k + 1)).ticks = _ from ticks_call hround]) hdue.later hdue.waited
  have hqueued : d ∈ (m.behind calls j).timers.deadlines := by
    refine (perm_waiting (by rw [htimers]; rfl) calls j).mem_iff.2 ?_
    refine List.mem_filterMap.2 ⟨k, List.mem_range.2 hdue.later, ?_⟩
    exact Option.filter_eq_some_iff.2 ⟨harmed, decide_eq_true hdue.waited⟩
  have hquantum := quantum_le hqueued hstill
  have hticks := ticks_round_le hpaced
  have hnext : m.behind calls (j + 1) = (m.behind calls j).round.2 := by
    show (m.behind calls j).call (calls j) = _
    rw [hdue.round]
    rfl
  obtain ⟨hshared, hinterval⟩ := positive_of_validate hvalid
  rw [hnext]
  rw [hlength, hschedule] at hquantum
  have hsome : 0 < m.cpus.length := by
    rw [(config_processors hcpus).1]
    exact List.length_pos_of_ne_nil hstates
  split <;> split at hquantum <;> omega

/-- A processor before `rep stosb`, with a hundred bytes to store, that is alone. -/
def oneHundred : Machine (Board Unit Unit) :=
  { schedule := { cpu := hundred.config }, wiring := Board.wiring .none .toCaller, world := Processor.fillBoard
    cpus := [hundred], timers := {}, ticks := 0, rounds := 0 }

/-- A timer, and then rounds. -/
def fifth : Nat → Call
  | 0 => .arm 5 0 .interrupt
  | _ => .round

/-- The timer is raised 26 ticks late, where 30 are the most that it could have been. -/
theorem lateness_oneHundred : oneHundred.FallsDue fifth ⟨5, 0, .interrupt⟩ 0 1 ∧
    (oneHundred.behind fifth 2).ticks = 31 ∧ (oneHundred.behind fifth 2).ticks ≤ 35 := by
  have hnew : new oneHundred.schedule oneHundred.wiring oneHundred.world [hundred.cpu] = .ok oneHundred := rfl
  have hdue : oneHundred.FallsDue fifth ⟨5, 0, .interrupt⟩ 0 1 := by decide +kernel
  exact ⟨hdue, by decide +kernel, lateness_of_new hnew rfl (by decide +kernel) hdue⟩

end Machine

end TraceCore
