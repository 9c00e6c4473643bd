/-
The clock of a machine. Whatever its processors run into, a round takes as many ticks as its busiest turn retired
instructions, and one at least. So the clock is never behind the rounds or behind the count of a processor, and never
ahead of all counts and the rounds together.
-/
import Mathlib.Algebra.Order.BigOperators.Group.List
import Mathlib.Algebra.Order.Group.Nat
import TraceCore.Proofs.Machine.Lateness

namespace TraceCore

variable {ω : Type}

/-! ## Numbers -/

namespace Processor

variable {s : Socket ω} {limit : Nat} {p : Processor} {w : ω} {point : Point}

/-- A processor keeps its number. -/
theorem id_stepRecord (s : Socket ω) (limit index left generation : Nat) (branch : Option Nat) (p : Processor) (w : ω) :
    (p.stepRecord s limit index left generation branch w).2.1.id = p.id := by
  have hran : ∀ {instr : Instr} {x : Except Fault Flow} {hit : Bool} {p₁ p₂ : Processor} {w₁ w₂ : ω},
      p.stopsAt s p.cpu.rip instr.len w = (false, p₁, w₁) → p₁.execute s limit instr w₁ = (x, hit, p₂, w₂) →
      p₂.id = p.id := by
    intro instr x hit p₁ p₂ w₁ w₂ hpasses hexecuted
    obtain ⟨cpu, retired, rfl, -⟩ := ran_only hpasses hexecuted
    rfl
  have hcounted : ∀ (q : Processor) (flow : Flow), (q.counted flow).id = q.id := by
    intro q flow
    obtain ⟨retired, honly⟩ := counted_only q flow
    rw [honly]
  have hrecorded := recorded_stepRecord s limit index left generation branch p w
  generalize p.stepRecord s limit index left generation branch w = out at hrecorded ⊢
  cases hrecorded with
  | missing => rfl
  | stopped record found p₁ w₁ stops =>
    obtain ⟨resume, honly⟩ := stopsAt_only s p.cpu.rip record.instr.len p w
    rw [stops] at honly
    obtain rfl : p₁ = { p with resume } := honly
    rfl
  | faulted record found p₁ w₁ passes fault hit p₂ w₂ executed =>
    obtain ⟨window, cpu, honly⟩ := handFault_only s fault p.cpu.rip p₂ w₂
    rw [honly]
    exact (hran passes executed : p₂.id = p.id)
  | struck record found p₁ w₁ passes flow p₂ w₂ executed => exact (hcounted p₂ flow).trans (hran passes executed)
  | left record found p₁ w₁ passes flow p₂ w₂ executed => exact (hcounted p₂ flow).trans (hran passes executed)
  | next record found p₁ w₁ passes flow p₂ w₂ executed => exact (hcounted p₂ flow).trans (hran passes executed)
  | through record found p₁ w₁ passes flow p₂ w₂ executed =>
    obtain ⟨linker, cache, honly⟩ := follow_only s limit (branched index branch flow) (p₂.counted flow) w₂
    rw [honly]
    exact (hcounted p₂ flow).trans (hran passes executed)

theorem id_step (s : Socket ω) (limit : Nat) (point : Point) (p : Processor) (w : ω) :
    (p.step s limit point w).2.1.id = p.id := by
  cases point with
  | boundary =>
    obtain ⟨cpu, window, cache, retired, honly, -⟩ := stepBoundary_only s limit p w
    unfold step
    rw [honly]
  | record index left generation branch => exact id_stepRecord s limit index left generation branch p w

theorem id_run (s : Socket ω) (budget : Nat) (p : Processor) (w : ω) : (p.run s budget w).2.1.id = p.id :=
  run_induction (Q := fun p₁ _ => p₁.id = p.id) budget p w
    (fun limit point p₁ w₁ h => (id_step s limit point p₁ w₁).trans h) rfl

end Processor

namespace Machine

variable {W : Wiring ω} {quantum index : Nat} {cpus : List Processor} {m : Machine ω} {w : ω}

/-! ## Turns -/

/-- One turn for each processor, in their order, which they keep. -/
theorem ids_runTurns (W : Wiring ω) (quantum index : Nat) (cpus : List Processor) (w : ω) :
    (runTurns W quantum index cpus w).1.map (·.cpu) = cpus.map (·.id) ∧
      (runTurns W quantum index cpus w).2.1.map (·.id) = cpus.map (·.id) := by
  induction cpus generalizing index w with
  | nil => exact ⟨rfl, rfl⟩
  | cons p rest ih =>
    have hid := Processor.id_run (W.socket index) quantum p w
    rw [runTurns_cons]
    generalize p.run (W.socket index) quantum w = out at hid ⊢
    obtain ⟨exit, p₁, w₁⟩ := out
    obtain ⟨hturns, hcpus⟩ := ih (index + 1) w₁
    exact ⟨congrArg₂ List.cons hid hturns, congrArg₂ List.cons hid hcpus⟩

/-- What a turn reports is what the count of its processor moved by. -/
theorem retired_runTurns (h : ∀ p ∈ cpus, p.Used ω) (index : Nat) (w : ω) :
    (runTurns W quantum index cpus w).2.1.map (·.retired) =
      List.zipWith (· + ·) (cpus.map (·.retired)) ((runTurns W quantum index cpus w).1.map (·.executed)) := by
  induction cpus generalizing index w with
  | nil => rfl
  | cons p rest ih =>
    obtain ⟨-, hle, -⟩ := Processor.retired_run (h p List.mem_cons_self).fit (W.socket index) quantum w
    rw [runTurns_cons]
    generalize p.run (W.socket index) quantum w = out at hle ⊢
    obtain ⟨exit, p₁, w₁⟩ := out
    have hrest := ih (fun q hq => h q (List.mem_cons_of_mem _ hq)) (index + 1) w₁
    dsimp only at hle ⊢
    rw [List.map_cons, List.map_cons, List.map_cons, List.zipWith_cons_cons, hrest, Nat.add_sub_cancel' hle]

theorem length_turns (W : Wiring ω) (quantum index : Nat) (cpus : List Processor) (w : ω) :
    (runTurns W quantum index cpus w).1.length = cpus.length := by
  have hturns := congrArg List.length (ids_runTurns W quantum index cpus w).1
  rwa [List.length_map, List.length_map] at hturns

/-- The longest turn. -/
theorem exists_longest {turns : List TurnReport} (h : turns ≠ []) : ∃ t ∈ turns,
    (∀ u ∈ turns, u.executed ≤ t.executed) ∧ (turns.map (·.executed)).foldl max 0 = t.executed := by
  obtain ⟨first, rest, rfl⟩ := List.exists_cons_of_ne_nil h
  have hmax : ((first :: rest).map (·.executed)).max? =
      some (((first :: rest).map (·.executed)).foldl max 0) := by
    rw [List.map_cons, List.max?_cons', List.foldl_cons, Nat.zero_max]
  obtain ⟨hmem, hle⟩ := List.max?_eq_some_iff.1 hmax
  obtain ⟨t, ht, heq⟩ := List.mem_map.1 hmem
  refine ⟨t, ht, fun u hu => ?_, heq.symm⟩
  rw [heq]
  exact hle _ (List.mem_map_of_mem hu)

/-! ## Rounds -/

/-- What can be done to a processor of a machine, but for running it. -/
inductive Care where
  | assign (cpu : Cpu)
  | dropTraces
  | skipBreakpoint
  | allowLinks (enabled : Bool)

def Care.apply : Care → Processor → Processor
  | assign cpu, p => { p with cpu }
  | dropTraces, p => p.dropTraces
  | skipBreakpoint, p => p.skipBreakpoint
  | allowLinks enabled, p => p.allowLinks enabled

/-- A machine that is run in rounds only, as long as time has room for them. Between rounds it is called, its world,
guard and delivery may change in any way, and so may its processors but for their counts. -/
inductive InRounds : Machine ω → Prop
  | made {schedule : Schedule} {W : Wiring ω} {w : ω} {states : List Cpu} {m : Machine ω}
      (valid : new schedule W w states = .ok m) : InRounds m
  | round {m : Machine ω} (before : InRounds m) (room : m.ticks + m.round.1.advanced < UInt64.size) : InRounds m.round.2
  | called {m : Machine ω} (before : InRounds m) (c : Call) (other : c ≠ .round) : InRounds (m.call c)
  | rewired {m : Machine ω} (before : InRounds m) (W : Wiring ω) (w : ω) : InRounds { m with wiring := W, world := w }
  | tended {m : Machine ω} (before : InRounds m) (i : Nat) (care : Care) :
      InRounds { m with cpus := m.cpus.modify i care.apply }

/-- What the clock of a machine keeps to. -/
structure Clocked (m : Machine ω) : Prop where
  some : m.cpus ≠ []
  used : ∀ p ∈ m.cpus, p.Used ω
  ids : m.cpus.map (·.id) = List.range m.cpus.length
  /-- Time moves on in every round. -/
  rounds : m.rounds ≤ m.ticks
  /-- No processor is ahead of time. -/
  retired : ∀ n ∈ m.cpus.map (·.retired), n ≤ m.ticks
  /-- Time that no processor has used are single ticks of rounds. -/
  ticks : m.ticks ≤ (m.cpus.map (·.retired)).sum + m.rounds

/-- What a round reports, and what it does to the clock. -/
structure Ticked (m : Machine ω) : Prop where
  /-- One turn for each processor, in order. -/
  turns : m.round.1.turns.map (·.cpu) = List.range m.cpus.length
  /-- A turn reports what the count of its processor moved by. -/
  executed : m.round.2.cpus.map (·.retired) =
    List.zipWith (· + ·) (m.cpus.map (·.retired)) (m.round.1.turns.map (·.executed))
  /-- The round takes what its longest turn takes, and one tick at least. -/
  advanced : ∃ t ∈ m.round.1.turns, (∀ u ∈ m.round.1.turns, u.executed ≤ t.executed) ∧
    m.round.1.advanced = max 1 t.executed
  rounds : m.round.2.rounds = m.rounds + 1
  ticks : m.ticks + m.round.1.advanced < UInt64.size → m.round.2.ticks = m.ticks + m.round.1.advanced

/-- The clock depends on numbers and counts of the processors only. -/
theorem Clocked.congr {m' : Machine ω} (h : m.Clocked) (hused : ∀ p ∈ m'.cpus, p.Used ω)
    (hids : m'.cpus.map (·.id) = m.cpus.map (·.id)) (hretired : m'.cpus.map (·.retired) = m.cpus.map (·.retired))
    (hrounds : m'.rounds = m.rounds) (hticks : m'.ticks = m.ticks) : m'.Clocked := by
  have hlength : m'.cpus.length = m.cpus.length := by simpa using congrArg List.length hids
  refine ⟨fun hnil => h.some ?_, hused, ?_, ?_, ?_, ?_⟩
  · exact List.eq_nil_of_length_eq_zero (hlength.symm.trans (by rw [hnil]; rfl))
  · rw [hids, h.ids, hlength]
  · rw [hrounds, hticks]
    exact h.rounds
  · rw [hretired, hticks]
    exact h.retired
  · rw [hretired, hrounds, hticks]
    exact h.ticks

/-! ## A new machine -/

theorem numbered_processors {config : CoreConfig} {id : Nat} {states : List Cpu}
    (h : processors config id states = .ok cpus) :
    cpus.map (·.id) = List.range' id states.length ∧ ∀ n ∈ cpus.map (·.retired), n = 0 := by
  induction states generalizing id cpus with
  | nil =>
    cases h
    exact ⟨rfl, nofun⟩
  | cons cpu rest ih =>
    unfold processors Processor.new Processor.withDecoder at h
    cases hvalid : config.validate with
    | error e => rw [hvalid] at h; cases h
    | ok _ =>
      cases hrest : processors config (id + 1) rest with
      | error e => rw [hvalid, hrest] at h; cases h
      | ok cpus' =>
        rw [hvalid, hrest] at h
        cases h
        obtain ⟨hids, hretired⟩ := ih hrest
        refine ⟨congrArg (id :: ·) hids, fun n hn => ?_⟩
        rcases List.mem_cons.1 hn with rfl | hn
        · rfl
        · exact hretired n hn

theorem start_new {schedule : Schedule} {states : List Cpu} (h : new schedule W w states = .ok m) :
    m.ticks = 0 ∧ m.rounds = 0 := by
  unfold new at h
  cases hvalid : schedule.validate with
  | error e => rw [hvalid] at h; cases h
  | ok _ =>
    cases hcpus : processors (schedule.coreConfig states.length) 0 states with
    | error e =>
      rw [hvalid, hcpus] at h
      cases states <;> cases h
    | ok cpus =>
      rw [hvalid, hcpus] at h
      cases states with
      | nil => cases h
      | cons cpu rest =>
        cases h
        exact ⟨rfl, rfl⟩

theorem clocked_new {schedule : Schedule} {states : List Cpu} (h : new schedule W w states = .ok m) : m.Clocked := by
  obtain ⟨-, -, -, -, -, hstates, hcpus⟩ := new_eq_ok h
  obtain ⟨hticks, hrounds⟩ := start_new h
  obtain ⟨hids, hretired⟩ := numbered_processors hcpus
  have hlength := (config_processors hcpus).1
  refine ⟨fun hnil => hstates ?_, used_new h, ?_, ?_, fun n hn => ?_, ?_⟩
  · exact List.eq_nil_of_length_eq_zero (hlength.symm.trans (by rw [hnil]; rfl))
  · rw [hids, hlength, List.range_eq_range']
  · rw [hrounds]
    exact Nat.zero_le _
  · rw [hretired n hn]
    exact Nat.zero_le _
  · rw [hticks]
    exact Nat.zero_le _

/-! ## What is done to it -/

theorem Clocked.ticked (h : m.Clocked) : m.Ticked := by
  have hturns := turns_round m
  have hadvanced : m.round.1.advanced = max ((m.round.1.turns.map (·.executed)).foldl max 0) 1 := by
    cases m
    rfl
  have hsome : m.round.1.turns ≠ [] := fun hnil => h.some <| by
    have hlength := length_turns m.wiring m.quantum 0 m.cpus m.world
    rw [← hturns, hnil] at hlength
    exact List.eq_nil_of_length_eq_zero hlength.symm
  obtain ⟨t, ht, hlongest, hmax⟩ := exists_longest hsome
  refine ⟨?_, ?_, ⟨t, ht, hlongest, ?_⟩, ?_, fun hroom => ?_⟩
  · rw [hturns, (ids_runTurns ..).1, h.ids]
  · rw [cpus_round, hturns]
    exact retired_runTurns h.used 0 m.world
  · rw [hadvanced, hmax, Nat.max_comm]
  · rw [round_eq_fire]
    rfl
  · have hticks : m.round.2.ticks = min (m.ticks + m.round.1.advanced) (UInt64.size - 1) := by
      cases m
      rfl
    omega

theorem Clocked.round (h : m.Clocked) (room : m.ticks + m.round.1.advanced < UInt64.size) : m.round.2.Clocked := by
  obtain ⟨hturns, hexecuted, ⟨t, ht, hlongest, hadvanced⟩, hrounds, hticks⟩ := h.ticked
  have hticks := hticks room
  have hlength : (m.cpus.map (·.retired)).length = (m.round.1.turns.map (·.executed)).length := by
    have := congrArg List.length hturns
    rw [List.length_map, List.length_range] at this
    rw [List.length_map, List.length_map, this]
  have hids : m.round.2.cpus.map (·.id) = m.cpus.map (·.id) := by
    rw [cpus_round]
    exact (ids_runTurns ..).2
  have hexec : ∀ k ∈ m.round.1.turns.map (·.executed), k ≤ m.round.1.advanced := fun k hk => by
    obtain ⟨u, hu, rfl⟩ := List.mem_map.1 hk
    have := hlongest u hu
    omega
  refine ⟨fun hnil => h.some ?_, used_round h.used, ?_, ?_, fun n hn => ?_, ?_⟩
  · exact List.eq_nil_of_length_eq_zero ((length_cpus_round m).symm.trans (by rw [hnil]; rfl))
  · rw [hids, h.ids, length_cpus_round]
  · have := h.rounds
    omega
  · -- what a processor counts in the round is no more than what the round takes
    rw [hexecuted] at hn
    obtain ⟨i, hi, rfl⟩ := List.getElem_of_mem hn
    rw [List.getElem_zipWith, hticks]
    exact Nat.add_le_add (h.retired _ (List.getElem_mem _)) (hexec _ (List.getElem_mem _))
  · -- and the longest turn is one of those that are counted
    have hsum := List.sum_add_sum_eq_sum_zipWith_of_length_eq _ _ hlength
    have hone : t.executed ≤ (m.round.1.turns.map (·.executed)).sum :=
      List.le_sum_of_mem (List.mem_map_of_mem ht)
    have := h.ticks
    rw [hexecuted, ← hsum]
    omega

theorem Clocked.call (h : m.Clocked) (c : Call) (hc : c ≠ .round) : (m.call c).Clocked := by
  cases c with
  | arm tick cpu events =>
    by_cases hcpu : cpu < m.cpus.length
    · rw [arm_of_lt hcpu]
      exact h.congr h.used rfl rfl rfl rfl
    · rwa [(arm_of_le (Nat.le_of_not_lt hcpu) tick events).2]
  | round => exact absurd rfl hc
  | store addr src => exact h.congr h.used rfl rfl rfl rfl
  | noteStore addr len => exact h.congr h.used rfl rfl rfl rfl
  | clearCaches =>
    refine h.congr (fun q hq => ?_) ?_ ?_ rfl rfl
    · obtain ⟨p, hp, rfl⟩ := List.mem_map.1 hq
      exact (h.used p hp).dropped
    · exact List.map_map
    · exact List.map_map

/-- What is done to a processor leaves its number and its count alone. -/
theorem apply_care (care : Care) (p : Processor) : (care.apply p).id = p.id ∧ (care.apply p).retired = p.retired ∧
    (p.Used ω → (care.apply p).Used ω) := by
  cases care with
  | assign cpu => exact ⟨rfl, rfl, .assigned cpu⟩
  | dropTraces => exact ⟨rfl, rfl, .dropped⟩
  | skipBreakpoint => exact ⟨rfl, rfl, .skipped⟩
  | allowLinks enabled => exact ⟨rfl, rfl, .linked enabled⟩

theorem Clocked.tended (h : m.Clocked) (i : Nat) (care : Care) :
    ({ m with cpus := m.cpus.modify i care.apply } : Machine ω).Clocked := by
  have hsame : ∀ {α : Type} (f : Processor → α), (∀ p, f (care.apply p) = f p) →
      (m.cpus.modify i care.apply).map f = m.cpus.map f := by
    intro α f hf
    refine List.ext_getElem (by simp) fun j _ _ => ?_
    rw [List.getElem_map, List.getElem_map, List.getElem_modify]
    split
    · exact hf _
    · rfl
  refine h.congr (fun q hq => ?_) (hsame _ fun p => (apply_care (ω := ω) care p).1)
    (hsame _ fun p => (apply_care (ω := ω) care p).2.1) rfl rfl
  obtain ⟨j, hj, rfl⟩ := List.getElem_of_mem hq
  rw [List.getElem_modify]
  split
  · exact (apply_care care _).2.2 (h.used _ (List.getElem_mem _))
  · exact h.used _ (List.getElem_mem _)

/-- Time never stalls and never falls behind, whatever the processors run into and whatever is done to them between
rounds. -/
theorem clock_of_inRounds (h : m.InRounds) : m.Clocked ∧ m.Ticked := by
  suffices hclocked : m.Clocked from ⟨hclocked, hclocked.ticked⟩
  induction h with
  | made valid => exact clocked_new valid
  | round _ room ih => exact ih.round room
  | called _ c other ih => exact ih.call c other
  | rewired _ W w ih => exact ih.congr ih.used rfl rfl rfl rfl
  | tended _ i care ih => exact ih.tended i care

/-- A processor before `rep stosb`, with a hundred bytes to store, and one that is halted. -/
def busyAndHalted : Machine (Board Unit Unit) :=
  { schedule := { sharedQuantum := 8, cpu := hundred.config }, wiring := Board.wiring .none .toCaller
    world := { Processor.fillBoard with lines := #[{}, {}] }
    cpus := [{ hundred with config.linkTraces := false, linker := .new { hundred.config with linkTraces := false } },
      { Processor.small { Cpu.new .protectedMode with halted := true } with
        id := 1, config.linkTraces := false, linker := .new { hundred.config with linkTraces := false } }]
    timers := {}, ticks := 0, rounds := 0 }

/-- Two rounds take 31 ticks each, all of them of the first processor. -/
theorem clock_busyAndHalted :
    let m := busyAndHalted.round.2
    m.InRounds ∧ m.Clocked ∧ m.Ticked ∧ m.ticks = 31 ∧ m.rounds = 1 ∧
      m.round.1.turns = [⟨0, .quantumExhausted, 31⟩, ⟨1, .halted, 0⟩] ∧ m.round.2.ticks = 62 := by
  have hnew : new busyAndHalted.schedule busyAndHalted.wiring busyAndHalted.world
      [hundred.cpu, { Cpu.new .protectedMode with halted := true }] = .ok busyAndHalted := rfl
  have hrounds : busyAndHalted.round.2.InRounds := (InRounds.made hnew).round (by decide +kernel)
  obtain ⟨hclocked, hticked⟩ := clock_of_inRounds hrounds
  exact ⟨hrounds, hclocked, hticked, by decide +kernel, by decide +kernel, by decide +kernel, by decide +kernel⟩

end Machine

end TraceCore
