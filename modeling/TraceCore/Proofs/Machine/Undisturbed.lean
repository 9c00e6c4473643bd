/-
Processors of a machine interact through memory only. As long as one stores to no byte that the other loads afterwards, or
fetches, the other goes on in every round as if the first were halted. That both report to one stamp table, where
stores of the one outdate what the other has cached, is not to be seen.
-/
import TraceCore.Proofs.Machine.Lateness
import TraceCore.Proofs.Processor.Apart
import TraceCore.Proofs.Processor.Spared
import TraceCore.Proofs.Processor.Twins

namespace TraceCore

/-! ## Turns -/

namespace Machine

variable {ω : Type}

/-- How the turn of processor `i` in the next round ends, what it executes, and the state that it leaves. -/
def turn? (m : Machine ω) (i : Nat) : Option (Exit × Nat × Cpu) := do
  let t ← m.round.1.turns[i]?
  let p ← m.round.2.cpus[i]?
  return (t.exit, t.executed, p.cpu)

/-- The world that processor `i` finds when its turn in the next round comes. -/
def found (m : Machine ω) (i : Nat) : ω := (runTurns m.wiring m.quantum 0 (m.cpus.take i) m.world).2.2

/-- What processor `i` touches in its turn in the next round. -/
def ledger (m : Machine ω) (i : Nat) : Ledger ω :=
  match m.cpus[i]? with
  | none => { world := m.found i }
  | some p => p.touched (m.wiring.socket i) m.quantum (m.found i)

/-- In its turn in the next round, processor `i` comes to an instruction pointer where it has an instruction to execute,
and the byte at `x` is one of those from there on that the instruction could have. -/
def Fetches (m : Machine ω) (i x : Nat) : Prop :=
  ∃ p point q w, m.cpus[i]? = some p ∧
    Processor.Visits (m.wiring.socket i) (p.limitFor m.quantum) p (m.found i) point q w ∧ q.cpu.halted = false ∧
      q.retired < p.limitFor m.quantum ∧
        ∃ n < maxInstrLen, (q.cpu.codeAddress (q.cpu.rip + UInt64.ofNat n)).toNat = x

end Machine

variable {γ δ : Type} {S : Nat → Prop} {i j : Nat} {w v : Board γ δ}

namespace Board

/-- A processor leaves the event lines of others alone. -/
theorem keeps_events (hij : i ≠ j) (e : Events) :
    (unwatched .toCaller i : Socket (Board γ δ)).Keeps fun w => (line j).events w = e :=
  keeps_lines Guard.sparesLines_none (Q := fun lines => lines.getD j {} = e) fun e' lines h => by
    rw [← h]
    simp [hij]

theorem keeps_size (i n : Nat) : (unwatched .toCaller i : Socket (Board γ δ)).Keeps fun w => w.lines.size = n :=
  keeps_lines Guard.sparesLines_none (Q := fun lines => lines.size = n) fun e lines h => by simpa using h

end Board

namespace Processor

variable {p : Processor}

/-- Behind the turn of another processor, boards are alike outside a set that has in it what that one stored. -/
theorem alikeOutside_run (budget : Nat) (h : w.AlikeOutside S i v) (hij : j ≠ i) {S' : Nat → Prop}
    (hS : ∀ x, S x → S' x) (hstored : ∀ x ∈ (p.touched (Board.unwatched .toCaller j) budget w).writes, S' x) :
    (p.run (Board.unwatched .toCaller j) budget w).2.2.AlikeOutside S' i v := by
  have hcourse := course_run (i := j) (Regime.identity γ δ .unmapped).isCourse Guard.quiet_none
    (Delivery.keeps_toCaller (Regime.identity γ δ .unmapped).isCourse) budget p w
  have hunmapped : (p.run (Board.unwatched .toCaller j) budget w).2.2.mem.mappings = none := (hcourse.2 h.unmapped).2
  have hlines := (Board.keeps_size j w.lines.size).run budget p rfl
  have hevents := (Board.keeps_events hij ((Board.line i).events w)).run budget p rfl
  refine ⟨hunmapped, ?_, h.size.trans hcourse.1.moves.size.symm, ?_, h.lines.trans hlines.symm,
    h.events.trans hevents.symm⟩
  · rw [hunmapped, h.mappings, h.unmapped]
  · intro x hx
    rw [bytes_run fun hwritten => hx (hstored x hwritten)]
    exact h.bytes x fun hin => hx (hS x hin)

/-- Serving events of another processor leaves the boards alike. -/
theorem Passed.alikeOutside (h : Passed j w v) (hw : w.mem.mappings = none) (hij : j ≠ i) (S : Nat → Prop) :
    w.AlikeOutside S i v := by
  obtain rfl | ⟨e, rfl⟩ := h.only
  · exact ⟨hw, rfl, rfl, fun _ _ => rfl, rfl, rfl⟩
  · refine ⟨hw, rfl, rfl, fun _ _ => rfl, Array.size_setIfInBounds, ?_⟩
    exact (Board.keeps_events hij _).set e w rfl

end Processor

namespace Machine

open Board

variable {schedule : Schedule} {m m' : Machine (Board γ δ)} {p p₁ q q₁ : Processor} {k : Nat}

/-! ## Two processors -/

/-- A machine of two processors, without a debugger and without timers. -/
structure Duo (schedule : Schedule) (m : Machine (Board γ δ)) (p p₁ : Processor) : Prop where
  wiring : m.wiring = Board.wiring .none .toCaller
  schedule : m.schedule = schedule
  cpus : m.cpus = [p, p₁]
  timers : m.timers.deadlines = []

namespace Duo

theorem quantum (h : m.Duo schedule p p₁) : m.quantum = schedule.sharedQuantum := by
  unfold Machine.quantum
  rw [h.cpus, h.schedule]
  rfl

/-- What a round comes to: two turns, and nothing falls due. -/
theorem round (h : m.Duo schedule p p₁) {exit exit₁ : Exit} {p' p₁' : Processor} {w w₁ : Board γ δ}
    (hrun : p.run (unwatched .toCaller 0) schedule.sharedQuantum m.world = (exit, p', w))
    (hrun₁ : p₁.run (unwatched .toCaller 1) schedule.sharedQuantum w = (exit₁, p₁', w₁)) :
    m.round.2.Duo schedule p' p₁' ∧ m.round.2.world = w₁ ∧
      m.ledger 0 = p.touched (unwatched .toCaller 0) schedule.sharedQuantum m.world ∧
      m.ledger 1 = p₁.touched (unwatched .toCaller 1) schedule.sharedQuantum w ∧
      m.turn? 0 = some (exit, p'.retired - p.retired, p'.cpu) := by
  have hquantum := h.quantum
  have hturns : runTurns m.wiring m.quantum 0 m.cpus m.world =
      ([⟨p'.id, exit, p'.retired - p.retired⟩, ⟨p₁'.id, exit₁, p₁'.retired - p₁.retired⟩], [p', p₁'], w₁) := by
    rw [h.wiring, h.cpus, hquantum, runTurns_cons,
      show p.run ((Board.wiring .none .toCaller).socket 0) schedule.sharedQuantum m.world = _ from hrun]
    dsimp only
    rw [runTurns_cons,
      show p₁.run ((Board.wiring .none .toCaller).socket (0 + 1)) schedule.sharedQuantum w = _ from hrun₁]
    rfl
  have hran : m.ran.world = w₁ := congrArg (·.2.2) hturns
  have hnone : m.round.2.timers.deadlines = [] := by
    rw [round_eq_fire]
    show m.timers.deadlines.dropWhile _ = []
    rw [h.timers]
    rfl
  refine ⟨⟨(wiring_round m).trans h.wiring, ?_, ?_, hnone⟩, ?_, ?_, ?_, ?_⟩
  · rw [round_eq_fire]
    exact h.schedule
  · rw [cpus_round, hturns]
  · rw [round_eq_fire]
    show (m.timers.deadlines.takeWhile _).foldl _ m.ran.world = w₁
    rw [h.timers, hran]
    rfl
  · unfold ledger found
    rw [h.cpus, h.wiring, hquantum]
    rfl
  · have hfound : m.found 1 = w := by
      unfold found
      rw [h.cpus, h.wiring, hquantum]
      exact congrArg (·.2.2) hrun
    unfold ledger
    rw [h.cpus, h.wiring, hquantum, hfound]
    rfl
  · unfold turn?
    rw [turns_round, cpus_round, hturns]
    rfl

theorem fetches (h : m.Duo schedule p p₁) {point : Point} {w : Board γ δ} {n : Nat}
    (hv : Processor.Visits (unwatched .toCaller 0) (p.limitFor schedule.sharedQuantum) p m.world point q w)
    (hawake : q.cpu.halted = false) (hbudget : q.retired < p.limitFor schedule.sharedQuantum) (hn : n < maxInstrLen) :
    m.Fetches 0 (q.cpu.codeAddress (q.cpu.rip + UInt64.ofNat n)).toNat := by
  refine ⟨p, point, q, w, by simp [h.cpus], ?_, hawake, by rwa [h.quantum], n, hn, rfl⟩
  rw [h.wiring, h.quantum]
  exact hv

end Duo

/-- Where no stamp comes round in a round, the first processor is as sound behind it as before. -/
theorem Duo.sound_round (h : m.Duo schedule p p₁) (hp : p.Sound (Regime.identity γ δ .unmapped) m.world)
    {exit exit₁ : Exit} {p' p₁' : Processor} {w w₁ : Board γ δ}
    (hrun : p.run (unwatched .toCaller 0) schedule.sharedQuantum m.world = (exit, p', w))
    (hrun₁ : p₁.run (unwatched .toCaller 1) schedule.sharedQuantum w = (exit₁, p₁', w₁))
    (hlag : m.round.2.world.mem.ram.stamps.lag = m.world.mem.ram.stamps.lag) :
    w.mem.ram.stamps.lag = m.world.mem.ram.stamps.lag ∧ p'.Sound (Regime.identity γ δ .unmapped) w ∧
      p'.Sound (Regime.identity γ δ .unmapped) m.round.2.world := by
  have hR := (Regime.identity γ δ .unmapped).isCourse
  have htame := Delivery.tame_toCaller (Regime.identity γ δ .unmapped)
  have hfirst := Processor.course_run (i := 0) hR Guard.quiet_none htame.keeps schedule.sharedQuantum p m.world
  have hsecond := Processor.course_run (i := 1) hR Guard.quiet_none htame.keeps schedule.sharedQuantum p₁ w
  have hsound := Processor.sound_run (i := 0) Guard.quiet_none htame schedule.sharedQuantum hp
  rw [hrun] at hfirst hsound
  rw [hrun₁] at hsecond
  rw [(h.round hrun hrun₁).2.1] at hlag ⊢
  have hle := (Regime.identity γ δ .unmapped).lag_le hfirst
  have hle₁ := (Regime.identity γ δ .unmapped).lag_le hsecond
  have hstill : w.mem.ram.stamps.lag = m.world.mem.ram.stamps.lag := by
    dsimp only at hle hle₁
    omega
  have hbetween := (hsound hstill).2
  exact ⟨hstill, hbetween, hbetween.goesOn hsecond (hlag.trans hstill.symm)⟩

/-! ## Beside a machine whose second processor is halted -/

/-- The first processors cannot be told apart, and the memories hold the same outside the set. The second processor of the
second machine is halted, and nothing wakes it. -/
structure Beside (S : Nat → Prop) (schedule : Schedule) (m m' : Machine (Board γ δ)) (p p₁ q q₁ : Processor) : Prop where
  duo : m.Duo schedule p p₁
  duo' : m'.Duo schedule q q₁
  sound : p.Sound (Regime.identity γ δ .unmapped) m.world
  sound' : q.Sound (Regime.identity γ δ .unmapped) m'.world
  alike : p.Alike q
  boards : m.world.AlikeOutside S 0 m'.world
  halted : q₁.cpu.halted = true
  asleep : ((line 1).events m'.world).pending.any = false

/-- In a round the first processors go on alike, if they load and fetch nothing of the set. Behind it, what the second one
stored has to be in the set, too. -/
theorem Beside.round (h : Beside S schedule m m' p p₁ q q₁) (hapart : ∀ x, S x → x ∉ (m.ledger 0).reads ∧ ¬m.Fetches 0 x)
    {S' : Nat → Prop} (hS : ∀ x, S x → S' x) (hstores : ∀ x ∈ (m.ledger 1).writes, S' x)
    (hlag : m.round.2.world.mem.ram.stamps.lag = m.world.mem.ram.stamps.lag)
    (hlag' : m'.round.2.world.mem.ram.stamps.lag = m'.world.mem.ram.stamps.lag) :
    (∃ out, m.turn? 0 = some out ∧ m'.turn? 0 = some out) ∧
      ∃ p p₁ q q₁, Beside S' schedule m.round.2 m'.round.2 p p₁ q q₁ := by
  -- the turns in both machines, of which the last one is nothing
  rcases hrun : p.run (unwatched .toCaller 0) schedule.sharedQuantum m.world with ⟨exit, p', w⟩
  rcases hrun₁ : p₁.run (unwatched .toCaller 1) schedule.sharedQuantum w with ⟨exit₁, p₁', w₁⟩
  rcases hrun' : q.run (unwatched .toCaller 0) schedule.sharedQuantum m'.world with ⟨exit', q', v⟩
  have hasleep : ((line 1).events v).pending.any = false := by
    have hevents := (keeps_events (show 0 ≠ 1 by decide) _).run schedule.sharedQuantum q (w := m'.world) rfl
    rw [hrun'] at hevents
    rw [show (line 1).events v = _ from hevents]
    exact h.asleep
  have hrun₁' := Processor.run_of_halted ((Processor.passed_of_pending hasleep).serves _) h.halted schedule.sharedQuantum
  obtain ⟨hduo, hworld, hledger, hledger₁, hturn⟩ := h.duo.round hrun hrun₁
  obtain ⟨hduo', hworld', -, -, hturn'⟩ := h.duo'.round hrun' hrun₁'
  obtain ⟨hstill, -, hsound⟩ := h.duo.sound_round h.sound hrun hrun₁ hlag
  obtain ⟨hstill', -, hsound'⟩ := h.duo'.sound_round h.sound' hrun' hrun₁' hlag'
  have hparallel := Processor.parallel_run schedule.sharedQuantum h.sound h.sound' h.alike h.boards
    (fun point q w hv hawake hbudget n hn hS => (hapart _ hS).2 (h.duo.fetches hv hawake hbudget hn))
    (fun x hx hS => (hapart x hS).1 (by rwa [hledger])) (by rwa [hrun]) (by rwa [hrun'])
  have hboards := Processor.alikeOutside_run (p := p₁) schedule.sharedQuantum hparallel.boards (show 1 ≠ 0 by decide) hS
    (by rwa [hrun, ← hledger₁])
  rw [hrun, hrun'] at hparallel
  rw [hrun, hrun'] at hboards
  dsimp only at hboards
  rw [hrun₁] at hboards
  obtain ⟨houtcome, hprocs, -⟩ := hparallel
  dsimp only at houtcome hprocs
  refine ⟨⟨_, hturn, ?_⟩, p', p₁', q', _, hduo, hduo', hsound, hsound', hprocs, ?_, h.halted, ?_⟩
  · rw [hturn', houtcome, hprocs.retired, h.alike.retired, hprocs.cpu]
  · rw [hworld, hworld']
    exact hboards
  · rwa [hworld']

/-! ## Before events have let the second processor go on -/

/-- The same machines, but the second processor of the second one may be halted. -/
structure Same (schedule : Schedule) (m m' : Machine (Board γ δ)) (p p₁ q₁ : Processor) : Prop where
  duo : m.Duo schedule p p₁
  duo' : m'.Duo schedule p q₁
  sound : p.Sound (Regime.identity γ δ .unmapped) m.world
  world : m'.world = m.world
  second : q₁ = p₁ ∨ q₁ = p₁.dozing

/-- A round of both is the same, until the second processor goes on in the first machine only. -/
theorem Same.round (h : Same schedule m m' p p₁ q₁) (hstores : ∀ x ∈ (m.ledger 1).writes, S x)
    (hlag : m.round.2.world.mem.ram.stamps.lag = m.world.mem.ram.stamps.lag)
    (hlag' : m'.round.2.world.mem.ram.stamps.lag = m'.world.mem.ram.stamps.lag) :
    (∃ out, m.turn? 0 = some out ∧ m'.turn? 0 = some out) ∧
      ((∃ p p₁ q₁, Same schedule m.round.2 m'.round.2 p p₁ q₁) ∨
        ∃ p p₁ q q₁, Beside S schedule m.round.2 m'.round.2 p p₁ q q₁) := by
  rcases hrun : p.run (unwatched .toCaller 0) schedule.sharedQuantum m.world with ⟨exit, p', w⟩
  rcases hrun₁ : p₁.run (unwatched .toCaller 1) schedule.sharedQuantum w with ⟨exit₁, p₁', w₁⟩
  have hrun' : p.run (unwatched .toCaller 0) schedule.sharedQuantum m'.world = (exit, p', w) := by rw [h.world, hrun]
  have hsound' : p.Sound (Regime.identity γ δ .unmapped) m'.world := by
    rw [h.world]
    exact h.sound
  obtain ⟨hduo, hworld, -, hledger₁, hturn⟩ := h.duo.round hrun hrun₁
  obtain ⟨-, hbetween, hsound⟩ := h.duo.sound_round h.sound hrun hrun₁ hlag
  -- where the second processors do the same, so do the machines
  have hsame : ∀ q₁', q₁.run (unwatched .toCaller 1) schedule.sharedQuantum w = (exit₁, q₁', w₁) →
      q₁' = p₁' ∨ q₁' = p₁'.dozing → (∃ out, m.turn? 0 = some out ∧ m'.turn? 0 = some out) ∧
        ∃ p p₁ q₁, Same schedule m.round.2 m'.round.2 p p₁ q₁ := by
    intro q₁' hrun₁' hsecond
    obtain ⟨hduo', hworld', -, -, hturn'⟩ := h.duo'.round hrun' hrun₁'
    exact ⟨⟨_, hturn, hturn'⟩, p', p₁', q₁', hduo, hduo', hsound, hworld'.trans hworld.symm, hsecond⟩
  rcases h.second with rfl | rfl
  · exact (hsame p₁' hrun₁ (Or.inl rfl)).imp_right Or.inl
  · rcases Processor.run_dozing 1 p₁ schedule.sharedQuantum w with ⟨w', hpassed⟩ | ⟨exit₂, p₂, q₂, w₂, hleft, hleft', hsecond⟩
    · have hrun₁' := Processor.run_of_halted (p := p₁.dozing) (hpassed.serves _) rfl schedule.sharedQuantum
      obtain ⟨hduo', hworld', -, -, hturn'⟩ := h.duo'.round hrun' hrun₁'
      obtain ⟨-, -, hsound'⟩ := h.duo'.sound_round hsound' hrun' hrun₁' hlag'
      have hboards := Processor.alikeOutside_run (p := p₁) schedule.sharedQuantum
        (hpassed.alikeOutside hbetween.mem (show 1 ≠ 0 by decide) fun _ => False) (show 1 ≠ 0 by decide)
        (fun _ => False.elim) (by rwa [← hledger₁])
      rw [hrun₁] at hboards
      refine ⟨⟨_, hturn, hturn'⟩, Or.inr ⟨p', p₁', p', _, hduo, hduo', hsound, hsound', .refl p', ?_, rfl, ?_⟩⟩
      · rw [hworld, hworld']
        exact hboards
      · rw [hworld']
        exact hpassed.pending
    · cases hrun₁.symm.trans hleft
      exact (hsame q₂ hleft' hsecond).imp_right Or.inl

/-! ## Round after round -/

/-- The machines have gone on in the same way, or their first processors have, with the second one of the second machine
halted. -/
def Alongside (S : Nat → Prop) (schedule : Schedule) (m m' : Machine (Board γ δ)) : Prop :=
  (∃ p p₁ q₁, Same schedule m m' p p₁ q₁) ∨ ∃ p p₁ q q₁, Beside S schedule m m' p p₁ q q₁

theorem Alongside.round (h : Alongside S schedule m m') (hapart : ∀ x, S x → x ∉ (m.ledger 0).reads ∧ ¬m.Fetches 0 x)
    {S' : Nat → Prop} (hS : ∀ x, S x → S' x) (hstores : ∀ x ∈ (m.ledger 1).writes, S' x)
    (hlag : m.round.2.world.mem.ram.stamps.lag = m.world.mem.ram.stamps.lag)
    (hlag' : m'.round.2.world.mem.ram.stamps.lag = m'.world.mem.ram.stamps.lag) :
    (∃ out, m.turn? 0 = some out ∧ m'.turn? 0 = some out) ∧ Alongside S' schedule m.round.2 m'.round.2 := by
  rcases h with ⟨p, p₁, q₁, hsame⟩ | ⟨p, p₁, q, q₁, hbeside⟩
  · exact hsame.round hstores hlag hlag'
  · exact (hbeside.round hapart hS hstores hlag hlag').imp_right Or.inr

theorem Duo.later (h : m.Duo schedule p p₁) (j : Nat) : ∃ p p₁, (m.later j).Duo schedule p p₁ := by
  induction j with
  | zero => exact ⟨p, p₁, h⟩
  | succ j ih =>
    obtain ⟨p, p₁, hduo⟩ := ih
    rcases hrun : p.run (unwatched .toCaller 0) schedule.sharedQuantum (m.later j).world with ⟨exit, p', w⟩
    rcases hrun₁ : p₁.run (unwatched .toCaller 1) schedule.sharedQuantum w with ⟨exit₁, p₁', w₁⟩
    exact ⟨p', p₁', (hduo.round hrun hrun₁).1⟩

/-- It fills what lies between the two loops. -/
def filler : Cpu := ((Cpu.new .protectedMode).setRip 0x40).write .rdi .w64 0x20

end Machine

end TraceCore
