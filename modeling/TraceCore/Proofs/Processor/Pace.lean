/-
While pages lie at their own addresses, a processor does what one without a cache does. Step by step: at a
boundary both serve events, and the processor comes to a record; from a record both execute the same
instruction. So a run ends as it does without a cache.
-/
import TraceCore.Proofs.Processor.Identity
import TraceCore.Proofs.Processor.Plain

namespace TraceCore

namespace Processor

variable {γ δ : Type} {L : Layout} {d : Delivery (Board γ δ)} {i limit : Nat} {p q : Processor} {w v : Board γ δ}

/-! ## Before an instruction -/

/-- Nothing is to be looked at before the next instruction. -/
structure Free {ω : Type} (s : Socket ω) (limit : Nat) (p : Processor) (w : ω) : Prop where
  events : (s.line.events w).any = false
  budget : p.retired < limit
  awake : p.cpu.halted = false

theorem pending_of_none {e : Events} (h : e.any = false) : e.pending.any = false := by
  have hbits : e.bits = 0 := by simpa [Events.any] using h
  show (e.bits &&& _ != 0) = false
  rw [hbits]
  simp

/-- When events are served, the processor is awake and budget is left, an instruction is executed. -/
theorem stepPlain_of_served {ω : Type} {s : Socket ω} {w w' : ω} (hserved : serve s p w = (none, q, w'))
    (hawake : q.cpu.halted = false) (hbudget : q.retired < limit) : p.stepPlain s limit w = q.stepInstr s limit w' := by
  unfold Processor.stepPlain
  rw [hserved]
  dsimp only
  rw [if_neg (ne_true_of_eq_false hawake), if_neg (Nat.not_le.2 hbudget)]

theorem Free.served {ω : Type} {s : Socket ω} {w : ω} (h : Free s limit p w) : serve s p w = (none, p, w) :=
  serve_of_quiet (pending_of_none h.events) p

/-- How a processor without a cache stands beside one that is at a point. Before a record it has served
events already. -/
inductive Abreast (s : Socket (Board γ δ)) (limit : Nat) (p : Processor) (w : Board γ δ) (q : Processor)
    (v : Board γ δ) :
    Point → Prop
  | boundary (alike : p.Alike q) (boards : w.Matches v) : Abreast s limit p w q v .boundary
  | record {index left generation : Nat} {branch : Option Nat} (q' : Processor) (v' : Board γ δ)
      (served : serve s q v = (none, q', v')) (alike : p.Alike q') (boards : w.Matches v')
      (budget : p.retired < limit) (awake : p.cpu.halted = false) :
      Abreast s limit p w q v (.record index left generation branch)

/-- Where nothing is to be looked at, it makes no difference whether events were served. -/
theorem Free.abreast {point : Point} (h : Free (Board.unwatched d i) limit p w) (hp : p.Alike q) (hw : w.Matches v) :
    Abreast (Board.unwatched d i) limit p w q v point := by
  cases point with
  | boundary => exact .boundary hp hw
  | record index left generation branch =>
    have hfree : Free (Board.unwatched d i) limit q v :=
      ⟨(congrArg Events.any (hw.events i)).trans h.events,
        by rw [hp.retired]; exact h.budget, by rw [hp.cpu]; exact h.awake⟩
    exact .record q v hfree.served hp hw h.budget h.awake

/-- Steps that suffice from a point with `left` instructions to go: one to each record and one from it,
and one to see that none is left. -/
def stepsFrom (left : Nat) : Point → Nat
  | .boundary => 2 * left + 1
  | .record .. => 2 * left

theorem stepsFrom_le (left : Nat) (point : Point) : stepsFrom left point ≤ 2 * left + 1 := by
  cases point with
  | boundary => exact Nat.le_refl _
  | record => exact Nat.le_succ _

theorem le_stepsFrom (left : Nat) (point : Point) : 2 * left ≤ stepsFrom left point := by
  cases point with
  | boundary => exact Nat.le_succ _
  | record => exact Nat.le_refl _

/-- The step `x` of a processor at a point, and the other one's. Both leave, or the processor came to a
record and the other one waits, or both have gone on. -/
inductive Keeping (s : Socket (Board γ δ)) (limit : Nat) (point : Point) (p q : Processor) (v : Board γ δ)
    (x : Step × Processor × Board γ δ) : Prop
  | left (exit : Exit) (here : x.1 = .leave exit) (there : (q.stepPlain s limit v).1 = .leave exit)
      (alike : x.2.1.Alike (q.stepPlain s limit v).2.1) (boards : x.2.2.Matches (q.stepPlain s limit v).2.2)
  | entered (next : Point) (here : x.1 = .goto next) (same : x.2.1.retired = p.retired)
      (nearer : stepsFrom (limit - p.retired) next < stepsFrom (limit - p.retired) point)
      (abreast : Abreast s limit x.2.1 x.2.2 q v next)
  | moved (next : Point) (here : x.1 = .goto next) (there : (q.stepPlain s limit v).1 = .goto .boundary)
      (less : limit - x.2.1.retired < limit - p.retired)
      (abreast : Abreast s limit x.2.1 x.2.2 (q.stepPlain s limit v).2.1 (q.stepPlain s limit v).2.2 next)

/-! ## From a record -/

/-- A guard that wants nothing stops before no instruction. -/
theorem stopsAt_of_no {ω : Type} {s : Socket ω} (hstops : ∀ rip w, s.guard.stopsBefore rip w = (false, w))
    (hwatches : ∀ addr len kind w, s.guard.watches addr len kind w = (false, w)) (rip : UInt64) (len : Nat)
    (p : Processor) (w : ω) : p.stopsAt s rip len w = (false, { p with resume := false }, w) := by
  unfold stopsAt
  split
  case isTrue => rfl
  case isFalse h =>
    have hresume : p = { p with resume := false } := by
      cases p
      simp only [Bool.not_eq_true] at h
      rw [h]
    simp only [← hresume, hstops, hwatches, if_neg Bool.false_ne_true, ite_self]

/-- Without a debugger, nothing stops before an instruction. -/
theorem stopsAt_unwatched (rip : UInt64) (len : Nat) (p : Processor) (w : Board γ δ) :
    p.stopsAt (Board.unwatched d i) rip len w = (false, { p with resume := false }, w) :=
  stopsAt_of_no (fun _ _ => rfl) (fun _ _ _ _ => rfl) rip len p w

/-- A fault is counted. Handing it over leads to a boundary, or out. -/
theorem keeping_handFault (hd : d.Blind) {p₀ q₀ : Processor} {v₀ : Board γ δ} (point : Point) (fault : Fault)
    (rip : UInt64)
    (hp : p.Alike q) (hw : w.Matches v) (hbudget : p₀.retired < limit) (hretired : p₀.retired ≤ p.retired)
    (hsteps : q₀.stepPlain (Board.unwatched d i) limit v₀ = q.handFault (Board.unwatched d i) fault rip v) :
    Keeping (Board.unwatched d i) limit point p₀ q₀ v₀ (p.handFault (Board.unwatched d i) fault rip w) := by
  obtain ⟨houtcome, hprocs, hboards⟩ := agree_handFault (i := i) hd hp hw fault rip
  rw [← hsteps] at houtcome hprocs hboards
  have hhanded := handed_handFault (Board.unwatched d i) fault rip p w
  generalize p.handFault (Board.unwatched d i) fault rip w = out at houtcome hprocs hboards hhanded ⊢
  cases hhanded with
  | retried => exact .moved .boundary rfl houtcome (by dsimp only; omega) (.boundary hprocs hboards)
  | delivered => exact .moved .boundary rfl houtcome (by dsimp only; omega) (.boundary hprocs hboards)
  | escalated => exact .left (.fatal fault) rfl houtcome hprocs hboards

theorem keeping_stepRecord (hd : d.Blind) (h : p.Sound (Regime.identity γ δ L) w) {index left generation : Nat}
    {branch : Option Nat}
    (hready : p.Ready w (.record index left generation branch))
    (ha : Abreast (Board.unwatched d i) limit p w q v (.record index left generation branch)) :
    Keeping (Board.unwatched d i) limit (.record index left generation branch) p q v
      (p.stepRecord (Board.unwatched d i) limit index left generation branch w) := by
  cases ha with | record q' v' served alike boards budget awake
  have steps := stepPlain_of_served served (by rw [alike.cpu]; exact awake)
    (show q'.retired < limit by rw [alike.retired]; exact budget)
  obtain ⟨-, t, k, n, hon⟩ := hready
  obtain ⟨record, hrecord, hfetch⟩ := hon.refetch (d := d) (i := i) Guard.quiet_none h
  have hp₁ : Alike { p with resume := false } q' := ⟨alike.cpu, alike.retired, alike.interval, alike.decode⟩
  have hran := executed_execute (Board.unwatched d i) limit record.instr { p with resume := false } w
  obtain ⟨hhit, hagree⟩ := agree_execute (d := d) (i := i) hp₁ boards limit record.instr
  rw [stepInstr_of_ok ((alike.refetch boards).trans hfetch)] at steps
  unfold stepRecord
  unfold perform at steps
  rw [hrecord]
  dsimp only
  rw [stopsAt_unwatched]
  rw [alike.cpu] at steps
  dsimp only at steps ⊢
  generalize execute (Board.unwatched d i) limit record.instr { p with resume := false } w = out at hran hhit hagree ⊢
  generalize execute (Board.unwatched d i) limit record.instr q' v' = out' at hhit hagree steps
  obtain ⟨x', hit', p₂, w₂⟩ := out
  obtain ⟨x, hit, q₂, v₂⟩ := out'
  obtain ⟨houtcome, hprocs, hboards⟩ := hagree
  dsimp only at hran hhit houtcome hprocs hboards
  subst hhit houtcome
  cases x with
  | error fault => exact keeping_handFault hd _ fault p.cpu.rip hprocs hboards budget hran.retired steps
  | ok flow =>
    dsimp only at steps ⊢
    -- whether or not the iterations counted already, one more instruction is retired, on both sides
    have hcounted : ∃ retired,
        (if flow = .giveWay then p₂ else { p₂ with retired := p₂.retired + 1 }) = { p₂ with retired } ∧
        (if flow = .giveWay then q₂ else { q₂ with retired := q₂.retired + 1 }) = { q₂ with retired } ∧
          p.retired < retired := by
      split
      case isTrue hgive => exact ⟨p₂.retired, rfl, by rw [← hprocs.retired], hran.progress (by rw [hgive])⟩
      case isFalse => exact ⟨p₂.retired + 1, rfl, by rw [hprocs.retired], Nat.lt_succ_of_le hran.retired⟩
    obtain ⟨retired, hcount, hcount', hmore⟩ := hcounted
    rw [hcount'] at steps
    rw [hcount]
    have halike : Alike { p₂ with retired } { q₂ with retired } := ⟨hprocs.cpu, rfl, hprocs.interval, hprocs.decode⟩
    cases hit with
    | true =>
      exact .left .breakpoint rfl (by rw [steps]; rfl) (by rw [steps]; exact halike) (by rw [steps]; exact hboards)
    | false =>
      rw [if_neg Bool.false_ne_true] at steps ⊢
      have hmoved : ∀ {point : Point} {p' : Processor}, p'.retired = retired →
          Abreast (Board.unwatched d i) limit p' w₂ { q₂ with retired } v₂ point →
          Keeping (Board.unwatched d i) limit (.record index left generation branch) p q v (.goto point, p', w₂) :=
        fun hretired ha => .moved _ rfl (by rw [steps]) (by dsimp only; omega) (by rw [steps]; exact ha)
      split
      case isTrue => exact hmoved rfl (.boundary halike hboards)
      case isFalse hstay =>
        simp only [not_or, Bool.not_eq_true] at hstay
        obtain ⟨hhalt, -, hmust⟩ := hstay
        obtain ⟨hnone, hbudget, -⟩ := mustLeave_eq_false rfl hmust
        have hawake : p₂.cpu.halted = false := by
          rw [hran.halted fun hflow => hhalt (Except.ok.inj hflow)]
          exact awake
        have hfree : Free (Board.unwatched d i) limit { p₂ with retired } w₂ := ⟨hnone, hbudget, hawake⟩
        cases left with
        | succ left => exact hmoved rfl (hfree.abreast halike hboards)
        | zero =>
          -- following a link changes nothing that the other one has
          have hfollow : ∀ branch', Keeping (Board.unwatched d i) limit (.record index 0 generation branch) p q v
              (Step.goto (follow (Board.unwatched d i) limit branch' { p₂ with retired } w₂).1,
                (follow (Board.unwatched d i) limit branch' { p₂ with retired } w₂).2, w₂) := by
            intro branch'
            obtain ⟨linker, cache, honly⟩ := follow_only (Board.unwatched d i) limit branch' { p₂ with retired } w₂
            rw [honly]
            have hfree : Free (Board.unwatched d i) limit { p₂ with retired, linker, cache } w₂ :=
              ⟨hnone, hbudget, hawake⟩
            exact hmoved rfl (hfree.abreast ⟨halike.cpu, halike.retired, halike.interval, halike.decode⟩ hboards)
          exact hfollow _

/-! ## From a boundary -/

/-- The search for a trace registers code, which nobody sees who has no cache. -/
theorem matches_findTrace (p : Processor) (w : Board γ δ) : w.Matches (p.findTrace (Board.unwatched d i) w).2.2 := by
  have henter : (p.enterWindow (Board.unwatched d i) w).2.2 = w := by
    unfold enterWindow
    split
    case h_1 => rfl
    case h_2 =>
      have hworld := Board.openWindow_none p.cpu p.cpu.rip w
      rcases ho : openWindow Board.bus .none p.cpu p.cpu.rip w with ⟨r, w'⟩
      rw [ho] at hworld
      rw [show openWindow (Board.unwatched d i).bus (Board.unwatched d i).guard p.cpu p.cpu.rip w = _ from ho]
      cases r <;> exact hworld
  unfold findTrace
  rcases he : p.enterWindow (Board.unwatched d i) w with ⟨r, p₁, w₁⟩
  rw [he] at henter
  obtain rfl : w₁ = w := henter
  cases r with
  | error e => exact .refl w₁
  | ok offset =>
    refine TraceCache.ensure_keeps (Q := w₁.Matches) ?_ _ _ ?_ _ _ (.refl w₁)
    · exact fun page mask w' hw' => hw'.trans ⟨w'.mem.ram.stamps.register page mask, rfl⟩
    · intro rip w' hw'
      show w₁.Matches (Board.nextWindow .none p₁.cpu rip w').2
      rw [show (Board.nextWindow .none p₁.cpu rip w').2 = w' from Board.openWindow_none p₁.cpu rip w']
      exact hw'

/-- The search goes on as the course does. -/
theorem course_searched (htame : d.Tame (Regime.identity γ δ L)) (p : Processor) (w : Board γ δ) :
    (Regime.identity γ δ L).course w (p.searched (Board.unwatched d i) w).2.2 := by
  have hfind := (onward_findTrace (d := d) (i := i) (Regime.identity γ δ L).isCourse Guard.quiet_none p w).world
  unfold searched
  rcases hfound : p.findTrace (Board.unwatched d i) w with ⟨r, p', w'⟩
  rw [hfound] at hfind
  cases r with
  | error fault =>
    exact (Regime.identity γ δ L).isCourse.trans hfind
      (onward_handFault (g := .none) (i := i) htame.keeps fault p.cpu.rip p' w').world
  | ok slot => exact hfind

/-- The processor comes to a record of the trace that it finds, or both hand over the same fault. -/
theorem keeping_searched (hd : d.Blind) {p₁ q₁ : Processor} {w₁ v₁ : Board γ δ}
    (h : p₁.Sound (Regime.identity γ δ L) w₁) (hp : p₁.Alike q₁) (hw : w₁.Matches v₁)
    (hserved : serve (Board.unwatched d i) q v = (none, q₁, v₁)) (hretired : p₁.retired = p.retired)
    (hawake : p₁.cpu.halted = false) (hbudget : p₁.retired < limit) :
    Keeping (Board.unwatched d i) limit .boundary p q v (p₁.searched (Board.unwatched d i) w₁) := by
  have hsteps := stepPlain_of_served hserved (by rw [hp.cpu]; exact hawake)
    (show q₁.retired < limit by rw [hp.retired]; exact hbudget)
  have hfound := found_findTrace (d := d) (i := i) Guard.quiet_none h
  have hboards := (matches_findTrace (d := d) (i := i) p₁ w₁).symm.trans hw
  unfold searched
  generalize p₁.findTrace (Board.unwatched d i) w₁ = found at hfound hboards ⊢
  obtain ⟨r, p₂, w₂⟩ := found
  dsimp only at hfound hboards ⊢
  obtain ⟨window, cache, hp₂⟩ := hfound.only
  have halike : p₂.Alike q₁ := by
    rw [hp₂]
    exact ⟨hp.cpu, hp.retired, hp.interval, hp.decode⟩
  have hcpu : p₂.cpu = p₁.cpu := by rw [hp₂]
  have hcount : p₂.retired = p₁.retired := by rw [hp₂]
  cases r with
  | error fault =>
    rw [stepInstr_of_error ((hp.refetch hw).trans (hfound.failed fault rfl)), hp.cpu] at hsteps
    exact keeping_handFault hd .boundary fault p₁.cpu.rip halike hboards (by omega) (by omega) hsteps
  | ok slot =>
    obtain ⟨t, n, ht, hcur, hmode, hview⟩ := hfound.entered slot rfl
    have hview' : w₂.mem.fetchView p₂.cpu p₂.cpu.rip = .ok (t.addr, n) := by
      obtain ⟨table, hmem⟩ := hfound.world.same
      rw [hcpu, hmem, MappedRam.fetchView_congr rfl rfl]
      exact hview
    have henter : p₂.enterTrace (Board.unwatched d i) slot w₂ =
        .record t.start (t.len - 1) w₂.mem.ram.stamps.generation none :=
      (enterTrace_spec hfound.sound ht hcur (by rw [hcpu]; exact hmode) hview').1
    dsimp only
    rw [henter]
    refine .entered _ rfl (hcount.trans hretired) (Nat.lt_succ_self _) (.record q₁ v₁ hserved halike hboards ?_ ?_)
    · rw [hcount]
      exact hbudget
    · rw [hcpu]
      exact hawake

theorem keeping_stepBoundary (hd : d.Blind) (htame : d.Tame (Regime.identity γ δ L))
    (h : p.Sound (Regime.identity γ δ L) w) (hp : p.Alike q) (hw : w.Matches v)
    (hlag : (p.stepBoundary (Board.unwatched d i) limit w).2.2.mem.ram.stamps.lag = w.mem.ram.stamps.lag) :
    Keeping (Board.unwatched d i) limit .boundary p q v (p.stepBoundary (Board.unwatched d i) limit w) := by
  have hreset := h.relinked p.linker.reset
  have hp₀ : Alike { p with linker := p.linker.reset } q := ⟨hp.cpu, hp.retired, hp.interval, hp.decode⟩
  have hagree := agree_serve (i := i) hd hp₀ hw
  have hretired := retired_serve (Board.unwatched d i) { p with linker := p.linker.reset } w
  have hcourse := (onward_serve (g := .none) (i := i) (Regime.identity γ δ L).isCourse htame.keeps
    { p with linker := p.linker.reset } w).world
  have hsound := sound_serve (g := .none) (i := i) htame hreset
  have hbounded := bounded_stepBoundary (Board.unwatched d i) limit p w
  generalize p.stepBoundary (Board.unwatched d i) limit w = out at hlag hbounded ⊢
  rcases hthere : serve (Board.unwatched d i) q v with ⟨e, q₁, v₁⟩
  rw [hthere] at hagree
  -- a processor that leaves here does so without a cache, too
  have hleft : ∀ {exit p₁ w₁}, p₁.Alike q₁ → w₁.Matches v₁ →
      q.stepPlain (Board.unwatched d i) limit v = (.leave exit, q₁, v₁) →
      Keeping (Board.unwatched d i) limit .boundary p q v (.leave exit, p₁, w₁) := fun hp₁ hw₁ hs =>
    .left _ rfl (by rw [hs]) (by rw [hs]; exact hp₁) (by rw [hs]; exact hw₁)
  cases hbounded with
  | left exit p₁ w₁ served =>
    rw [served] at hagree
    obtain ⟨rfl, hp₁, hw₁⟩ := hagree
    refine hleft hp₁ hw₁ ?_
    unfold stepPlain
    rw [hthere]
  | halted p₁ w₁ served asleep =>
    rw [served] at hagree
    obtain ⟨rfl, hp₁, hw₁⟩ := hagree
    refine hleft hp₁ hw₁ ?_
    unfold stepPlain
    rw [hthere]
    exact if_pos (by rw [hp₁.cpu]; exact asleep)
  | spent p₁ w₁ served awake budget =>
    rw [served] at hagree
    obtain ⟨rfl, hp₁, hw₁⟩ := hagree
    refine hleft hp₁ hw₁ ?_
    unfold stepPlain
    rw [hthere]
    dsimp only
    rw [hp₁.cpu, if_neg (ne_true_of_eq_false awake), hp₁.retired, if_pos budget]
  | searched p₁ w₁ served awake budget =>
    rw [served] at hagree hretired hcourse hsound
    obtain ⟨rfl, hp₁, hw₁⟩ := hagree
    have hle := (Regime.identity γ δ L).lag_le hcourse
    have hle' := (Regime.identity γ δ L).lag_le (course_searched (i := i) htame p₁ w₁)
    have hlag₁ : w₁.mem.ram.stamps.lag = w.mem.ram.stamps.lag := by
      dsimp only at hle
      omega
    exact keeping_searched hd (hsound hlag₁).2 hp₁ hw₁ hthere hretired awake budget

/-- Where there is an instruction to execute, a step from a boundary comes to its record. -/
theorem goto_of_refetch {w₁ : Board γ δ} (h : Sound (Regime.identity γ δ L) { p with linker := p.linker.reset } w₁)
    (hserve : serve (Board.unwatched d i) { p with linker := p.linker.reset } w =
      (none, { p with linker := p.linker.reset }, w₁)) (hawake : p.cpu.halted = false) (hbudget : p.retired < limit)
    {instr : Instr} (hfetch : (p.refetch (Board.unwatched d i) w₁).1 = .ok instr) :
    ∃ next p' w', p.stepBoundary (Board.unwatched d i) limit w = (.goto next, p', w') ∧ p'.retired = p.retired := by
  have hfound := found_findTrace (d := d) (i := i) Guard.quiet_none h
  unfold stepBoundary
  rw [hserve]
  dsimp only
  rw [if_neg (ne_true_of_eq_false hawake), if_neg (Nat.not_le.2 hbudget)]
  generalize findTrace (Board.unwatched d i) { p with linker := p.linker.reset } w₁ = out at hfound ⊢
  obtain ⟨fault | slot, p', w'⟩ := out
  · cases hfetch.symm.trans (hfound.failed fault rfl)
  · obtain ⟨window, cache, honly⟩ := hfound.only
    obtain rfl : p' = _ := honly
    exact ⟨_, _, w', rfl, rfl⟩

/-! ## Runs -/

theorem keeping_step (hd : d.Blind) (htame : d.Tame (Regime.identity γ δ L)) (h : p.Sound (Regime.identity γ δ L) w)
    {point : Point}
    (hready : p.Ready w point) (ha : Abreast (Board.unwatched d i) limit p w q v point)
    (hlag : (p.step (Board.unwatched d i) limit point w).2.2.mem.ram.stamps.lag = w.mem.ram.stamps.lag) :
    Keeping (Board.unwatched d i) limit point p q v (p.step (Board.unwatched d i) limit point w) := by
  cases point with
  | boundary =>
    cases ha with | boundary alike boards
    exact keeping_stepBoundary hd htame h alike boards hlag
  | record index left generation branch => exact keeping_stepRecord hd h hready ha

/-- A run with steps enough ends as one without a cache. -/
theorem agree_runSteps (hd : d.Blind) (htame : d.Tame (Regime.identity γ δ L)) (n m : Nat) {point : Point}
    (h : p.Sound (Regime.identity γ δ L) w) (hready : p.Ready w point)
    (ha : Abreast (Board.unwatched d i) limit p w q v point)
    (hn : stepsFrom (limit - p.retired) point ≤ n) (hm : limit - p.retired < m)
    (hlag : (runSteps (Board.unwatched d i) limit n point p w).2.2.mem.ram.stamps.lag = w.mem.ram.stamps.lag) :
    ∃ exit, (runSteps (Board.unwatched d i) limit n point p w).1 = some exit ∧
      Agree (runSteps (Board.unwatched d i) limit n point p w) (runInstrs (Board.unwatched d i) limit m q v) := by
  induction n generalizing m point p w q v with
  | zero =>
    -- some step is always left
    cases ha with
    | boundary =>
      have hn : 2 * (limit - p.retired) + 1 ≤ 0 := hn
      omega
    | record q' v' served alike boards budget awake =>
      have hn : 2 * (limit - p.retired) ≤ 0 := hn
      omega
  | succ n ih =>
    have hstep := stepped_step (i := i) Guard.quiet_none htame h limit hready
    have hkeep := keeping_step hd htame h hready ha
    unfold runSteps at hlag ⊢
    generalize hout : p.step (Board.unwatched d i) limit point w = out at hlag hstep hkeep ⊢
    obtain ⟨next, p₁, w₁⟩ := out
    cases next with
    | leave exit =>
      cases hkeep hlag with
      | entered _ here => cases here
      | moved _ here => cases here
      | left exit' here there alike boards =>
        cases here
        cases m with
        | zero => omega
        | succ m =>
          rw [runInstrs_of_leave there]
          exact ⟨exit, rfl, rfl, alike, boards⟩
    | goto next =>
      dsimp only at hlag hstep hkeep ⊢
      have hlag₁ := lag_of_runSteps Guard.quiet_none Guard.quiet_none htame hout hlag
      obtain ⟨-, hsound, hready'⟩ := hstep hlag₁
      cases hkeep hlag₁ with
      | left _ here => cases here
      | entered _ here same nearer abreast =>
        cases here
        dsimp only at same
        exact ih m hsound (hready' _ rfl) abreast (by rw [same]; omega) (by rw [same]; exact hm) (by omega)
      | moved _ here there less abreast =>
        cases here
        dsimp only at less
        cases m with
        | zero => omega
        | succ m =>
          rw [runInstrs_of_goto there]
          refine ih m hsound (hready' _ rfl) abreast ?_ (by omega) (by omega)
          have hat := stepsFrom_le (limit - p₁.retired) next
          have hfrom := le_stepsFrom (limit - p.retired) point
          omega

/-- A run without a stamp coming round does what it does without a cache. -/
theorem agree_run (hd : d.Blind) (htame : d.Tame (Regime.identity γ δ L)) (budget : Nat)
    (h : p.Sound (Regime.identity γ δ L) w)
    (hp : p.Alike q) (hw : w.Matches v)
    (hlag : (p.run (Board.unwatched d i) budget w).2.2.mem.ram.stamps.lag = w.mem.ram.stamps.lag) :
    Agree (p.run (Board.unwatched d i) budget w) (q.runPlain (Board.unwatched d i) budget v) := by
  have hbudget : p.limitFor budget - p.retired ≤ budget := by
    unfold limitFor
    omega
  have hlimit : q.limitFor budget = p.limitFor budget := by
    unfold limitFor
    rw [hp.retired]
  have hsteps := agree_runSteps hd htame (2 * budget + 1) (budget + 1) h (show p.Ready w .boundary from trivial)
    (show Abreast (Board.unwatched d i) (p.limitFor budget) p w q v .boundary from .boundary hp hw)
    (by have := stepsFrom_le (p.limitFor budget - p.retired) .boundary; omega) (by omega)
  rw [run_eq] at hlag ⊢
  obtain ⟨-, -, houtcome, hprocs, hboards⟩ := hsteps hlag
  rw [runPlain_eq, hlimit]
  exact ⟨congrArg (Option.getD · .quantumExhausted) houtcome, hprocs, hboards⟩

end Processor

end TraceCore
