/-
Two runs of an instruction in worlds that may differ where it does not look. If what can be reached at a privilege level
answers alike, the instruction runs alike. It may also come to see a difference: then the first run is lost, and nothing
is said of the second one.
-/
import TraceCore.Proofs.Exec.Ran
import TraceCore.Proofs.Processor.Plain

namespace TraceCore

variable {ω ω' α β : Type}

/-- How two worlds compare that an instruction is run in. -/
structure Pairing (ω ω' : Type) where
  related : ω → ω' → Prop
  /-- The first run has seen a difference. -/
  lost : ω → Prop
  /-- The privilege level of both runs. -/
  level : UInt8
  /-- The physical address may be reached at that level when it is asked for a linear one. -/
  grants : Access → (linear addr : UInt64) → Prop

namespace Pairing

open Exec

variable {P : Pairing ω ω'}

/-- At the level, with the same state, in related worlds. -/
structure Beside (P : Pairing ω ω') (r : Running ω) (r' : Running ω') : Prop where
  same : r.Same P.related r'
  level : r.cpu.cpl = P.level

/-- Both answer alike and stay beside each other, unless the first is lost. One that is lost remains so. -/
structure Together (P : Pairing ω ω') (m : Exec ω α) (m' : Exec ω' α) : Prop where
  loses : ∀ r, P.lost r.world → P.lost (eval m r).2.world
  keeps : ∀ r r', P.Beside r r' → P.lost (eval m r).2.world ∨
    (eval m r).1 = (eval m' r').1 ∧ P.Beside (eval m r).2 (eval m' r').2

/-- What is reached through the two sockets answers alike, unless it shows a difference. -/
structure Joins (P : Pairing ω ω') (s : Socket ω) (s' : Socket ω') : Prop where
  loses : Keeps s P.lost
  translate : ∀ linear access w w', P.related w w' →
    Answers P.related (s.bus.translate linear access P.level w) (s'.bus.translate linear access P.level w')
  granted : ∀ linear access cpl w addr, P.lost w ∨ (∃ w', P.related w w') ∧ cpl = P.level →
    (s.bus.translate linear access cpl w).1 = .ok addr → P.grants access linear addr
  read : ∀ linear addr len w w', P.grants .read linear addr → P.related w w' →
    P.lost (s.bus.read addr (bytesInPage linear len) w).2 ∨
      Answers P.related (s.bus.read addr (bytesInPage linear len) w) (s'.bus.read addr (bytesInPage linear len) w')
  write : ∀ linear addr src w w', P.grants .write linear addr → bytesInPage linear src.length = src.length →
    P.related w w' → Answers P.related (s.bus.write addr src w) (s'.bus.write addr src w')
  watches : ∀ addr len w w', P.related w w' →
    Answers P.related (s.guard.watches addr len .write w) (s'.guard.watches addr len .write w')
  events : ∀ w w', P.related w w' → s.line.events w = s'.line.events w'

variable {m : Exec ω α} {m' : Exec ω' α}

/-! ## Composition -/

theorem Together.pure (a : α) : P.Together (Pure.pure a : Exec ω α) (Pure.pure a) :=
  ⟨fun _ h => h, fun _ _ h => Or.inr ⟨rfl, h⟩⟩

theorem Together.throw (e : Fault) : P.Together (throw e : Exec ω α) (throw e) :=
  ⟨fun _ h => h, fun _ _ h => Or.inr ⟨rfl, h⟩⟩

theorem Together.bind {f : α → Exec ω β} {f' : α → Exec ω' β} (hm : P.Together m m')
    (hf : ∀ a, P.Together (f a) (f' a)) : P.Together (m >>= f) (m' >>= f') := by
  -- what `m` has lost, no continuation gets back
  have hlost : ∀ r, P.lost (eval m r).2.world → P.lost (eval (m >>= f) r).2.world := by
    intro r h
    rw [eval_bind]
    rcases hout : eval m r with ⟨e | a, r₁⟩
    · rwa [hout] at h
    · rw [hout] at h
      exact (hf a).loses r₁ h
  refine ⟨fun r h => hlost r (hm.loses r h), fun r r' hr => ?_⟩
  rcases hm.keeps r r' hr with h | ⟨hres, hbeside⟩
  · exact Or.inl (hlost r h)
  · rw [eval_bind, eval_bind]
    rcases hout : eval m r with ⟨x, r₁⟩
    rcases hout' : eval m' r' with ⟨x', r₁'⟩
    rw [hout, hout'] at hres hbeside
    obtain rfl : x = x' := hres
    cases x with
    | error e => exact Or.inr ⟨rfl, hbeside⟩
    | ok a => exact (hf a).keeps r₁ r₁' hbeside

theorem composes_together : Composes P.Together := ⟨.pure, .bind⟩

theorem Together.cpu {f : Cpu → Exec ω α} {f' : Cpu → Exec ω' α} (hf : ∀ c, P.Together (f c) (f' c)) :
    P.Together (Exec.cpu >>= f) (Exec.cpu >>= f') :=
  .bind ⟨fun _ h => h, fun _ _ h => Or.inr ⟨congrArg Except.ok h.same.cpu, h⟩⟩ hf

theorem together_modifyCpu {f : Cpu → Cpu} (hf : ∀ c, (f c).cpl = c.cpl) :
    P.Together (modifyCpu f : Exec ω Unit) (modifyCpu f) := by
  refine ⟨fun _ h => h, fun r r' h => Or.inr ⟨rfl, ?_, ?_⟩⟩
  · exact ⟨congrArg f h.same.cpu, h.same.world, h.same.retired, h.same.watchHit⟩
  · exact (hf r.cpu).trans h.level

/-! ## Loads and stores -/

theorem together_world {f : ω → α × ω} {f' : ω' → α × ω'} (hlost : ∀ w, P.lost w → P.lost (f w).2)
    (h : ∀ w w', P.related w w' → P.lost (f w).2 ∨ Answers P.related (f w) (f' w')) :
    P.Together (world f) (world f') := by
  refine ⟨fun r hr => hlost r.world hr, fun r r' hr => ?_⟩
  rcases h _ _ hr.same.world with hlost | ⟨hres, hw⟩
  · exact Or.inl hlost
  · exact Or.inr ⟨congrArg Except.ok hres, ⟨hr.same.cpu, hw, hr.same.retired, hr.same.watchHit⟩, hr.level⟩

theorem together_attempt {ε : Type} {fault : ε → Fault} {f : ω → Except ε α × ω} {f' : ω' → Except ε α × ω'}
    (hlost : ∀ w, P.lost w → P.lost (f w).2)
    (h : ∀ w w', P.related w w' → P.lost (f w).2 ∨ Answers P.related (f w) (f' w')) :
    P.Together (attempt fault f) (attempt fault f') := by
  unfold attempt
  refine (together_world hlost h).bind fun x => ?_
  cases x with
  | ok a => exact .pure a
  | error e => exact .throw _

theorem eval_translation (bus : Bus ω) (linear : UInt64) (access : Access) (r : Running ω) :
    eval (Exec.translate bus linear access) r =
      ((bus.translate linear access r.cpu.cpl r.world).1.mapError fun pf => .semantic (.pageFault pf),
        { r with world := (bus.translate linear access r.cpu.cpl r.world).2 }) := by
  unfold Exec.translate attempt
  rw [eval_bind, eval_cpu]
  dsimp only
  rw [eval_bind, show eval (world (bus.translate linear access r.cpu.cpl)) r =
    (.ok (bus.translate linear access r.cpu.cpl r.world).1,
      { r with world := (bus.translate linear access r.cpu.cpl r.world).2 }) from rfl]
  cases (bus.translate linear access r.cpu.cpl r.world).1 <;> rfl

namespace Joins

variable {s : Socket ω} {s' : Socket ω'}

/-- What follows a translation has to go together only for an address that is granted. -/
theorem translated (h : P.Joins s s') {linear : UInt64} {access : Access} {f : UInt64 → Exec ω α}
    {f' : UInt64 → Exec ω' α} (hf : ∀ addr, P.grants access linear addr → P.Together (f addr) (f' addr)) :
    P.Together (Exec.translate s.bus linear access >>= f) (Exec.translate s'.bus linear access >>= f') := by
  refine ⟨fun r hr => ?_, fun r r' hr => ?_⟩
  · have hlost := h.loses.translate linear access r.cpu.cpl r.world hr
    have hgranted := h.granted linear access r.cpu.cpl r.world
    rw [eval_bind, eval_translation]
    cases htranslate : (s.bus.translate linear access r.cpu.cpl r.world).1 with
    | error pf => exact hlost
    | ok addr => exact (hf addr (hgranted addr (Or.inl hr) htranslate)).loses _ hlost
  · obtain ⟨hsame, hlevel⟩ := hr
    obtain ⟨hanswer, hworld⟩ := h.translate linear access _ _ hsame.world
    have hgranted := h.granted linear access r.cpu.cpl r.world
    rw [eval_bind, eval_bind, eval_translation, eval_translation, ← hsame.cpu, hlevel, ← hanswer]
    cases htranslate : (s.bus.translate linear access P.level r.world).1 with
    | error pf => exact Or.inr ⟨rfl, ⟨rfl, hworld, hsame.retired, hsame.watchHit⟩, hlevel⟩
    | ok addr =>
      rw [hlevel] at hgranted
      refine (hf addr (hgranted addr (Or.inr ⟨⟨_, hsame.world⟩, rfl⟩) htranslate)).keeps _ _ ⟨?_, hlevel⟩
      exact ⟨rfl, hworld, hsame.retired, hsame.watchHit⟩

theorem loadwise (h : P.Joins s s') : Loadwise s.bus s'.bus P.Together where
  toComposes := composes_together
  piece linear len := h.translated fun addr hgranted =>
    together_attempt (h.loses.read addr _) fun w w' => h.read linear addr len w w' hgranted

theorem storewise (h : P.Joins s s') : Storewise s s' P.Together where
  toComposes := composes_together
  watch linear len := by
    refine Together.bind (together_world (h.loses.watches linear len) fun w w' hw => Or.inr (h.watches linear len w w' hw))
      fun hit => composes_together.ite ?_ (.pure _)
    exact ⟨fun _ hr => hr, fun r r' hr => Or.inr ⟨rfl, ⟨hr.same.cpu, hr.same.world, hr.same.retired, rfl⟩, hr.level⟩⟩
  reach linear := by
    have hpure : P.Together (Exec.translate s.bus linear .write >>= Pure.pure)
        (Exec.translate s'.bus linear .write >>= Pure.pure) := h.translated fun addr _ => .pure addr
    rwa [bind_pure, bind_pure] at hpure
  piece linear src hfits := h.translated fun addr hgranted =>
    together_attempt (h.loses.write addr src) fun w w' hw => Or.inr (h.write linear addr src w w' hgranted hfits hw)

/-! ## Whole instructions -/

theorem partwise (h : P.Joins s s') (i : Instr) : Partwise s s' (fun _ => True) i P.Together where
  toComposes := composes_together
  cpu hf := .cpu fun c => hf c trivial
  calm hf _ := together_modifyCpu fun c => (hf.sameContext c).2.2.2.2
  load _ _ _ _ _ := h.loadwise.load _ _
  store _ _ _ src _ _ _ := h.storewise.store _ src
  throw := .throw
  modifyCpu hf := together_modifyCpu fun c => (hf c).2.2.2.2
  retire := by
    refine ⟨fun _ h => h, fun r r' h => Or.inr ⟨rfl, ?_, h.level⟩⟩
    exact ⟨h.same.cpu, h.same.world, congrArg (· + 1) h.same.retired, h.same.watchHit⟩
  mustGiveWay frame := by
    refine ⟨fun _ hlost => hlost, fun r r' hr => Or.inr ⟨congrArg Except.ok ?_, hr⟩⟩
    show ((s.line.events r.world).any || decide (frame.limit ≤ r.retired)) = _
    rw [h.events _ _ hr.same.world, hr.same.retired]

theorem instr (h : P.Joins s s') (frame : Frame) (i : Instr) :
    P.Together (Exec.instr s frame i) (Exec.instr s' frame i) :=
  (h.partwise i).instr frame

end Joins

/-! ## Processors -/

/-- Both executed an instruction with the same outcome: `p` in the first world, and `q` in the second. -/
structure Executed (P : Pairing ω ω') (p q : Processor) (x : Except Fault Flow × Bool × Processor × ω)
    (y : Except Fault Flow × Bool × Processor × ω') : Prop where
  outcome : y.1 = x.1
  hit : y.2.1 = x.2.1
  first : x.2.2.1 = { p with cpu := x.2.2.1.cpu, retired := x.2.2.1.retired }
  second : y.2.2.1 = { q with cpu := x.2.2.1.cpu, retired := x.2.2.1.retired }
  level : x.2.2.1.cpu.cpl = P.level
  worlds : P.related x.2.2.2 y.2.2.2

variable {s : Socket ω} {s' : Socket ω'} {p q : Processor} {w : ω} {w' : ω'}

/-- Processors that cannot be told apart execute an instruction alike, unless the first sees a difference. -/
theorem Joins.execute (h : P.Joins s s') (hp : p.Alike q) (hlevel : p.cpu.cpl = P.level) (hw : P.related w w')
    (limit : Nat) (i : Instr) : P.lost (p.execute s limit i w).2.2.2 ∨
      P.Executed p q (p.execute s limit i w) (q.execute s' limit i w') := by
  obtain ⟨hcpu, hretired, hinterval, hdecode⟩ := hp
  have htogether := (h.instr { rip := p.cpu.rip, limit, interval := p.config.repeatInterval } i).keeps
    { cpu := p.cpu.setRip (p.cpu.rip + UInt64.ofNat i.len), world := w, retired := p.retired }
    { cpu := p.cpu.setRip (p.cpu.rip + UInt64.ofNat i.len), world := w', retired := p.retired }
    ⟨⟨rfl, hw, rfl, rfl⟩, hlevel⟩
  unfold Processor.execute
  rw [hcpu, hretired, hinterval]
  rcases htogether with hlost | ⟨hres, hsame, hafter⟩
  · exact Or.inl hlost
  · refine Or.inr ⟨hres.symm, hsame.watchHit.symm, rfl, ?_, hafter, hsame.world⟩
    exact congrArg₂ (fun cpu retired => { q with cpu, retired }) hsame.cpu.symm hsame.retired.symm

end Pairing

end TraceCore
