/-
Running an instruction in two worlds. Sockets that answer alike in related worlds make an instruction
run alike, and the worlds stay related. With one world and a relation from a fixed one it says what
an instruction does to that world.
-/
import TraceCore.Proofs.Exec.Operand

namespace TraceCore

variable {ω ω' α β : Type} {R : ω → ω' → Prop}

/-- The same answer, from worlds that stay related. -/
def Answers (R : ω → ω' → Prop) (x : α × ω) (y : α × ω') : Prop := x.1 = y.1 ∧ R x.2 y.2

/-- What an instruction asks its surroundings is answered alike in related worlds. -/
structure Socket.Alike (R : ω → ω' → Prop) (s : Socket ω) (s' : Socket ω') : Prop where
  translate : ∀ linear access cpl w w', R w w' →
    Answers R (s.bus.translate linear access cpl w) (s'.bus.translate linear access cpl w')
  read : ∀ addr len w w', R w w' → Answers R (s.bus.read addr len w) (s'.bus.read addr len w')
  write : ∀ addr src w w', R w w' → Answers R (s.bus.write addr src w) (s'.bus.write addr src w')
  watches : ∀ addr len w w', R w w' → Answers R (s.guard.watches addr len .write w)
    (s'.guard.watches addr len .write w')
  events : ∀ w w', R w w' → s.line.events w = s'.line.events w'

/-- The same but for the worlds, which are related. -/
structure Running.Same (R : ω → ω' → Prop) (r : Running ω) (r' : Running ω') : Prop where
  cpu : r.cpu = r'.cpu
  world : R r.world r'.world
  retired : r.retired = r'.retired
  watchHit : r.watchHit = r'.watchHit

/-- Registers and flags may have changed, but nothing else of the processor's state, and nothing was
retired. -/
structure Running.Kept (r r' : Running ω) : Prop where
  cpu : r'.cpu = { r.cpu with regs := r'.cpu.regs, flags := r'.cpu.flags }
  retired : r'.retired = r.retired

theorem Running.Kept.refl (r : Running ω) : r.Kept r := ⟨rfl, rfl⟩

theorem Running.Kept.trans {a b c : Running ω} (h : a.Kept b) (h' : b.Kept c) : a.Kept c := by
  refine ⟨?_, h'.retired.trans h.retired⟩
  rw [h'.cpu, h.cpu]

namespace Exec

/-- Runs a part of an instruction. -/
def eval (m : Exec ω α) (r : Running ω) : Except Fault α × Running ω := m.run.run r

theorem eval_bind (m : Exec ω α) (f : α → Exec ω β) (r : Running ω) :
    eval (m >>= f) r = match eval m r with
      | (.ok a, r) => eval (f a) r
      | (.error e, r) => (.error e, r) := by
  change (match m.run.run r with | (x, r) => (ExceptT.bindCont f x).run r) = _
  unfold eval
  rcases m.run.run r with ⟨x, r⟩
  cases x <;> rfl

/-- Both run alike from related worlds, and the first does to its own only what `T` allows. -/
def Alike (R : ω → ω' → Prop) (T : Running ω → Running ω → Prop) (m : Exec ω α) (m' : Exec ω' α) : Prop :=
  ∀ r r', r.Same R r' → (eval m r).1 = (eval m' r').1 ∧ (eval m r).2.Same R (eval m' r').2 ∧ T r (eval m r).2

variable {T : Running ω → Running ω → Prop} {m : Exec ω α} {m' : Exec ω' α}

theorem Alike.mono {T' : Running ω → Running ω → Prop} (h : Alike R T m m') (hT : ∀ r r', T r r' → T' r r') :
    Alike R T' m m' := by
  intro r r' hr
  obtain ⟨h1, h2, h3⟩ := h r r' hr
  exact ⟨h1, h2, hT _ _ h3⟩

theorem Alike.pure (hrefl : ∀ r, T r r) (a : α) : Alike R T (Pure.pure a) (Pure.pure a) :=
  fun r _ hr => ⟨rfl, hr, hrefl r⟩

theorem Alike.throw (hrefl : ∀ r, T r r) (e : Fault) : Alike R T (throw e : Exec ω α) (throw e : Exec ω' α) :=
  fun r _ hr => ⟨rfl, hr, hrefl r⟩

theorem Alike.bind {f : α → Exec ω β} {f' : α → Exec ω' β} (htrans : ∀ a b c, T a b → T b c → T a c)
    (hm : Alike R T m m') (hf : ∀ a, Alike R T (f a) (f' a)) : Alike R T (m >>= f) (m' >>= f') := by
  intro r r' hr
  rw [eval_bind, eval_bind]
  obtain ⟨hres, hsame, hT⟩ := hm r r' hr
  rcases h : eval m r with ⟨x, r₁⟩
  rcases h' : eval m' r' with ⟨x', r₁'⟩
  rw [h, h'] at hres hsame
  rw [h] at hT
  obtain rfl : x = x' := hres
  cases x with
  | error e => exact ⟨rfl, hsame, hT⟩
  | ok a =>
    obtain ⟨hres', hsame', hT'⟩ := hf a r₁ r₁' hsame
    exact ⟨hres', hsame', htrans _ _ _ hT hT'⟩

theorem composes_alike (hrefl : ∀ r, T r r) (htrans : ∀ a b c, T a b → T b c → T a c) : Composes (Alike R T) :=
  ⟨.pure hrefl, .bind htrans⟩

theorem Alike.cpu {f : Cpu → Exec ω α} {f' : Cpu → Exec ω' α} (hf : ∀ c, Alike R T (f c) (f' c)) :
    Alike R T (Exec.cpu >>= f) (Exec.cpu >>= f') := by
  intro r r' hr
  have hrest := hf r.cpu r r' hr
  rw [show f' r.cpu = f' r'.cpu from congrArg f' hr.cpu] at hrest
  exact hrest

theorem Alike.modifyCpu {f : Cpu → Cpu} (hT : ∀ r : Running ω, T r { r with cpu := f r.cpu }) :
    Alike R T (Exec.modifyCpu f : Exec ω Unit) (Exec.modifyCpu f) :=
  fun r _ hr => ⟨rfl, ⟨congrArg f hr.cpu, hr.world, hr.retired, hr.watchHit⟩, hT r⟩

/-! ## Loads and stores -/

theorem composes_kept : Composes (Alike R Running.Kept) := composes_alike .refl fun _ _ _ h h' => h.trans h'

theorem alike_world {f : ω → α × ω} {f' : ω' → α × ω'} (h : ∀ w w', R w w' → Answers R (f w) (f' w')) :
    Alike R Running.Kept (world f) (world f') := by
  intro r r' hr
  obtain ⟨hres, hw⟩ := h _ _ hr.world
  exact ⟨congrArg Except.ok hres, ⟨hr.cpu, hw, hr.retired, hr.watchHit⟩, ⟨rfl, rfl⟩⟩

theorem alike_attempt {ε : Type} {fault : ε → Fault} {f : ω → Except ε α × ω} {f' : ω' → Except ε α × ω'}
    (h : ∀ w w', R w w' → Answers R (f w) (f' w')) : Alike R Running.Kept (attempt fault f) (attempt fault f') := by
  unfold attempt
  refine composes_kept.bind (alike_world h) fun x => ?_
  cases x with
  | ok a => exact composes_kept.pure a
  | error e => exact .throw .refl _

variable {s : Socket ω} {s' : Socket ω'}

theorem alike_translate (h : s.Alike R s') (linear : UInt64) (access : Access) :
    Alike R Running.Kept (translate s.bus linear access) (translate s'.bus linear access) := by
  unfold translate
  exact .cpu fun c => alike_attempt (h.translate linear access c.cpl)

theorem loadwise_alike (h : s.Alike R s') : Loadwise s.bus s'.bus (Alike R Running.Kept) where
  toComposes := composes_kept
  piece linear _ := composes_kept.bind (alike_translate h linear .read) fun addr => alike_attempt (h.read addr _)

theorem storewise_alike (h : s.Alike R s') : Storewise s s' (Alike R Running.Kept) where
  toComposes := composes_kept
  watch linear len := by
    refine composes_kept.bind (alike_world (h.watches linear len)) fun hit => composes_kept.ite ?_ (composes_kept.pure _)
    exact fun r r' hr => ⟨rfl, ⟨hr.cpu, hr.world, hr.retired, rfl⟩, ⟨rfl, rfl⟩⟩
  reach linear := alike_translate h linear .write
  piece linear src _ := composes_kept.bind (alike_translate h linear .write) fun addr => alike_attempt (h.write addr src)

theorem alike_load (h : s.Alike R s') (linear : UInt64) (len : Nat) :
    Alike R Running.Kept (load s.bus linear len) (load s'.bus linear len) :=
  (loadwise_alike h).load linear len

theorem alike_store (h : s.Alike R s') (linear : UInt64) (src : List UInt8) :
    Alike R Running.Kept (store s.bus s.guard linear src) (store s'.bus s'.guard linear src) :=
  (storewise_alike h).store linear src

/-! ## Whole instructions -/

theorem elementwise_alike (h : s.Alike R s') (i : Instr) :
    Elementwise s s' (fun _ => True) i (Alike R Running.Kept) where
  toComposes := composes_kept
  cpu hf := .cpu fun c => hf c trivial
  calm hf _ := .modifyCpu fun r => ⟨hf r.cpu, rfl⟩
  load _ _ _ _ _ := alike_load h _ _
  store _ _ _ src _ _ _ := alike_store h _ src

theorem alike_element (h : s.Alike R s') (i : Instr) (op : StringOp) (w : Width) :
    Alike R Running.Kept (element s.bus s.guard i op w) (element s'.bus s'.guard i op w) :=
  (elementwise_alike h { i with op := .string op w }).element rfl

/-- Both run alike, whatever the first does to its own world. -/
abbrev Same (R : ω → ω' → Prop) (m : Exec ω α) (m' : Exec ω' α) : Prop := Alike R (fun _ _ => True) m m'

theorem Alike.same (h : Alike R T m m') : Same R m m' := h.mono fun _ _ _ => trivial

theorem partwise_same (h : s.Alike R s') (i : Instr) : Partwise s s' (fun _ => True) i (Same R) where
  toComposes := composes_alike (fun _ => trivial) fun _ _ _ _ _ => trivial
  cpu hf := .cpu fun c => hf c trivial
  calm _ _ := .modifyCpu fun _ => trivial
  load _ _ _ _ _ := (alike_load h _ _).same
  store _ _ _ src _ _ _ := (alike_store h _ src).same
  throw e := .throw (fun _ => trivial) e
  modifyCpu _ := .modifyCpu fun _ => trivial
  retire := fun _ _ hr => ⟨rfl, ⟨hr.cpu, hr.world, congrArg (· + 1) hr.retired, hr.watchHit⟩, trivial⟩
  mustGiveWay frame := by
    intro r r' hr
    refine ⟨congrArg Except.ok ?_, hr, trivial⟩
    show ((s.line.events r.world).any || decide (frame.limit ≤ r.retired)) = _
    rw [h.events _ _ hr.world, hr.retired]

theorem same_instr (h : s.Alike R s') (frame : Frame) (i : Instr) : Same R (instr s frame i) (instr s' frame i) :=
  (partwise_same h i).instr frame

end Exec

end TraceCore
