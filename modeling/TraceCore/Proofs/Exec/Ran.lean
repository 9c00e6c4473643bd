/-
What running an instruction does to the processor: its mode, segments and privilege level stay, only a
jump moves the instruction pointer, and a repeated instruction that gives way has retired some
iterations. What it does to the world is what its loads, stores and translations do.
-/
import TraceCore.Proofs.Exec.Alike

namespace TraceCore

variable {ω α β : Type}

theorem Running.Kept.sameContext {r r' : Running ω} (h : r.Kept r') : r.cpu.SameContext r'.cpu := by
  rw [h.cpu]
  exact ⟨rfl, rfl, rfl, rfl, rfl⟩

theorem Running.Kept.rip {r r' : Running ω} (h : r.Kept r') : r'.cpu.rip = r.cpu.rip := by rw [h.cpu]

theorem Running.Kept.halted {r r' : Running ω} (h : r.Kept r') : r'.cpu.halted = r.cpu.halted := by rw [h.cpu]

namespace Exec

@[simp] theorem eval_pure (a : α) (r : Running ω) : eval (pure a) r = (.ok a, r) := rfl

@[simp] theorem eval_throw (e : Fault) (r : Running ω) : eval (throw e : Exec ω α) r = (.error e, r) := rfl

@[simp] theorem eval_cpu (r : Running ω) : eval cpu r = (.ok r.cpu, r) := rfl

@[simp] theorem eval_modifyCpu (f : Cpu → Cpu) (r : Running ω) :
    eval (modifyCpu f) r = (.ok (), { r with cpu := f r.cpu }) := rfl

@[simp] theorem eval_retire (r : Running ω) : eval retire r = (.ok (), { r with retired := r.retired + 1 }) := rfl

@[simp] theorem eval_mustGiveWay (line : EventLine ω) (frame : Frame) (r : Running ω) :
    eval (mustGiveWay line frame) r = (.ok ((line.events r.world).any || frame.limit ≤ r.retired), r) := rfl

/-! ## The world -/

/-- Nothing that an instruction asks of its surroundings makes a property of the world false. -/
structure Keeps (s : Socket ω) (Q : ω → Prop) : Prop where
  translate : ∀ linear access cpl w, Q w → Q (s.bus.translate linear access cpl w).2
  read : ∀ addr len w, Q w → Q (s.bus.read addr len w).2
  write : ∀ addr src w, Q w → Q (s.bus.write addr src w).2
  watches : ∀ addr len w, Q w → Q (s.guard.watches addr len .write w).2

/-- A property of the world as a relation of it to itself. -/
def Kept (Q : ω → Prop) (w w' : ω) : Prop := w = w' ∧ Q w

theorem Keeps.alike {s : Socket ω} {Q : ω → Prop} (h : Keeps s Q) : s.Alike (Kept Q) s where
  translate linear access cpl w _ hw := by
    obtain ⟨rfl, hw⟩ := hw
    exact ⟨rfl, rfl, h.translate linear access cpl w hw⟩
  read addr len w _ hw := by
    obtain ⟨rfl, hw⟩ := hw
    exact ⟨rfl, rfl, h.read addr len w hw⟩
  write addr src w _ hw := by
    obtain ⟨rfl, hw⟩ := hw
    exact ⟨rfl, rfl, h.write addr src w hw⟩
  watches addr len w _ hw := by
    obtain ⟨rfl, hw⟩ := hw
    exact ⟨rfl, rfl, h.watches addr len w hw⟩
  events w _ hw := by
    obtain ⟨rfl, -⟩ := hw
    rfl

/-- A whole instruction keeps what its loads, stores and translations keep. -/
theorem instr_keeps {s : Socket ω} {Q : ω → Prop} (h : Keeps s Q) (frame : Frame) (i : Instr) (r : Running ω)
    (hr : Q r.world) : Q (eval (instr s frame i) r).2.world :=
  (same_instr h.alike frame i r r ⟨rfl, ⟨rfl, hr⟩, rfl, rfl⟩).2.1.world.2

theorem element_keeps {s : Socket ω} {Q : ω → Prop} (h : Keeps s Q) (i : Instr) (op : StringOp) (w : Width)
    (r : Running ω) (hr : Q r.world) : Q (eval (element s.bus s.guard i op w) r).2.world :=
  (alike_element h.alike i op w r r ⟨rfl, ⟨rfl, hr⟩, rfl, rfl⟩).2.1.world.2

/-! ## The processor -/

/-- What a part of an instruction does that changes registers and flags only, in any world. -/
def Calm (m : Exec ω α) : Prop := ∀ r : Running ω, r.Kept (eval m r).2

theorem keeps_true (s : Socket ω) : Keeps s fun _ => True :=
  ⟨fun _ _ _ _ _ => trivial, fun _ _ _ _ => trivial, fun _ _ _ _ => trivial, fun _ _ _ _ => trivial⟩

theorem Alike.calm_self {m : Exec ω α} (h : Alike (Kept fun _ => True) Running.Kept m m) : Calm m :=
  fun r => (h r r ⟨rfl, ⟨rfl, trivial⟩, rfl, rfl⟩).2.2

theorem calm_element (s : Socket ω) (i : Instr) (op : StringOp) (w : Width) : Calm (element s.bus s.guard i op w) :=
  (alike_element (keeps_true s).alike i op w).calm_self

theorem calm_load (s : Socket ω) (linear : UInt64) (len : Nat) : Calm (load s.bus linear len) :=
  (alike_load (keeps_true s).alike linear len).calm_self

theorem calm_store (s : Socket ω) (linear : UInt64) (src : List UInt8) : Calm (store s.bus s.guard linear src) :=
  (alike_store (keeps_true s).alike linear src).calm_self

/-- Where the instruction pointer is when an instruction broke off or is through. -/
def Pointer (frame : Frame) (before after : Cpu) : Except Fault Flow → Prop
  | .ok (.branch _) => after.rip = before.rip ∨ ∃ target, after.rip = target &&& before.ipMask
  | .ok .giveWay => after.rip = frame.rip
  | _ => after.rip = before.rip

/-- How an instruction leaves the processor, whose instruction pointer is already behind it. -/
structure Ran (frame : Frame) (i : Instr) (r : Running ω) (x : Except Fault Flow) (r' : Running ω) : Prop where
  context : r.cpu.SameContext r'.cpu
  retired : r.retired ≤ r'.retired
  halted : x ≠ .ok .halt → r'.cpu.halted = r.cpu.halted
  rip : Pointer frame r.cpu r'.cpu x
  /-- Whoever gives way has retired something, so that a run comes to its end. -/
  progress : x = .ok .giveWay → r.retired < r'.retired
  jumps : ∀ taken, x = .ok (.branch taken) → ∃ cond rel, i.op = .jump cond rel

variable {frame : Frame} {i : Instr} {r r' : Running ω}

theorem ran_of_kept {x : Except Fault Flow} (h : r.Kept r') (hx : ∀ f, x = .ok f → f = .next) :
    Ran frame i r x r' := by
  refine ⟨h.sameContext, Nat.le_of_eq h.retired.symm, fun _ => h.halted, ?_, ?_, ?_⟩
  · cases x with
    | error e => exact h.rip
    | ok f =>
      cases hx f rfl
      exact h.rip
  · intro hg
    cases hx _ hg
  · intro taken ht
    cases hx _ ht

/-- Registers and flags change first, and the rest of the instruction goes on from there. -/
theorem Ran.after {x : Except Fault Flow} {r₁ : Running ω} (h : r.Kept r₁) (h' : Ran frame i r₁ x r') :
    Ran frame i r x r' := by
  obtain ⟨hcontext, hretired, hhalted, hrip, hprogress, hjumps⟩ := h'
  refine ⟨h.sameContext.trans hcontext, ?_, fun hx => (hhalted hx).trans h.halted, ?_, ?_, hjumps⟩
  · rw [← h.retired]; exact hretired
  · unfold Pointer at hrip ⊢
    rw [← h.rip, ← h.sameContext.ipMask]
    exact hrip
  · rw [← h.retired]; exact hprogress

theorem ran_calm_next {m : Exec ω Unit} (h : Calm m) (r : Running ω) :
    Ran frame i r (eval (m >>= fun _ => pure Flow.next) r).1 (eval (m >>= fun _ => pure Flow.next) r).2 := by
  have hk := h r
  rw [eval_bind]
  rcases hm : eval m r with ⟨x, r₁⟩
  rw [hm] at hk
  cases x with
  | error e => exact ran_of_kept hk nofun
  | ok _ => exact ran_of_kept hk fun f hf => by cases hf; rfl

theorem kept_setCount (r : Running ω) (size : CodeSize) (n : UInt64) :
    r.Kept { r with cpu := r.cpu.setCount size n } :=
  ⟨onlyRegs_setCount size n r.cpu, rfl⟩

/-- Iterations leave the processor as it is but for registers and flags, until one gives way. -/
theorem ran_iterate (line : EventLine ω) {body : Exec ω Unit} (hbody : Calm body) (n since : Nat) (r : Running ω) :
    Ran frame i r (eval (iterate line frame i body n since) r).1 (eval (iterate line frame i body n since) r).2 := by
  induction n generalizing since r with
  | zero => exact ran_of_kept (.refl r) fun f hf => by cases hf; rfl
  | succ n ih =>
    unfold iterate
    have hk := hbody r
    rw [eval_bind]
    rcases hm : eval body r with ⟨x, r₁⟩
    rw [hm] at hk
    cases x with
    | error e => exact ran_of_kept hk fun f hf => by cases hf
    | ok _ =>
      dsimp only at hk ⊢
      simp only [eval_bind, eval_modifyCpu, eval_cpu]
      have hk := hk.trans (kept_setCount r₁ i.addrSize (UInt64.ofNat n))
      generalize ({ r₁ with cpu := r₁.cpu.setCount i.addrSize (UInt64.ofNat n) } : Running ω) = r₂ at hk ⊢
      split
      case isTrue => exact ran_of_kept hk fun f hf => by cases hf; rfl
      case isFalse =>
        -- all other ways to go on start with one more retired
        have hon : ∀ since, Ran frame i r
            (eval (iterate line frame i body n since) { r₂ with retired := r₂.retired + 1 }).1
            (eval (iterate line frame i body n since) { r₂ with retired := r₂.retired + 1 }).2 := by
          intro since
          obtain ⟨hcontext, hretired, hhalted, hrip, hprogress, hjumps⟩ :=
            ih since { r₂ with retired := r₂.retired + 1 }
          refine .after hk ⟨hcontext, ?_, hhalted, hrip, ?_, hjumps⟩
          · exact Nat.le_trans (Nat.le_succ _) hretired
          · exact fun hx => Nat.lt_trans (Nat.lt_succ_self _) (hprogress hx)
        rw [eval_bind, eval_retire]
        dsimp only
        split
        case isTrue => exact hon _
        case isFalse =>
          rw [eval_bind, eval_mustGiveWay]
          dsimp only
          split
          case isFalse => exact hon _
          case isTrue =>
            rw [eval_bind, eval_modifyCpu]
            refine .after hk ⟨⟨rfl, rfl, rfl, rfl, rfl⟩, Nat.le_succ _, fun _ => rfl, rfl, fun _ => Nat.lt_succ_self _,
              ?_⟩
            intro taken ht
            cases ht

theorem ran_instr (s : Socket ω) (frame : Frame) (i : Instr) (r : Running ω) :
    Ran frame i r (eval (instr s frame i) r).1 (eval (instr s frame i) r).2 := by
  unfold instr
  split
  case h_1 => exact ran_of_kept (.refl r) fun f hf => by cases hf; rfl
  case h_2 =>
    rw [eval_bind, eval_cpu]
    dsimp only
    split
    case isTrue =>
      exact ⟨⟨rfl, rfl, rfl, rfl, rfl⟩, Nat.le_refl _, fun h => absurd rfl h, rfl, nofun, nofun⟩
    case isFalse => exact ran_of_kept (.refl r) nofun
  case h_3 => exact ran_of_kept (.refl r) nofun
  case h_4 => exact ran_of_kept (.refl r) nofun
  case h_5 => exact ran_calm_next (fun r => ⟨rfl, rfl⟩) r
  case h_6 => exact ran_calm_next (fun r => ⟨rfl, rfl⟩) r
  case h_7 => exact ran_calm_next (fun r => ⟨rfl, rfl⟩) r
  case h_8 =>
    rw [eval_bind, eval_cpu]
    exact ran_calm_next (calm_store s _ _) r
  case h_9 =>
    rw [eval_bind, eval_cpu]
    exact ran_calm_next (calm_store s _ _) r
  case h_10 => exact ran_calm_next (fun r => ⟨rfl, rfl⟩) r
  case h_11 cond rel hop =>
    have hjump : ∀ (taken : Bool) (target : UInt64), Ran frame i r
        (eval (if taken then do modifyCpu (·.setRip target); pure (Flow.branch taken) else pure (.branch taken)) r).1
        (eval (if taken then do modifyCpu (·.setRip target); pure (Flow.branch taken) else pure (.branch taken))
          r).2 := by
      intro taken target
      cases taken with
      | true =>
        exact ⟨⟨rfl, rfl, rfl, rfl, rfl⟩, Nat.le_refl _, fun _ => rfl, Or.inr ⟨target, rfl⟩, nofun,
          fun _ _ => ⟨cond, rel, hop⟩⟩
      | false => exact ⟨.refl _, Nat.le_refl _, fun _ => rfl, Or.inl rfl, nofun, fun _ _ => ⟨cond, rel, hop⟩⟩
    rw [eval_bind, eval_cpu]
    exact hjump _ _
  case h_12 op w _ =>
    unfold repeated
    split
    case isTrue => exact ran_calm_next (calm_element s i op w) r
    case isFalse =>
      rw [eval_bind, eval_cpu]
      exact ran_iterate s.line (calm_element s i op w) _ _ r

end Exec

end TraceCore
