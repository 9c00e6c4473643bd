/-
How far an instruction goes beyond what it was allowed. A repeated instruction looks after every interval of
iterations whether it has to give way, so it runs past a limit by less than an interval, and past an event by no more
than one. Any other instruction retires nothing before it is through.
-/
import TraceCore.Proofs.Exec.Iterate

namespace TraceCore.Exec

variable {ω : Type} {line : EventLine ω} {frame : Frame} {i : Instr} {body : Exec ω Unit}

/-- What is still to be counted of an instruction: all but the last iteration are, and all that ran if it gave way. -/
def uncounted : Except Fault Flow → Nat
  | .ok .giveWay => 0
  | _ => 1

theorem uncounted_of_ne {x : Except Fault Flow} (h : x ≠ .ok .giveWay) : uncounted x = 1 := by
  unfold uncounted
  split
  case h_1 => exact absurd rfl h
  case h_2 => rfl

theorem uncounted_le (x : Except Fault Flow) : uncounted x ≤ 1 := by
  unfold uncounted
  split <;> decide

/-! ## Repeated instructions -/

/-- Once an iteration is through that is not the last one, the loop goes on with `n` to go. -/
def again (i : Instr) (n : Nat) (r : Running ω) : Running ω :=
  { r with cpu := r.cpu.setCount i.addrSize (UInt64.ofNat n), retired := r.retired + 1 }

/-- The loop comes from one head to another: from `n` iterations to go, with `since` run since the last check, to `n'`
and `since'`. -/
inductive Comes (line : EventLine ω) (frame : Frame) (i : Instr) (body : Exec ω Unit) :
    (n since : Nat) → Running ω → (n' since' : Nat) → Running ω → Prop
  | here (n since : Nat) (r : Running ω) : Comes line frame i body n since r n since r
  | on {n since n' since' : Nat} {r r₁ r' : Running ω} (ran : eval body r = (.ok (), r₁))
      (more : (n = 0 || i.rep.endsOn (r₁.cpu.setCount i.addrSize (UInt64.ofNat n)).zero) = false)
      (less : since + 1 < max frame.interval 1)
      (rest : Comes line frame i body n (since + 1) (again i n r₁) n' since' r') :
      Comes line frame i body (n + 1) since r n' since' r'
  | checked {n since n' since' : Nat} {r r₁ r' : Running ω} (ran : eval body r = (.ok (), r₁))
      (more : (n = 0 || i.rep.endsOn (r₁.cpu.setCount i.addrSize (UInt64.ofNat n)).zero) = false)
      (full : ¬since + 1 < max frame.interval 1) (quiet : (line.events r₁.world).any = false)
      (below : r₁.retired + 1 < frame.limit)
      (rest : Comes line frame i body n 0 (again i n r₁) n' since' r') : Comes line frame i body (n + 1) since r n' since' r'

namespace Comes

variable {n n' since since' : Nat} {r r' : Running ω}

/-- From the head that it comes to, the loop goes the rest of the way. -/
theorem eval_eq (h : Comes line frame i body n since r n' since' r') :
    eval (iterate line frame i body n since) r = eval (iterate line frame i body n' since') r' := by
  induction h with
  | here => rfl
  | @on n since _ _ r r₁ _ ran more less _ ih =>
    rw [eval_iterate, ran]
    dsimp only
    rw [if_neg (ne_true_of_eq_false more), if_pos less]
    exact ih
  | @checked n since _ _ r r₁ _ ran more full quiet below _ ih =>
    rw [eval_iterate, ran]
    dsimp only
    rw [if_neg (ne_true_of_eq_false more), if_neg full, quiet, if_neg (by simpa using below)]
    exact ih

/-- A check is never overdue. -/
theorem since_lt (h : Comes line frame i body n since r n' since' r') (hsince : since < max frame.interval 1) :
    since' < max frame.interval 1 := by
  induction h with
  | here => exact hsince
  | on ran more less _ ih => exact ih less
  | checked ran more full quiet below _ ih => exact ih (by omega)

/-- What each iteration keeps, the loop keeps. -/
theorem keeps {Q : ω → Prop} (h : Comes line frame i body n since r n' since' r')
    (hbody : ∀ r : Running ω, Q r.world → Q (eval body r).2.world) (hr : Q r.world) : Q r'.world := by
  induction h with
  | here => exact hr
  | @on n since _ _ r r₁ _ ran _ _ _ ih =>
    have hran := hbody r hr
    rw [ran] at hran
    exact ih hran
  | @checked n since _ _ r r₁ _ ran _ _ _ _ _ ih =>
    have hran := hbody r hr
    rw [ran] at hran
    exact ih hran

/-- And what is so after the iteration at one head is so after the iteration at another. -/
theorem keeps_after {Q : ω → Prop} (h : Comes line frame i body n since r n' since' r')
    (hbody : ∀ r : Running ω, Q r.world → Q (eval body r).2.world) (hr : Q (eval body r).2.world) :
    Q (eval body r').2.world := by
  cases h with
  | here => exact hr
  | on ran _ _ rest =>
    rw [ran] at hr
    exact hbody _ (rest.keeps hbody hr)
  | checked ran _ _ _ _ rest =>
    rw [ran] at hr
    exact hbody _ (rest.keeps hbody hr)

end Comes

section

variable {Q : ω → Prop} {n : Nat} {r : Running ω}

theorem iterate_keeps_after (hrest : ∀ (since : Nat) (r : Running ω), Q r.world →
      Q (eval (iterate line frame i body n since) r).2.world)
    (since : Nat) (hr : Q (eval body r).2.world) : Q (eval (iterate line frame i body (n + 1) since) r).2.world := by
  rw [eval_iterate]
  rcases hran : eval body r with ⟨e | _, r₁⟩
  · rwa [hran] at hr
  · rw [hran] at hr
    dsimp only
    split
    case isTrue => exact hr
    case isFalse =>
      split
      case isTrue => exact hrest _ _ hr
      case isFalse =>
        split
        case isTrue => exact hr
        case isFalse => exact hrest _ _ hr

/-- What each iteration keeps, the rest of the loop keeps. -/
theorem iterate_keeps (hbody : ∀ r : Running ω, Q r.world → Q (eval body r).2.world) (n since : Nat) (r : Running ω)
    (hr : Q r.world) : Q (eval (iterate line frame i body n since) r).2.world := by
  induction n generalizing since r with
  | zero => exact hr
  | succ n ih => exact iterate_keeps_after ih since (hbody r hr)

end

/-- A bound that each check leaves an interval below, and that the first check is not beyond, is kept to the end. -/
theorem retired_iterate_le {bound : Nat} (hbody : Calm body) {n since : Nat} {r : Running ω}
    (hcheck : ∀ {n' since' : Nat} {r₁ r₂ : Running ω}, Comes line frame i body n since r (n' + 1) since' r₁ →
      eval body r₁ = (.ok (), r₂) → (line.events r₂.world).any = false → r₂.retired + 1 < frame.limit →
      r₂.retired + 1 + max frame.interval 1 ≤ bound)
    (hsince : since < max frame.interval 1) (hbound : r.retired + (max frame.interval 1 - since) ≤ bound) :
    (eval (iterate line frame i body n since) r).2.retired +
      uncounted (eval (iterate line frame i body n since) r).1 ≤ bound := by
  induction n generalizing since r with
  | zero =>
    show r.retired + 1 ≤ bound
    omega
  | succ n ih =>
    have hkept := (hbody r).retired
    rw [eval_iterate]
    rcases hran : eval body r with ⟨x, r₁⟩
    rw [hran] at hkept
    dsimp only at hkept
    cases x with
    | error e =>
      show r₁.retired + 1 ≤ bound
      omega
    | ok _ =>
      dsimp only
      split
      case isTrue =>
        show r₁.retired + 1 ≤ bound
        omega
      case isFalse hmore =>
        rw [Bool.not_eq_true] at hmore
        split
        case isTrue hless =>
          exact ih (fun h => hcheck (.on hran hmore hless h)) hless (by dsimp only; omega)
        case isFalse hfull =>
          split
          case isTrue =>
            show r₁.retired + 1 + 0 ≤ bound
            omega
          case isFalse hgoes =>
            simp only [Bool.or_eq_true, decide_eq_true_eq, not_or, Bool.not_eq_true, Nat.not_le] at hgoes
            exact ih (fun h => hcheck (.checked hran hmore hfull hgoes.1 hgoes.2 h)) (by omega)
              (hcheck (.here ..) hran hgoes.1 hgoes.2)

/-! ## Whole instructions -/

/-- Nothing is counted by what changes registers and flags only, nor by a change of the rest of the processor. -/
theorem oncewise_retired (s : Socket ω) (i : Instr) :
    Oncewise s s (fun _ => True) i fun m _ => ∀ r, (eval m r).2.retired = r.retired where
  pure _ _ := rfl
  bind := by
    intro α β m _ f _ hm hf r
    have h := hm r
    rw [eval_bind]
    rcases hout : eval m r with ⟨e | a, r₁⟩
    · rwa [hout] at h
    · rw [hout] at h
      exact (hf a r₁).trans h
  cpu hf r := hf r.cpu trivial r
  calm _ _ _ := rfl
  load _ _ _ _ _ r := (calm_load s _ _ r).retired
  store _ _ _ src _ _ _ r := (calm_store s _ src r).retired
  throw _ _ := rfl
  modifyCpu _ _ := rfl

/-- Nothing but a repeated instruction counts anything itself. -/
theorem retired_instr (h : ∀ op w, i.op = .string op w → i.rep = .once) (s : Socket ω) (frame : Frame)
    (r : Running ω) : (eval (instr s frame i) r).2.retired = r.retired :=
  (oncewise_retired s i).instr frame h r

/-- An instruction that starts below the limit ends less than an interval above it. -/
theorem retired_instr_lt (s : Socket ω) (frame : Frame) (i : Instr) {r : Running ω} (h : r.retired < frame.limit) :
    (eval (instr s frame i) r).2.retired + uncounted (eval (instr s frame i) r).1 <
      frame.limit + max frame.interval 1 := by
  by_cases hrep : ∃ op w, i.op = .string op w ∧ i.rep ≠ .once
  case pos =>
    obtain ⟨op, w, hop, honce⟩ := hrep
    rw [eval_instr_repeated hop honce]
    generalize (r.cpu.count i.addrSize).toNat = n
    have hle : (eval (iterate s.line frame i (element s.bus s.guard i op w) n 0) r).2.retired +
        uncounted (eval (iterate s.line frame i (element s.bus s.guard i op w) n 0) r).1 ≤
          frame.limit + max frame.interval 1 - 1 := by
      exact retired_iterate_le (calm_element s i op w) (fun _ _ _ hless => by omega) (by omega) (by omega)
    omega
  case neg =>
    rw [retired_instr fun op w hop => Decidable.byContradiction fun honce => hrep ⟨op, w, hop, honce⟩]
    have := uncounted_le (eval (instr s frame i) r).1
    omega

end TraceCore.Exec
