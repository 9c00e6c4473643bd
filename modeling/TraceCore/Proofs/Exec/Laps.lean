/-
Laps of a repeated instruction. However a repeated instruction comes to its end, it has gone a number of laps: an
iteration is run, the count is lowered, and the lap is retired. The last iteration lacks the retirement, and one that
breaks off lacks the count too.
-/
import TraceCore.Proofs.Cpu.Register
import TraceCore.Proofs.Exec.Interval
import Mathlib.Algebra.BigOperators.Group.Finset.Basic
import Mathlib.Order.Bounds.Basic

namespace TraceCore.Exec

variable {ω : Type} {line : EventLine ω} {frame : Frame} {i : Instr} {body : Exec ω Unit} {r r₁ r₂ : Running ω}
  {n k since since' : Nat}

/-- An iteration that is not the last one: the count is lowered behind it, and it is retired. -/
def lap (i : Instr) (body : Exec ω Unit) : Exec ω Unit := do
  body
  modifyCpu fun c => c.setCount i.addrSize (c.count i.addrSize - 1)
  retire

/-- So many laps. -/
def laps (i : Instr) (body : Exec ω Unit) : Nat → Exec ω Unit
  | 0 => pure ()
  | k + 1 => do
    lap i body
    laps i body k

/-- Where so many laps lead. -/
def after (i : Instr) (body : Exec ω Unit) (r : Running ω) (k : Nat) : Running ω := (eval (laps i body k) r).2

/-- A part of an instruction that leaves the register of the count alone. -/
def SparesCount {α : Type} (m : Exec ω α) : Prop :=
  ∀ r : Running ω, (eval m r).2.cpu.read .rcx .w64 = r.cpu.read .rcx .w64

theorem SparesCount.count (h : SparesCount body) (hran : eval body r = (.ok (), r₁)) (size : CodeSize) :
    r₁.cpu.count size = r.cpu.count size := by
  have hread := h r
  rw [hran] at hread
  unfold Cpu.count
  rw [hread]

theorem eval_lap (hran : eval body r = (.ok (), r₁)) :
    eval (lap i body) r = (.ok (), { r₁ with
      cpu := r₁.cpu.setCount i.addrSize (r₁.cpu.count i.addrSize - 1), retired := r₁.retired + 1 }) := by
  unfold lap
  rw [eval_bind, hran]
  rfl

/-- With `n` iterations to go behind it, a lap leads to where the loop goes on. -/
theorem eval_lap_again (h : SparesCount body) (hran : eval body r = (.ok (), r₁))
    (hcount : (r.cpu.count i.addrSize).toNat = n + 1) : eval (lap i body) r = (.ok (), again i n r₁) := by
  have hpred : r.cpu.count i.addrSize - 1 = UInt64.ofNat n := by
    rw [← UInt64.ofNat_toNat (x := r.cpu.count i.addrSize), hcount, UInt64.ofNat_add]
    exact UInt64.add_sub_cancel ..
  rw [eval_lap hran, h.count hran, hpred]
  rfl

theorem eval_laps_succ (hlap : eval (lap i body) r = (.ok (), r₁)) (k : Nat) :
    eval (laps i body (k + 1)) r = eval (laps i body k) r₁ := by
  rw [laps, eval_bind, hlap]

/-- The last of the laps comes behind the others. -/
theorem eval_laps_last (k : Nat) (r : Running ω) :
    eval (laps i body (k + 1)) r = match eval (laps i body k) r with
      | (.ok _, r) => eval (lap i body) r
      | (.error e, r) => (.error e, r) := by
  induction k generalizing r with
  | zero =>
    show eval (lap i body >>= fun _ => pure ()) r = eval (lap i body) r
    rw [eval_bind]
    rcases eval (lap i body) r with ⟨_ | _, r'⟩ <;> rfl
  | succ k ih =>
    rw [laps, eval_bind, laps, eval_bind]
    rcases eval (lap i body) r with ⟨e | _, r'⟩
    · rfl
    · exact ih r'

/-- What a lap did that came to its end. -/
theorem eval_lap_eq_ok (h : eval (lap i body) r = (.ok (), r₁)) :
    ∃ r₂, eval body r = (.ok (), r₂) ∧ r₁ = { r₂ with
      cpu := r₂.cpu.setCount i.addrSize (r₂.cpu.count i.addrSize - 1), retired := r₂.retired + 1 } := by
  rcases hran : eval body r with ⟨e | _, r₂⟩
  · unfold lap at h
    rw [eval_bind, hran] at h
    cases h
  · rw [eval_lap hran] at h
    cases h
    exact ⟨r₂, rfl, rfl⟩

theorem eval_laps_succ_eq_ok (h : eval (laps i body (k + 1)) r = (.ok (), r₂)) :
    ∃ r₁, eval (laps i body k) r = (.ok (), r₁) ∧ eval (lap i body) r₁ = (.ok (), r₂) := by
  rw [eval_laps_last] at h
  rcases hlaps : eval (laps i body k) r with ⟨e | _, r₁⟩
  · rw [hlaps] at h
    cases h
  · rw [hlaps] at h
    exact ⟨r₁, rfl, h⟩

theorem after_succ (hlap : eval (lap i body) r = (.ok (), r₁)) (k : Nat) :
    after i body r (k + 1) = after i body r₁ k := by
  unfold after
  rw [eval_laps_succ hlap]

theorem eval_laps (hlaps : eval (laps i body k) r = (.ok (), r₁)) : r₁ = after i body r k := by
  unfold after
  rw [hlaps]

/-! ## The loop -/

/-- No lap up to the `k`th left the zero flag so that the repetition is over. -/
def GoesThrough (i : Instr) (body : Exec ω Unit) (r : Running ω) (k : Nat) : Prop :=
  ∀ j, 0 < j → j ≤ k → i.rep.endsOn (after i body r j).cpu.zero = false

theorem GoesThrough.cons (hlap : eval (lap i body) r = (.ok (), r₁)) (hgoes : i.rep.endsOn r₁.cpu.zero = false)
    (h : GoesThrough i body r₁ k) : GoesThrough i body r (k + 1) := by
  intro j hpos hle
  obtain ⟨j, rfl⟩ := Nat.exists_eq_add_of_lt hpos
  rw [Nat.zero_add, after_succ hlap]
  cases j with
  | zero => exact hgoes
  | succ j => exact h (j + 1) (Nat.succ_pos j) (by omega)

/-- How the loop comes to its end, with `n` iterations to go and `since` run since the last check: there are none, one
of them is the last, it has to give way at a check behind some lap, or an iteration breaks off. -/
inductive Looped (line : EventLine ω) (frame : Frame) (i : Instr) (body : Exec ω Unit) (n since : Nat)
    (r : Running ω) : Except Fault Flow × Running ω → Prop
  | empty (none : n = 0) : Looped line frame i body n since r (.ok .next, r)
  | through (k : Nat) (r₁ r₂ : Running ω) (lt : k < n) (goes : GoesThrough i body r k)
      (laps : eval (laps i body k) r = (.ok (), r₁)) (ran : eval body r₁ = (.ok (), r₂))
      (last : n = k + 1 ∨ i.rep.endsOn r₂.cpu.zero = true) :
      Looped line frame i body n since r
        (.ok .next, { r₂ with cpu := r₂.cpu.setCount i.addrSize (UInt64.ofNat (n - k - 1)) })
  | gaveWay (k : Nat) (r₁ : Running ω) (pos : 0 < k) (lt : k < n) (goes : GoesThrough i body r k)
      (laps : eval (laps i body k) r = (.ok (), r₁)) (due : max frame.interval 1 ∣ since + k)
      (must : (line.events r₁.world).any = true ∨ frame.limit ≤ r₁.retired) :
      Looped line frame i body n since r (.ok .giveWay, r₁.at frame.rip)
  | faulted (k : Nat) (r₁ r₂ : Running ω) (fault : Fault) (lt : k < n) (goes : GoesThrough i body r k)
      (laps : eval (laps i body k) r = (.ok (), r₁)) (ran : eval body r₁ = (.error fault, r₂)) :
      Looped line frame i body n since r (.error fault, r₂)

namespace Looped

variable {out : Except Fault Flow × Running ω}

/-- A lap ahead of the loop. -/
theorem cons (hlap : eval (lap i body) r = (.ok (), r₁)) (hgoes : i.rep.endsOn r₁.cpu.zero = false) (hn : 0 < n)
    (hsince : ∀ k, max frame.interval 1 ∣ since' + k → max frame.interval 1 ∣ since + (k + 1))
    (h : Looped line frame i body n since' r₁ out) : Looped line frame i body (n + 1) since r out := by
  cases h with
  | empty none => omega
  | through k r₂ r₃ lt goes laps ran last =>
    rw [show n - k - 1 = n + 1 - (k + 1) - 1 by omega]
    exact .through (k + 1) r₂ r₃ (by omega) (goes.cons hlap hgoes) ((eval_laps_succ hlap k).trans laps) ran
      (last.imp (congrArg (· + 1)) id)
  | gaveWay k r₂ pos lt goes laps due must =>
    exact .gaveWay (k + 1) r₂ (Nat.succ_pos k) (by omega) (goes.cons hlap hgoes)
      ((eval_laps_succ hlap k).trans laps) (hsince k due) must
  | faulted k r₂ r₃ fault lt goes laps ran =>
    exact .faulted (k + 1) r₂ r₃ fault (by omega) (goes.cons hlap hgoes) ((eval_laps_succ hlap k).trans laps) ran

end Looped

theorem goesThrough_zero (i : Instr) (body : Exec ω Unit) (r : Running ω) : GoesThrough i body r 0 :=
  fun _ hpos hle => by omega

/-- The loop comes to its end in one of these ways. -/
theorem looped_iterate (line : EventLine ω) (frame : Frame) (hspares : SparesCount body)
    (hcount : (r.cpu.count i.addrSize).toNat = n) (hsince : since < max frame.interval 1) :
    Looped line frame i body n since r (eval (iterate line frame i body n since) r) := by
  induction n generalizing since r with
  | zero => exact .empty rfl
  | succ n ih =>
    rw [eval_iterate]
    rcases hran : eval body r with ⟨fault | _, r₁⟩
    · exact .faulted 0 r r₁ fault (Nat.succ_pos n) (goesThrough_zero i body r) rfl hran
    · have hlap := eval_lap_again hspares hran hcount
      have hn : n < 2 ^ i.addrSize.bits := by
        have := r.cpu.count_lt i.addrSize
        omega
      have hcount' : ((again i n r₁).cpu.count i.addrSize).toNat = n := r₁.cpu.count_setCount i.addrSize hn
      have hzero : (r₁.cpu.setCount i.addrSize (UInt64.ofNat n)).zero = r₁.cpu.zero := by
        cases i.addrSize <;> rfl
      dsimp only
      split
      case isTrue hlast =>
        simp only [hzero, Bool.or_eq_true, decide_eq_true_eq] at hlast
        exact .through 0 r r₁ (Nat.succ_pos n) (goesThrough_zero i body r) rfl hran (hlast.imp (congrArg (· + 1)) id)
      case isFalse hmore =>
        simp only [Bool.or_eq_true, decide_eq_true_eq, not_or, Bool.not_eq_true] at hmore
        obtain ⟨hpos, hgoes⟩ := hmore
        split
        case isTrue hless =>
          exact (ih hcount' hless).cons hlap hgoes (by omega) fun k hk => by
            rwa [show since + (k + 1) = since + 1 + k by omega]
        case isFalse hfull =>
          have hdue : max frame.interval 1 ∣ since + 1 := by
            rw [show since + 1 = max frame.interval 1 by omega]
          split
          case isTrue hmust =>
            simp only [Bool.or_eq_true, decide_eq_true_eq] at hmust
            exact .gaveWay 1 _ Nat.one_pos (by omega)
              ((goesThrough_zero i body _).cons hlap hgoes) (eval_laps_succ hlap 0) hdue hmust
          case isFalse =>
            exact (ih hcount' (by omega)).cons hlap hgoes (by omega) fun k hk => by
              rw [show since + (k + 1) = since + 1 + k by omega]
              rw [Nat.zero_add] at hk
              exact Nat.dvd_add hdue hk

/-! ## The count and what is retired -/

/-- What a count of this size leaves alone of the register that it is in. -/
def aboveCount (size : CodeSize) (rcx : UInt64) : Nat :=
  if size = .b16 then rcx.toNat / 2 ^ 16 * 2 ^ 16 else 0

theorem toNat_read_setCount (c : Cpu) (size : CodeSize) (hn : n < 2 ^ size.bits) :
    ((c.setCount size (UInt64.ofNat n)).read .rcx .w64).toNat = aboveCount size (c.read .rcx .w64) + n := by
  have hof : (UInt64.ofNat n).toNat = n :=
    UInt64.toNat_ofNat_of_lt' (Nat.lt_of_lt_of_le hn (by cases size <;> decide))
  cases size with
  | b16 =>
    rw [Cpu.setCount, Cpu.read_write_self c rfl, Width.toNat_replace, hof]
    exact congrArg (_ + ·) (Nat.mod_eq_of_lt hn)
  | b32 =>
    rw [Cpu.setCount, Cpu.read_write_self c rfl]
    show (UInt64.ofNat n &&& 0xFFFFFFFF).toNat = 0 + n
    rw [toNat_and_low, hof, Nat.zero_add]
    exact Nat.mod_eq_of_lt hn
  | b64 =>
    rw [Cpu.setCount, Cpu.read_write_self c rfl]
    show (UInt64.ofNat n).toNat = 0 + n
    rw [hof, Nat.zero_add]

theorem aboveCount_setCount (c : Cpu) (size : CodeSize) (hn : n < 2 ^ size.bits) :
    aboveCount size ((c.setCount size (UInt64.ofNat n)).read .rcx .w64) = aboveCount size (c.read .rcx .w64) := by
  have hread := toNat_read_setCount c size hn
  unfold aboveCount at hread ⊢
  split
  case isTrue h16 =>
    rw [if_pos h16] at hread
    subst h16
    have hn : n < 2 ^ 16 := hn
    omega
  case isFalse => rfl

/-- Each lap takes one from the count, and nothing from the rest of its register. -/
theorem count_laps (hspares : SparesCount body) (hk : k ≤ (r.cpu.count i.addrSize).toNat)
    (hlaps : eval (laps i body k) r = (.ok (), r₁)) :
    (r₁.cpu.count i.addrSize).toNat = (r.cpu.count i.addrSize).toNat - k ∧
      aboveCount i.addrSize (r₁.cpu.read .rcx .w64) = aboveCount i.addrSize (r.cpu.read .rcx .w64) := by
  induction k generalizing r₁ with
  | zero =>
    cases hlaps
    exact ⟨rfl, rfl⟩
  | succ k ih =>
    obtain ⟨r₂, hlaps, hlap⟩ := eval_laps_succ_eq_ok hlaps
    obtain ⟨r₃, hran, -⟩ := eval_lap_eq_ok hlap
    obtain ⟨hcount, habove⟩ := ih (by omega) hlaps
    rw [eval_lap_again (n := (r.cpu.count i.addrSize).toNat - (k + 1)) hspares hran (by omega)] at hlap
    cases hlap
    have hlt := r.cpu.count_lt i.addrSize
    have hread := hspares r₂
    rw [hran] at hread
    refine ⟨r₃.cpu.count_setCount i.addrSize (by omega), ?_⟩
    rw [← habove, ← hread]
    exact aboveCount_setCount r₃.cpu i.addrSize (by omega)

/-- Behind a lap, its register is what the count leaves alone and the count. -/
theorem read_laps (hspares : SparesCount body) (hpos : 0 < k) (hk : k ≤ (r.cpu.count i.addrSize).toNat)
    (hlaps : eval (laps i body k) r = (.ok (), r₁)) : (r₁.cpu.read .rcx .w64).toNat =
      aboveCount i.addrSize (r.cpu.read .rcx .w64) + ((r.cpu.count i.addrSize).toNat - k) := by
  obtain ⟨k, rfl⟩ := Nat.exists_eq_add_of_lt hpos
  rw [Nat.zero_add] at hk hlaps ⊢
  obtain ⟨r₂, hbefore, hlap⟩ := eval_laps_succ_eq_ok hlaps
  obtain ⟨r₃, hran, -⟩ := eval_lap_eq_ok hlap
  obtain ⟨hcount, habove⟩ := count_laps hspares (by omega) hbefore
  rw [eval_lap_again (n := (r.cpu.count i.addrSize).toNat - (k + 1)) hspares hran (by omega)] at hlap
  cases hlap
  have hlt := r.cpu.count_lt i.addrSize
  have hread := hspares r₂
  rw [hran] at hread
  rw [← habove, ← hread]
  exact toNat_read_setCount r₃.cpu i.addrSize (by omega)

/-- What the iterations of so many laps count themselves. -/
def ownCount (i : Instr) (body : Exec ω Unit) (r : Running ω) (k : Nat) : Int :=
  ∑ j ∈ Finset.range k, (((eval body (after i body r j)).2.retired : Int) - (after i body r j).retired)

/-- Each lap is retired once, whatever the iterations count. -/
theorem retired_laps (hlaps : eval (laps i body k) r = (.ok (), r₁)) :
    (r₁.retired : Int) = r.retired + k + ownCount i body r k := by
  unfold ownCount
  induction k generalizing r₁ with
  | zero =>
    cases hlaps
    simp
  | succ k ih =>
    obtain ⟨r₂, hbefore, hlap⟩ := eval_laps_succ_eq_ok hlaps
    obtain ⟨r₃, hran, rfl⟩ := eval_lap_eq_ok hlap
    have hretired := ih hbefore
    rw [Finset.sum_range_succ, ← eval_laps hbefore, hran]
    push_cast
    omega

theorem ownCount_of_calm (hbody : Calm body) (i : Instr) (r : Running ω) (k : Nat) : ownCount i body r k = 0 := by
  unfold ownCount
  refine Finset.sum_eq_zero fun j _ => ?_
  rw [(hbody (after i body r j)).retired, Int.sub_self]

/-! ## How many iterations -/

/-- The numbers of iterations behind which the repetition may be over: those that the count says, or any, if the last of
them leaves the zero flag so. -/
def Ends (i : Instr) (body : Exec ω Unit) (r : Running ω) : Set Nat :=
  { j | j = (r.cpu.count i.addrSize).toNat ∨ 0 < j ∧ i.rep.endsOn (after i body r j).cpu.zero = true }

variable {m : Nat}

/-- As long as no lap ends the repetition, the number of iterations is larger. -/
theorem lt_of_goesThrough (hm : IsLeast (Ends i body r) m) (hk : k < (r.cpu.count i.addrSize).toNat)
    (hgoes : GoesThrough i body r k) : k < m := by
  rcases hm.1 with rfl | ⟨hpos, hends⟩
  · exact hk
  · refine Nat.lt_of_not_le fun hle => ?_
    rw [hgoes m hpos hle] at hends
    cases hends

theorem isLeast_ends (hk : k < (r.cpu.count i.addrSize).toNat) (hgoes : GoesThrough i body r k)
    (hlaps : eval (laps i body k) r = (.ok (), r₁)) (hran : eval body r₁ = (.ok (), r₂))
    (hlast : (r.cpu.count i.addrSize).toNat = k + 1 ∨ i.rep.endsOn r₂.cpu.zero = true) :
    IsLeast (Ends i body r) (k + 1) := by
  constructor
  · refine hlast.imp Eq.symm fun hends => ⟨Nat.succ_pos k, ?_⟩
    have hlap := eval_lap (i := i) hran
    have hzero : (r₂.cpu.setCount i.addrSize (r₂.cpu.count i.addrSize - 1)).zero = r₂.cpu.zero := by
      cases i.addrSize <;> rfl
    unfold after
    rw [eval_laps_last, hlaps]
    dsimp only
    rw [hlap]
    exact (congrArg i.rep.endsOn hzero).trans hends
  · rintro j (rfl | ⟨hpos, hends⟩)
    · exact hk
    · refine Nat.lt_of_not_le fun hle => ?_
      rw [hgoes j hpos hle] at hends
      cases hends

theorem eval_repeated (line : EventLine ω) (frame : Frame) (hrep : i.rep ≠ .once) (body : Exec ω Unit)
    (r : Running ω) : eval (repeated line frame i body) r =
      eval (iterate line frame i body (r.cpu.count i.addrSize).toNat 0) r := by
  unfold repeated
  rw [if_neg hrep, eval_bind, eval_cpu]

/-- A repeated part of an instruction comes to its end as the loop does. -/
theorem looped_repeated (line : EventLine ω) (frame : Frame) (hrep : i.rep ≠ .once) (hspares : SparesCount body)
    (r : Running ω) : Looped line frame i body (r.cpu.count i.addrSize).toNat 0 r
      (eval (repeated line frame i body) r) := by
  rw [eval_repeated line frame hrep]
  exact looped_iterate line frame hspares rfl (by omega)

/-- So does a repeated string operation. -/
theorem looped_instr {s : Socket ω} {op : StringOp} {w : Width} (hop : i.op = .string op w) (hrep : i.rep ≠ .once)
    (hspares : SparesCount (element s.bus s.guard i op w)) (frame : Frame) (r : Running ω) :
    Looped s.line frame i (element s.bus s.guard i op w) (r.cpu.count i.addrSize).toNat 0 r
      (eval (instr s frame i) r) := by
  rw [eval_instr_repeated hop hrep]
  exact looped_iterate s.line frame hspares rfl (by omega)

/-- How often a repeated instruction runs its iteration. Let `n` be the low part of RCX that the address size gives, and
`m` the least number behind which the repetition may be over. If none of the first `m` iterations faults, then either it
is through, with nothing changed where `n` is zero, and else `m` iterations later: the count has gone down by `m`, and
all but the last of them are retired. Or it gave way behind fewer than `m` of them, a multiple of the interval, with the
instruction pointer at the instruction and each of them retired. What the iterations count themselves comes on top, and
is nothing where they are calm. -/
theorem eval_repeated_count (line : EventLine ω) (frame : Frame) (hrep : i.rep ≠ .once) (hspares : SparesCount body)
    (hm : IsLeast (Ends i body r) m) (hfree : ∀ j < m, (eval body (after i body r j)).1 = .ok ()) :
    let rcx := r.cpu.read .rcx .w64
    let n := rcx.toNat % 2 ^ i.addrSize.bits
    let out := eval (repeated line frame i body) r
    (out.1 = .ok .next ∧ (n = 0 → m = 0 ∧ out.2 = r) ∧ (0 < n → 0 < m ∧ m ≤ n ∧
      (let last := (eval body (after i body r (m - 1))).2
      out.2 = { last with cpu := last.cpu.setCount i.addrSize (UInt64.ofNat (n - m)) }) ∧
      (out.2.cpu.read .rcx .w64).toNat = aboveCount i.addrSize rcx + (n - m) ∧
      (out.2.retired : Int) = r.retired + (m - 1 : Nat) + ownCount i body r m)) ∨
    (out.1 = .ok .giveWay ∧ ∃ k, 0 < k ∧ k ≤ m - 1 ∧ max frame.interval 1 ∣ k ∧
      ((line.events (after i body r k).world).any = true ∨ frame.limit ≤ (after i body r k).retired) ∧
      out.2 = (after i body r k).at frame.rip ∧
      (out.2.cpu.read .rcx .w64).toNat = aboveCount i.addrSize rcx + (n - k) ∧
      (out.2.retired : Int) = r.retired + k + ownCount i body r k) := by
  intro rcx n out
  have hn : (r.cpu.count i.addrSize).toNat = n := CodeSize.toNat_and_mask ..
  have hlt := r.cpu.count_lt i.addrSize
  have hlooped : Looped line frame i body _ 0 r out := looped_repeated line frame hrep hspares r
  clear_value out
  cases hlooped with
  | empty none =>
    rw [hn] at none
    have hzero : m ≤ 0 := hm.2 (Or.inl (hn.trans none).symm)
    exact Or.inl ⟨rfl, fun _ => ⟨Nat.le_zero.1 hzero, rfl⟩, fun hpos => absurd none (Nat.ne_of_gt hpos)⟩
  | through k r₁ r₂ lt goes hlaps ran last =>
    have hk := (isLeast_ends lt goes hlaps ran last).unique hm
    obtain ⟨-, habove⟩ := count_laps hspares (Nat.le_of_lt lt) hlaps
    have hread := hspares r₁
    have hretired := retired_laps hlaps
    subst hk
    rw [hn] at lt hlt ⊢
    rw [ran] at hread
    refine Or.inl ⟨rfl, fun hzero => by omega, fun _ => ⟨Nat.succ_pos k, lt, ?_, ?_, ?_⟩⟩
    · dsimp only
      rw [Nat.add_sub_cancel, ← eval_laps hlaps, ran]
      rfl
    · dsimp only
      rw [toNat_read_setCount r₂.cpu i.addrSize (by omega), hread, habove]
      rfl
    · unfold ownCount at hretired ⊢
      rw [Finset.sum_range_succ, ← eval_laps hlaps, ran]
      show (r₂.retired : Int) = _
      push_cast
      omega
  | gaveWay k r₁ pos lt goes hlaps due must =>
    have hkm := lt_of_goesThrough hm lt goes
    have hread := read_laps hspares pos (Nat.le_of_lt lt) hlaps
    have hretired := retired_laps hlaps
    rw [hn] at hread
    rw [Nat.zero_add] at due
    rw [eval_laps hlaps] at must hread hretired ⊢
    exact Or.inr ⟨rfl, k, pos, by omega, due, must, rfl, hread, hretired⟩
  | faulted k r₁ r₂ fault lt goes hlaps ran =>
    have hok := hfree k (lt_of_goesThrough hm lt goes)
    rw [← eval_laps hlaps, ran] at hok
    cases hok

/-- Counts RAX up, with the flags of the comparison of what it was with three. -/
def countUp : Exec Events Unit :=
  modifyCpu fun c => (c.write .rax .w64 (c.read .rax .w64 + 1)).compare (c.read .rax .w64) 3 .w64

theorem eval_countUp (r : Running Events) : (eval countUp r).1 = .ok () := rfl

theorem sparesCount_countUp : SparesCount countUp := by
  intro r
  exact Cpu.read_write_of_ne r.cpu (show Reg.rax.index ≠ Reg.rcx.index by decide) .w64 .w64 _

/-- A scan for an element that agrees. -/
def scanFor : Instr := { op := .string .scan .w8, len := 2, addrSize := .b16, rep := .repne }

/-- Ten iterations are to go, by CX. -/
def ten : Running Events := ⟨(Cpu.new .longMode).write .rcx .w64 0xABCD000A, {}, 5, false⟩

theorem isLeast_four : IsLeast (Ends scanFor countUp ten) 4 := by
  refine ⟨Or.inr ⟨by decide, by decide +kernel⟩, ?_⟩
  rintro j (rfl | ⟨-, hends⟩)
  · decide +kernel
  · have hgoes : ∀ j < 4, scanFor.rep.endsOn (after scanFor countUp ten j).cpu.zero = false := by decide +kernel
    refine Nat.le_of_not_lt fun hlt => ?_
    rw [hgoes j hlt] at hends
    cases hends

/-- What the repetition comes to. -/
def counted (limit : Nat) : Except Fault Flow × Running Events :=
  eval (repeated ⟨id, fun e _ => e⟩ ⟨0x100, limit, 2⟩ scanFor countUp) ten

/-- The fourth iteration ends the repetition, and three of them are retired. Below a limit that is reached before, it
gives way behind two of them. -/
theorem eval_repeated_count_four :
    (counted 100).1 = .ok .next ∧ ((counted 100).2.cpu.read .rcx .w64).toNat = 0xABCD0006 ∧
      ((counted 100).2.retired : Int) = 8 ∧
      (counted 6).1 = .ok .giveWay ∧ ((counted 6).2.cpu.read .rcx .w64).toNat = 0xABCD0008 ∧
      (counted 6).2 = (after scanFor countUp ten 2).at 0x100 := by
  have hcount (limit : Nat) := eval_repeated_count ⟨id, fun e _ => e⟩ ⟨0x100, limit, 2⟩ (i := scanFor) nofun
    sparesCount_countUp isLeast_four fun _ _ => eval_countUp _
  obtain ⟨hnext, hyield⟩ : (counted 100).1 = .ok .next ∧ (counted 6).1 = .ok .giveWay := by decide +kernel
  have hn : 0 < (ten.cpu.read .rcx .w64).toNat % 2 ^ scanFor.addrSize.bits := by decide +kernel
  have hown : ownCount scanFor countUp ten 4 = 0 := by decide +kernel
  obtain ⟨hread, hretired⟩ : ((counted 100).2.cpu.read .rcx .w64).toNat = 0xABCD0006 ∧
      ((counted 100).2.retired : Int) = 8 := by
    rcases hcount 100 with ⟨-, -, hran⟩ | ⟨hother, -⟩
    · obtain ⟨-, -, -, hread, hretired⟩ := hran hn
      rw [hown] at hretired
      exact ⟨hread, hretired⟩
    · cases hnext.symm.trans hother
  rcases hcount 6 with ⟨hother, -⟩ | ⟨-, k, hpos, hle, ⟨j, hdvd⟩, -, hstate, hread', -⟩
  · cases hyield.symm.trans hother
  · have hk : k = 2 := by
      change k = 2 * j at hdvd
      omega
    subst hk
    exact ⟨hnext, hread, hretired, hyield, hread', hstate⟩

end TraceCore.Exec
