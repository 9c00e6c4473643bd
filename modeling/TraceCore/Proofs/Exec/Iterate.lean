/-
Repeated instructions, one iteration at a time. However many iterations run before an instruction gives
way, it does what it would do if it gave way after each of them and was started again.
-/
import TraceCore.Proofs.Exec.Flow
import TraceCore.Proofs.Fetch.Window

namespace TraceCore

/-! ## The count -/

theorem splice_and (m full value : UInt64) : Word.splice m full value &&& m = value &&& m := by
  unfold Word.splice
  apply UInt64.eq_of_toBitVec_eq
  ext k hk
  simp only [UInt64.toBitVec_and, UInt64.toBitVec_or, UInt64.toBitVec_not, BitVec.getElem_and, BitVec.getElem_or,
    BitVec.getElem_not]
  cases m.toBitVec[k] <;> simp

theorem and_mask_w64 (a : UInt64) : a &&& Width.w64.mask = a := by
  rw [show Width.w64.mask = -1 from rfl, UInt64.and_neg_one]

theorem Cpu.count_lt (c : Cpu) (size : CodeSize) : (c.count size).toNat < 2 ^ size.bits := by
  unfold count
  rw [CodeSize.toNat_and_mask]
  exact Nat.mod_lt _ (Nat.two_pow_pos _)

/-- A count that fits the address size is read back. -/
theorem Cpu.count_setCount (c : Cpu) (size : CodeSize) {n : Nat} (h : n < 2 ^ size.bits) :
    ((c.setCount size (UInt64.ofNat n)).count size).toNat = n := by
  have hn : (UInt64.ofNat n).toNat = n := UInt64.toNat_ofNat_of_lt' (Nat.lt_of_lt_of_le h (by cases size <;> decide))
  have hcount : (c.setCount size (UInt64.ofNat n)).count size = UInt64.ofNat n &&& size.mask := by
    unfold setCount count read write
    cases size with
    | b16 =>
      simp [Reg.rcx, Width.select, Width.replace, and_mask_w64, splice_and, show CodeSize.b16.mask = 0xFFFF from rfl]
    | b32 =>
      simp [Reg.rcx, Width.select, Width.replace, and_mask_w64, show CodeSize.b32.mask = 0xFFFFFFFF from rfl,
        UInt64.and_assoc]
    | b64 => simp [Reg.rcx, Width.select, Width.replace, and_mask_w64]
  rw [hcount, CodeSize.toNat_and_mask, hn, Nat.mod_eq_of_lt h]

variable {ω α β : Type}

/-- The frame of a repeated instruction that gives way after each iteration. -/
def Frame.single (frame : Frame) : Frame := { frame with limit := 0, interval := 1 }

/-- The same, with the instruction pointer elsewhere. -/
def Running.at (r : Running ω) (rip : UInt64) : Running ω := { r with cpu := { r.cpu with rip } }

namespace Exec

variable {line : EventLine ω} {frame : Frame} {i : Instr} {body : Exec ω Unit} {r r₁ : Running ω} {n : Nat}

/-- One iteration, and what follows it. -/
theorem eval_iterate (line : EventLine ω) (frame : Frame) (i : Instr) (body : Exec ω Unit) (n since : Nat)
    (r : Running ω) :
    eval (iterate line frame i body (n + 1) since) r =
      match eval body r with
      | (.error e, r) => (.error e, r)
      | (.ok _, r) =>
        let r := { r with cpu := r.cpu.setCount i.addrSize (UInt64.ofNat n) }
        if n = 0 || i.rep.endsOn r.cpu.zero then (.ok .next, r)
        else
          let r := { r with retired := r.retired + 1 }
          if since + 1 < max frame.interval 1 then eval (iterate line frame i body n (since + 1)) r
          else if (line.events r.world).any || frame.limit ≤ r.retired then (.ok .giveWay, r.at frame.rip)
          else eval (iterate line frame i body n 0) r := by
  rw [iterate, eval_bind]
  rcases eval body r with ⟨x, r₁⟩
  cases x with
  | error e => rfl
  | ok _ =>
    dsimp only
    simp only [eval_bind, eval_modifyCpu, eval_cpu]
    split
    case isTrue => rfl
    case isFalse =>
      rw [eval_bind, eval_retire]
      dsimp only
      split
      case isTrue => rfl
      case isFalse =>
        rw [eval_bind, eval_mustGiveWay]
        dsimp only
        split
        case isTrue => rfl
        case isFalse => rfl

/-- With nothing but one iteration allowed, an instruction that is not through gives way. -/
theorem eval_iterate_single (line : EventLine ω) (frame : Frame) (i : Instr) (body : Exec ω Unit) (n : Nat)
    (r : Running ω) :
    eval (iterate line frame.single i body (n + 1) 0) r =
      match eval body r with
      | (.error e, r) => (.error e, r)
      | (.ok _, r) =>
        let r := { r with cpu := r.cpu.setCount i.addrSize (UInt64.ofNat n) }
        if n = 0 || i.rep.endsOn r.cpu.zero then (.ok .next, r)
        else (.ok .giveWay, { r with retired := r.retired + 1 }.at frame.rip) := by
  rw [eval_iterate]
  rcases eval body r with ⟨x, r₁⟩
  cases x with
  | error e => rfl
  | ok _ => simp [Frame.single]

/-- What gave way after an iteration ran that far. -/
theorem of_giveWay (h : eval (iterate line frame.single i body (n + 1) 0) r = (.ok .giveWay, r₁)) :
    ∃ r₂, eval body r = (.ok (), r₂) ∧
      r₁ = { r₂ with cpu := r₂.cpu.setCount i.addrSize (UInt64.ofNat n), retired := r₂.retired + 1 }.at frame.rip := by
  rw [eval_iterate_single] at h
  rcases hb : eval body r with ⟨x, r₂⟩
  rw [hb] at h
  cases x with
  | error e => cases h
  | ok _ =>
    dsimp only at h
    split at h
    case isTrue => cases h
    case isFalse =>
      cases h
      exact ⟨r₂, rfl, rfl⟩

theorem count_of_giveWay (hn : n < 2 ^ i.addrSize.bits)
    (h : eval (iterate line frame.single i body (n + 1) 0) r = (.ok .giveWay, r₁)) :
    (r₁.cpu.count i.addrSize).toNat = n := by
  obtain ⟨r₂, -, rfl⟩ := of_giveWay h
  exact Cpu.count_setCount r₂.cpu i.addrSize hn

/-- Where one iteration is the last, it is so whatever the frame. -/
theorem eval_iterate_of_done (frame : Frame) (since : Nat)
    (h : (eval (iterate line frame.single i body (n + 1) 0) r).1 ≠ .ok .giveWay) :
    eval (iterate line frame i body (n + 1) since) r = eval (iterate line frame.single i body (n + 1) 0) r := by
  rw [eval_iterate_single] at h ⊢
  rw [eval_iterate]
  rcases hb : eval body r with ⟨x, r₂⟩
  rw [hb] at h
  cases x with
  | error e => rfl
  | ok _ =>
    dsimp only at h ⊢
    split at h
    case isTrue hdone => rw [if_pos hdone, if_pos hdone]
    case isFalse => exact absurd rfl h

/-- Where it is not, the instruction goes on as it does when it is started again. -/
theorem eval_iterate_of_giveWay (frame : Frame) (since : Nat) (hbody : Calm body)
    (h : eval (iterate line frame.single i body (n + 1) 0) r = (.ok .giveWay, r₁)) :
    eval (iterate line frame i body (n + 1) since) r =
      if since + 1 < max frame.interval 1 then eval (iterate line frame i body n (since + 1)) (r₁.at r.cpu.rip)
      else if (line.events r₁.world).any || frame.limit ≤ r₁.retired then (.ok .giveWay, r₁)
      else eval (iterate line frame i body n 0) (r₁.at r.cpu.rip) := by
  rw [eval_iterate_single] at h
  rw [eval_iterate]
  have hkept := hbody r
  rcases hb : eval body r with ⟨x, r₂⟩
  rw [hb] at h hkept
  cases x with
  | error e => cases h
  | ok _ =>
    dsimp only at h ⊢
    split at h
    case isTrue => cases h
    case isFalse hmore =>
      cases h
      let r₃ : Running ω := { r₂ with cpu := r₂.cpu.setCount i.addrSize (UInt64.ofNat n), retired := r₂.retired + 1 }
      have hback : r₃ = (r₃.at frame.rip).at r.cpu.rip := by
        have hrip := (hkept.trans (kept_setCount r₂ i.addrSize (UInt64.ofNat n))).rip
        unfold Running.at
        rw [← hrip]
      rw [if_neg hmore, ← hback]
      rfl

variable {s : Socket ω}

/-- What a repeated instruction does. -/
theorem eval_instr_repeated {op : StringOp} {w : Width} (hop : i.op = .string op w) (hrep : i.rep ≠ .once)
    (s : Socket ω)
    (frame : Frame) (r : Running ω) :
    eval (instr s frame i) r =
      eval (iterate s.line frame i (element s.bus s.guard i op w) (r.cpu.count i.addrSize).toNat 0) r := by
  rw [instr_string hop]
  unfold repeated
  rw [if_neg hrep, eval_bind, eval_cpu]

/-- Only a repeated string instruction looks at the frame. -/
theorem instr_frame (h : ∀ op w, i.op = .string op w → i.rep = .once) (s : Socket ω) (frame frame' : Frame) :
    instr s frame i = instr s frame' i := by
  unfold instr
  split
  case h_12 op w hop =>
    unfold repeated
    rw [if_pos (h op w hop), if_pos (h op w hop)]
  all_goals rfl

/-- A part of an instruction that touches nothing watched. -/
def Unwatched (m : Exec ω α) : Prop := ∀ r : Running ω, (eval m r).2.watchHit = r.watchHit

theorem Unwatched.bind {m : Exec ω α} {f : α → Exec ω β} (hm : Unwatched m) (hf : ∀ a, Unwatched (f a)) :
    Unwatched (m >>= f) := by
  intro r
  have h := hm r
  rw [eval_bind]
  rcases hout : eval m r with ⟨x, r₁⟩
  rw [hout] at h
  cases x with
  | error e => exact h
  | ok a => exact (hf a r₁).trans h

theorem composes_unwatched : Composes fun {α : Type} (m _ : Exec ω α) => Unwatched m := ⟨fun _ _ => rfl, .bind⟩

theorem unwatched_attempt {ε : Type} (fault : ε → Fault) (f : ω → Except ε α × ω) : Unwatched (attempt fault f) := by
  have hworld : Unwatched (world f) := fun _ => rfl
  unfold attempt
  refine hworld.bind fun x => ?_
  cases x with
  | ok a => exact fun _ => rfl
  | error e => exact fun _ => rfl

theorem unwatched_translate (bus : Bus ω) (linear : UInt64) (access : Access) :
    Unwatched (translate bus linear access) := by
  unfold translate
  exact fun r => unwatched_attempt _ _ r

theorem loadwise_unwatched (bus : Bus ω) : Loadwise bus bus fun m _ => Unwatched m where
  toComposes := composes_unwatched
  piece linear _ := (unwatched_translate bus linear .read).bind fun _ => unwatched_attempt _ _

theorem storewise_unwatched (hs : s.guard = .none) : Storewise s s fun m _ => Unwatched m where
  toComposes := composes_unwatched
  watch linear len := by
    rw [hs]
    exact fun _ => rfl
  reach linear := unwatched_translate s.bus linear .write
  piece linear _ _ := (unwatched_translate s.bus linear .write).bind fun _ => unwatched_attempt _ _

theorem partwise_unwatched (hs : s.guard = .none) (i : Instr) :
    Partwise s s (fun _ => True) i fun m _ => Unwatched m where
  toComposes := composes_unwatched
  cpu hf r := hf r.cpu trivial r
  calm _ _ _ := rfl
  load _ _ _ _ _ := (loadwise_unwatched s.bus).load _ _
  store _ _ _ src _ _ _ := (storewise_unwatched hs).store _ src
  throw _ _ := rfl
  modifyCpu _ _ := rfl
  retire _ := rfl
  mustGiveWay _ _ := rfl

/-- Without a debugger no instruction touches anything watched. -/
theorem unwatched_instr (hs : s.guard = .none) (frame : Frame) (i : Instr) : Unwatched (instr s frame i) :=
  (partwise_unwatched hs i).instr frame

end Exec

end TraceCore
