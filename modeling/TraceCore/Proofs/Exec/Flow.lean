/-
How control goes on behind an instruction. What an instruction returns when it is through is settled by its operation:
one that ends no trace goes on to the next instruction, or gives way as a repeated instruction does.
-/
import TraceCore.Proofs.Exec.Ran
import TraceCore.Proofs.Instr.Prefix

namespace TraceCore

/-- The ways on behind an instruction that is through. -/
def Instr.Allows (i : Instr) : Flow → Prop
  | .next => i.op.diverts = false
  | .branch _ => ∃ cond rel, i.op = .jump cond rel
  | .halt => i.op = .halt
  | .giveWay => (∃ op w, i.op = .string op w) ∧ i.rep ≠ .once

/-- Control stays in front of the instruction or goes to the next one, unless it may go elsewhere. -/
theorem Instr.Allows.diverts {i : Instr} {flow : Flow} (h : i.Allows flow) :
    i.op.diverts = false ↔ flow = .next ∨ flow = .giveWay := by
  cases flow with
  | next => exact iff_of_true h (.inl rfl)
  | branch taken =>
    obtain ⟨cond, rel, hop⟩ := h
    exact iff_of_false (by rw [hop]; nofun) nofun
  | halt =>
    have hop : i.op = .halt := h
    exact iff_of_false (by rw [hop]; nofun) nofun
  | giveWay =>
    obtain ⟨⟨op, w, hop⟩, -⟩ := h
    exact iff_of_true (by rw [hop]; rfl) (.inr rfl)

namespace Exec

variable {ω α β : Type} {P : α → Prop}

/-- What comes of a part that is through has the property. -/
def Returns (P : α → Prop) (m : Exec ω α) : Prop := ∀ r a, (eval m r).1 = .ok a → P a

namespace Returns

theorem pure {a : α} (h : P a) : Returns P (Pure.pure a : Exec ω α) := by
  rintro r a' ⟨⟩
  exact h

theorem throw (e : Fault) : Returns P (throw e : Exec ω α) := by
  rintro r a ⟨⟩

theorem bind {m : Exec ω β} {f : β → Exec ω α} (hf : ∀ b, Returns P (f b)) : Returns P (m >>= f) := by
  intro r a h
  rw [eval_bind] at h
  rcases hm : eval m r with ⟨e | b, r₁⟩
  · rw [hm] at h
    cases h
  · rw [hm] at h
    exact hf b r₁ a h

theorem ite {p : Prop} [Decidable p] {m n : Exec ω α} (hm : Returns P m) (hn : Returns P n) :
    Returns P (if p then m else n) := by
  split
  · exact hm
  · exact hn

end Returns

/-- Iterations come to their end or give way. -/
theorem returns_iterate {P : Flow → Prop} (hnext : P .next) (hgive : P .giveWay) (line : EventLine ω) (frame : Frame)
    (i : Instr) (body : Exec ω Unit) (n since : Nat) : Returns P (iterate line frame i body n since) := by
  induction n generalizing since with
  | zero => exact .pure hnext
  | succ n ih =>
    unfold iterate
    refine .bind fun _ => .bind fun _ => .bind fun c => .ite (.pure hnext) (.bind fun _ => .ite (ih _) ?_)
    exact .bind fun giveWay => .ite (.bind fun _ => .pure hgive) (ih _)

theorem allows_instr (s : Socket ω) (frame : Frame) (i : Instr) : Returns i.Allows (instr s frame i) := by
  have hnext : i.op.diverts = false → i.Allows .next := id
  unfold instr
  split
  case h_1 hop => exact .pure (hnext (by rw [hop]; rfl))
  case h_2 hop => exact .bind fun c => .ite (.bind fun _ => .pure hop) (.throw _)
  case h_3 => exact .throw _
  case h_4 => exact .throw _
  case h_5 hop => exact .bind fun _ => .pure (hnext (by rw [hop]; rfl))
  case h_6 hop => exact .bind fun _ => .pure (hnext (by rw [hop]; rfl))
  case h_7 hop => exact .bind fun _ => .pure (hnext (by rw [hop]; rfl))
  case h_8 hop => exact .bind fun c => .bind fun _ => .pure (hnext (by rw [hop]; rfl))
  case h_9 hop => exact .bind fun c => .bind fun _ => .pure (hnext (by rw [hop]; rfl))
  case h_10 hop => exact .bind fun _ => .pure (hnext (by rw [hop]; rfl))
  case h_11 cond rel hop =>
    refine .bind fun c => ?_
    dsimp only
    exact .ite (.bind fun _ => .pure ⟨cond, rel, hop⟩) (.pure ⟨cond, rel, hop⟩)
  case h_12 op w hop =>
    have hdone : i.Allows .next := hnext (by rw [hop]; rfl)
    unfold repeated
    split
    case isTrue => exact .bind fun _ => .pure hdone
    case isFalse hrep => exact .bind fun c => returns_iterate hdone ⟨⟨op, w, hop⟩, hrep⟩ _ _ _ _ _ _

end Exec

end TraceCore
