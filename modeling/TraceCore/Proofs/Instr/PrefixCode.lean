/-
Instructions are a prefix code. `Reader.Tight` speaks of the bytes that a reader takes, `Reader.Refuses` of those that
it does not: more bytes behind them do not change its mind. So an instruction and a refusal are final, and only an
incomplete instruction waits for more.
-/
import TraceCore.Proofs.Instr.Prefix

namespace TraceCore

namespace Reader

variable {α β : Type}

/-- What is refused is refused whatever follows. -/
def Refuses (m : Reader α) : Prop := ∀ bs, m bs = .error .invalid → ∀ more, m (bs ++ more) = .error .invalid

theorem Refuses.pure (a : α) : Refuses (Pure.pure a) := by
  intro bs h
  cases h

theorem Refuses.invalid : Refuses (invalid : Reader α) := by
  intro bs _ more
  rfl

/-- The second reader sees what the first one leaves, and that grows with the bytes at hand. -/
theorem Refuses.bind {m : Reader α} {f : α → Reader β} (ht : m.Tight) (hm : m.Refuses) (hf : ∀ a, (f a).Refuses) :
    (m >>= f).Refuses := by
  intro bs h more
  rcases hbs : m bs with e | ⟨a, mid⟩
  · rw [bind_of_error hbs] at h
    cases h
    exact bind_of_error (hm bs hbs more)
  · rw [bind_of_ok hbs] at h
    obtain ⟨used, rfl, hok, -⟩ := ht bs a mid hbs
    rw [List.append_assoc, bind_of_ok (hok _)]
    exact hf a mid h more

theorem Refuses.ite {p : Prop} [Decidable p] {m n : Reader α} (hm : m.Refuses) (hn : n.Refuses) :
    (if p then m else n).Refuses := by
  split
  · exact hm
  · exact hn

theorem Refuses.byte : Refuses byte := by
  rintro (_ | ⟨b, bs⟩) h <;> cases h

theorem Refuses.bytes (n : Nat) : Refuses (bytes n) := by
  induction n with
  | zero => exact .pure _
  | succ n ih => exact .bind .byte .byte fun b => .bind (.bytes n) ih fun bs => .pure _

theorem Refuses.number (n : Nat) : Refuses (number n) := .bind (.bytes n) (.bytes n) fun _ => .pure _

theorem Refuses.signed (n : Nat) : Refuses (signed n) := .bind (.number n) (.number n) fun _ => .pure _

end Reader

/-! ## Reading an instruction -/

open Reader

theorem Prefixes.refuses_read (p : Prefixes) : p.read.Refuses := by
  intro bs
  induction bs generalizing p with
  | nil => intro h; cases h
  | cons b bs ih =>
    intro h more
    show Prefixes.read p (b :: (bs ++ more)) = _
    unfold Prefixes.read at h ⊢
    cases hp : p.absorb b with
    | none => simp only [hp] at h; cases h
    | some p' =>
      simp only [hp] at h ⊢
      exact ih p' h more

theorem refuses_readDisp (code addrSize : CodeSize) (modrm : UInt8) : (readDisp code addrSize modrm).Refuses := by
  cases addrSize with
  | b16 => exact .ite (.bind (.number 2) (.number 2) fun _ => .pure _) .invalid
  | b32 => exact .ite (.bind (.signed 4) (.signed 4) fun _ => .pure _) .invalid
  | b64 => exact .ite (.bind (.signed 4) (.signed 4) fun _ => .pure _) .invalid

theorem Form.refuses_read (code : CodeSize) (p : Prefixes) (form : Form) : (form.read code p).Refuses := by
  cases form with
  | nop => exact .pure _
  | halt => exact .pure _
  | breakpoint => exact .pure _
  | escape => exact .bind .byte .byte fun _ => .ite (.pure _) .invalid
  | step down low => exact .pure _
  | stepRM narrow =>
    refine .bind .byte .byte fun modrm => .ite .invalid ?_
    dsimp only
    split
    · exact .pure _
    · exact .pure _
    · exact .invalid
  | moveImm narrow low => exact .bind (.number _) (.number _) fun _ => .pure _
  | storeAl => exact .bind (.number _) (.number _) fun _ => .pure _
  | storeImm =>
    refine .bind .byte .byte fun modrm => .ite .invalid ?_
    exact .bind (tight_readDisp _ _ _) (refuses_readDisp _ _ _) fun _ => .bind .byte .byte fun _ => .pure _
  | compareAl => exact .bind .byte .byte fun _ => .pure _
  | jumpShort cond => exact .bind (.signed 1) (.signed 1) fun _ => .pure _
  | jumpNear => exact .bind (.signed _) (.signed _) fun _ => .pure _
  | string op narrow => exact .pure _

theorem refuses_readInstr (code : CodeSize) : (readInstr code).Refuses := by
  unfold readInstr
  refine .bind (Prefixes.tight_read {}) (Prefixes.refuses_read {}) ?_
  rintro ⟨p, opcode⟩
  have htail := fun q => of_form (P := Refuses) code .invalid q (Form.refuses_read code _)
  refine .ite ?_ ?_
  · exact .bind .byte .byte fun b => .bind (.pure _) (.pure _) htail
  · exact .bind (.pure _) (.pure _) htail

/-! ## Decoding -/

variable {bytes : List UInt8} {mode : FetchMode}

/-- Bytes are refused when reading them is, or when fifteen of them are too few. -/
theorem decodeInstr_eq_invalid : decodeInstr bytes mode = .invalid ↔
    readInstr mode.code (bytes.take maxInstrLen) = .error .invalid ∨
      readInstr mode.code (bytes.take maxInstrLen) = .error .short ∧ maxInstrLen ≤ bytes.length := by
  have hfull : min maxInstrLen bytes.length = maxInstrLen ↔ maxInstrLen ≤ bytes.length := by omega
  unfold decodeInstr
  dsimp only
  rw [show (readInstr mode.code).run (bytes.take maxInstrLen) = readInstr mode.code (bytes.take maxInstrLen) from rfl,
    List.length_take]
  rcases readInstr mode.code (bytes.take maxInstrLen) with (_ | _) | ⟨i, rest⟩
  · simp [hfull]
  · simp
  · simp

/-- Fifteen bytes are enough to tell. -/
theorem length_of_decodeInstr_short (h : decodeInstr bytes mode = .short) : bytes.length < maxInstrLen := by
  unfold decodeInstr at h
  dsimp only at h
  rw [List.length_take] at h
  split at h
  case h_1 => cases h
  case h_2 => cases h
  case h_3 =>
    split at h
    case isTrue => cases h
    case isFalse hne => omega

/-- More bytes do not make an instruction of what is none. -/
theorem decodeInstr_append_of_invalid (h : decodeInstr bytes mode = .invalid) (more : List UInt8) :
    decodeInstr (bytes ++ more) mode = .invalid := by
  rw [decodeInstr_eq_invalid] at h ⊢
  rcases h with h | ⟨h, hlen⟩
  · left
    rw [List.take_append]
    exact refuses_readInstr mode.code _ h _
  · right
    rw [List.take_append_of_le_length hlen, List.length_append]
    exact ⟨h, Nat.le_add_right_of_le hlen⟩

/-- The decoder is a prefix code. An instruction has one to fifteen of the bytes at hand, it is decoded from these
whatever follows, and fewer of them are too few; bytes that are none stay so whatever follows; and fifteen bytes are
never too few. -/
theorem decodeInstr_prefixCode (bytes : List UInt8) (mode : FetchMode) :
    (∀ i, decodeInstr bytes mode = .complete i →
      (1 ≤ i.len ∧ i.len ≤ min maxInstrLen bytes.length) ∧
      (∀ more, decodeInstr (bytes.take i.len ++ more) mode = .complete i) ∧
      ∀ k < i.len, decodeInstr (bytes.take k) mode = .short) ∧
    (decodeInstr bytes mode = .invalid → ∀ more, decodeInstr (bytes ++ more) mode = .invalid) ∧
    (decodeInstr bytes mode = .short → bytes.length < maxInstrLen) := by
  refine ⟨fun i h => ?_, decodeInstr_append_of_invalid, length_of_decodeInstr_short⟩
  obtain ⟨hpos, hmax, hle⟩ := len_of_decodeInstr h
  refine ⟨⟨hpos, Nat.le_min.2 ⟨hmax, hle⟩⟩, fun more => decodeInstr_congr h ?_, fun k hk => decodeInstr_take_short h hk⟩
  exact List.take_left' (List.length_take_of_le hle)

/-- A move with an operand size prefix, in 32-bit code and with another instruction behind it: what it needs are its own
four bytes. -/
theorem decodeInstr_prefixCode_move :
    let bytes : List UInt8 := [0x66, 0xB9, 0x34, 0x12, 0xF4]
    let i : Instr := { op := .moveImm .rcx 0x1234, len := 4, width := .w16 }
    decodeInstr bytes ⟨.b32, 0⟩ = .complete i ∧ (∀ more, decodeInstr (bytes.take 4 ++ more) ⟨.b32, 0⟩ = .complete i) ∧
      ∀ k < 4, decodeInstr (bytes.take k) ⟨.b32, 0⟩ = .short := by
  intro bytes i
  have h : decodeInstr bytes ⟨.b32, 0⟩ = .complete i := by decide +kernel
  exact ⟨h, ((decodeInstr_prefixCode bytes ⟨.b32, 0⟩).1 i h).2⟩

end TraceCore
