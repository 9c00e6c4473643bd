/-
An instruction is decoded from its own bytes. `Reader.Tight` says so of a reader: what it read off
the front decides the result, and with less than that it is `short`. Readers that are put together
from tight ones are tight.
-/
import TraceCore.Instr.Decode

namespace TraceCore

namespace Reader

variable {α β : Type}

/-- The bytes that were read decide the result, whatever follows them, and no fewer suffice. -/
def Tight (m : Reader α) : Prop :=
  ∀ bs a rest, m bs = .ok (a, rest) → ∃ used, bs = used ++ rest ∧ (∀ more, m (used ++ more) = .ok (a, more)) ∧
    ∀ k < used.length, m (used.take k) = .error .short

/-- What is read has the property. -/
def Yields (P : α → Prop) (m : Reader α) : Prop := ∀ bs a rest, m bs = .ok (a, rest) → P a

/-! ## Putting readers together -/

theorem bind_ok {m : Reader α} {f : α → Reader β} {bs rest : List UInt8} {b : β}
    (h : (m >>= f) bs = .ok (b, rest)) : ∃ a mid, m bs = .ok (a, mid) ∧ f a mid = .ok (b, rest) := by
  change (m bs >>= fun p => f p.1 p.2) = _ at h
  cases hm : m bs with
  | error e => rw [hm] at h; cases h
  | ok p => rw [hm] at h; exact ⟨p.1, p.2, rfl, h⟩

theorem bind_of_ok {m : Reader α} {f : α → Reader β} {bs mid : List UInt8} {a : α} (h : m bs = .ok (a, mid)) :
    (m >>= f) bs = f a mid := by
  change (m bs >>= fun p => f p.1 p.2) = _
  rw [h]; rfl

theorem bind_of_error {m : Reader α} {f : α → Reader β} {bs : List UInt8} {e : Stop} (h : m bs = .error e) :
    (m >>= f) bs = .error e := by
  change (m bs >>= fun p => f p.1 p.2) = _
  rw [h]; rfl

theorem Tight.pure (a : α) : Tight (Pure.pure a) := by
  rintro bs a' rest h
  cases h
  exact ⟨[], rfl, fun _ => rfl, fun k hk => absurd hk (Nat.not_lt_zero k)⟩

theorem Tight.invalid : Tight (invalid : Reader α) := by
  rintro bs a rest h
  cases h

theorem Tight.bind {m : Reader α} {f : α → Reader β} (hm : m.Tight) (hf : ∀ a, (f a).Tight) : (m >>= f).Tight := by
  intro bs b rest h
  obtain ⟨a, mid, ha, hb⟩ := bind_ok h
  obtain ⟨used, rfl, hok, hshort⟩ := hm bs a mid ha
  obtain ⟨used', rfl, hok', hshort'⟩ := hf a mid b rest hb
  refine ⟨used ++ used', by rw [List.append_assoc], fun more => ?_, fun k hk => ?_⟩
  · rw [List.append_assoc, bind_of_ok (hok _)]
    exact hok' more
  · by_cases hlt : k < used.length
    · rw [List.take_append_of_le_length (by omega)]
      exact bind_of_error (hshort k hlt)
    · rw [List.take_append, List.take_of_length_le (by omega), bind_of_ok (hok _)]
      rw [List.length_append] at hk
      exact hshort' _ (by omega)

theorem Tight.ite {p : Prop} [Decidable p] {m n : Reader α} (hm : m.Tight) (hn : n.Tight) :
    (if p then m else n).Tight := by
  split
  · exact hm
  · exact hn

theorem Tight.byte : Tight byte := by
  rintro (_ | ⟨b, bs⟩) a rest h
  · cases h
  · cases h
    refine ⟨[b], rfl, fun _ => rfl, fun k hk => ?_⟩
    obtain rfl : k = 0 := by simpa using hk
    rfl

theorem Tight.bytes (n : Nat) : Tight (bytes n) := by
  induction n with
  | zero => exact Tight.pure _
  | succ n ih => exact Tight.byte.bind fun b => ih.bind fun bs => Tight.pure _

theorem Tight.number (n : Nat) : Tight (number n) := (Tight.bytes n).bind fun _ => Tight.pure _

theorem Tight.signed (n : Nat) : Tight (signed n) := (Tight.number n).bind fun _ => Tight.pure _

theorem Yields.seq {Q : α → Prop} {P : β → Prop} {m : Reader α} {f : α → Reader β} (hm : m.Yields Q)
    (hf : ∀ a, Q a → (f a).Yields P) : (m >>= f).Yields P := by
  intro bs b rest h
  obtain ⟨a, mid, ha, hb⟩ := bind_ok h
  exact hf a (hm bs a mid ha) mid b rest hb

theorem Yields.bind {P : β → Prop} {m : Reader α} {f : α → Reader β} (hf : ∀ a, (f a).Yields P) :
    (m >>= f).Yields P :=
  seq (Q := fun _ => True) (fun _ _ _ _ => trivial) fun a _ => hf a

theorem Yields.pure {P : α → Prop} {a : α} (h : P a) : Yields P (Pure.pure a) := by
  rintro bs a' rest e
  cases e
  exact h

theorem Yields.invalid {P : α → Prop} : Yields P invalid := by
  rintro bs a rest h
  cases h

theorem Yields.ite {P : α → Prop} {p : Prop} [Decidable p] {m n : Reader α} (hm : m.Yields P) (hn : n.Yields P) :
    (if p then m else n).Yields P := by
  split
  · exact hm
  · exact hn

end Reader

/-! ## Reading an instruction -/

open Reader

theorem Prefixes.tight_read (p : Prefixes) : p.read.Tight := by
  intro bs
  induction bs generalizing p with
  | nil => rintro a rest h; cases h
  | cons b bs ih =>
    intro a rest h
    unfold Prefixes.read at h
    cases hp : p.absorb b with
    | none =>
      simp only [hp] at h
      cases h
      refine ⟨[b], rfl, fun more => ?_, fun k hk => ?_⟩
      · show Prefixes.read p (b :: more) = _
        simp only [Prefixes.read, hp]
      · obtain rfl : k = 0 := by simpa using hk
        rfl
    | some p' =>
      simp only [hp] at h
      obtain ⟨used, rfl, hok, hshort⟩ := ih p' a rest h
      refine ⟨b :: used, rfl, fun more => ?_, fun k hk => ?_⟩
      · show Prefixes.read p (b :: (used ++ more)) = _
        simp only [Prefixes.read, hp]
        exact hok more
      · cases k with
        | zero => rfl
        | succ k =>
          show Prefixes.read p (b :: used.take k) = _
          simp only [Prefixes.read, hp]
          exact hshort k (by simpa using hk)

theorem tight_readDisp (code addrSize : CodeSize) (modrm : UInt8) : (readDisp code addrSize modrm).Tight := by
  cases addrSize with
  | b16 => exact Tight.ite ((Tight.number 2).bind fun _ => Tight.pure _) Tight.invalid
  | b32 => exact Tight.ite ((Tight.signed 4).bind fun _ => Tight.pure _) Tight.invalid
  | b64 => exact Tight.ite ((Tight.signed 4).bind fun _ => Tight.pure _) Tight.invalid

theorem Form.tight_read (code : CodeSize) (p : Prefixes) (form : Form) : (form.read code p).Tight := by
  cases form with
  | nop => exact Tight.pure _
  | halt => exact Tight.pure _
  | breakpoint => exact Tight.pure _
  | escape => exact Tight.byte.bind fun _ => Tight.ite (Tight.pure _) Tight.invalid
  | step down low => exact Tight.pure _
  | stepRM narrow =>
    refine Tight.byte.bind fun modrm => Tight.ite Tight.invalid ?_
    dsimp only
    split
    · exact Tight.pure _
    · exact Tight.pure _
    · exact Tight.invalid
  | moveImm narrow low => exact (Tight.number _).bind fun _ => Tight.pure _
  | storeAl => exact (Tight.number _).bind fun _ => Tight.pure _
  | storeImm =>
    refine Tight.byte.bind fun modrm => Tight.ite Tight.invalid ?_
    exact Tight.bind (tight_readDisp _ _ _) fun _ => Tight.byte.bind fun _ => Tight.pure _
  | compareAl => exact Tight.byte.bind fun _ => Tight.pure _
  | jumpShort cond => exact (Tight.signed 1).bind fun _ => Tight.pure _
  | jumpNear => exact (Tight.signed _).bind fun _ => Tight.pure _
  | string op narrow => exact Tight.pure _

/-- What holds of every way that an opcode is read holds of reading what comes behind the prefixes. -/
theorem of_form {P : Reader Instr → Prop} (code : CodeSize) (hinvalid : P invalid) (q : Prefixes × UInt8)
    (hread : ∀ form : Form, P (form.read code q.1)) :
    P (match Form.of? code q.2 with
      | none => invalid
      | some form => form.read code q.1) := by
  split
  · exact hinvalid
  · exact hread _

theorem tight_readInstr (code : CodeSize) : (readInstr code).Tight := by
  unfold readInstr
  refine Tight.bind (Prefixes.tight_read {}) ?_
  rintro ⟨p, opcode⟩
  have htail := fun q => of_form (P := Tight) code Tight.invalid q (Form.tight_read code _)
  refine Tight.ite ?_ ?_
  · exact Tight.byte.bind fun b => (Tight.pure _).bind htail
  · exact (Tight.pure _).bind htail

/-- Control may go elsewhere than to the next instruction. -/
def Op.diverts : Op → Bool
  | .halt | .breakpoint | .undefined | .jump _ _ => true
  | _ => false

theorem Form.ends_read (code : CodeSize) (p : Prefixes) (form : Form) :
    (form.read code p).Yields fun i => i.ends = i.op.diverts := by
  cases form with
  | nop => exact Yields.pure rfl
  | halt => exact Yields.pure rfl
  | breakpoint => exact Yields.pure rfl
  | escape => exact Yields.bind fun _ => Yields.ite (Yields.pure rfl) Yields.invalid
  | step down low =>
    refine Yields.pure ?_
    cases down <;> rfl
  | stepRM narrow =>
    refine Yields.bind fun modrm => Yields.ite Yields.invalid ?_
    dsimp only
    split
    · exact Yields.pure rfl
    · exact Yields.pure rfl
    · exact Yields.invalid
  | moveImm narrow low => exact Yields.bind fun _ => Yields.pure rfl
  | storeAl => exact Yields.bind fun _ => Yields.pure rfl
  | storeImm =>
    refine Yields.bind fun modrm => Yields.ite Yields.invalid ?_
    exact Yields.bind fun _ => Yields.bind fun _ => Yields.pure rfl
  | compareAl => exact Yields.bind fun _ => Yields.pure rfl
  | jumpShort cond => exact Yields.bind fun _ => Yields.pure rfl
  | jumpNear => exact Yields.bind fun _ => Yields.pure rfl
  | string op narrow => exact Yields.pure rfl

theorem ends_readInstr (code : CodeSize) : (readInstr code).Yields fun i => i.ends = i.op.diverts := by
  unfold readInstr
  refine Yields.bind ?_
  rintro ⟨p, opcode⟩
  have htail := fun q => of_form (P := Yields fun i : Instr => i.ends = i.op.diverts) code Yields.invalid q
    (Form.ends_read code _)
  refine Yields.ite ?_ ?_
  · exact Yields.bind fun b => Yields.bind htail
  · exact Yields.bind htail

/-! ## Decoding -/

/-- The bytes of an instruction, perhaps with others behind them, decode to it. -/
theorem decodeInstr_of_readInstr {bytes used rest : List UInt8} {mode : FetchMode} {i : Instr}
    (h : readInstr mode.code (used ++ rest) = .ok (i, rest)) (hbytes : bytes.take maxInstrLen = used ++ rest) :
    decodeInstr bytes mode = .complete { i with len := used.length } := by
  unfold decodeInstr
  dsimp only
  rw [hbytes, show (readInstr mode.code).run (used ++ rest) = .ok (i, rest) from h]
  simp only [List.length_append, Nat.add_sub_cancel]

theorem decodeInstr_eq_complete {bytes : List UInt8} {mode : FetchMode} {i : Instr}
    (h : decodeInstr bytes mode = .complete i) : ∃ j rest, i = { j with len := i.len } ∧
      bytes.take maxInstrLen = bytes.take i.len ++ rest ∧ i.len = (bytes.take i.len).length ∧
        readInstr mode.code (bytes.take maxInstrLen) = .ok (j, rest) := by
  unfold decodeInstr at h
  dsimp only at h
  split at h
  case h_2 => cases h
  case h_3 => split at h <;> cases h
  case h_1 j rest hread =>
    simp only [Decoded.complete.injEq] at h
    obtain ⟨used, hbytes, -, -⟩ := tight_readInstr mode.code _ _ _ hread
    have hlen : i.len = used.length := by
      rw [← h, hbytes, List.length_append]
      exact Nat.add_sub_cancel ..
    have htake := congrArg List.length hbytes
    rw [List.length_append, List.length_take] at htake
    have hused : bytes.take i.len = used := by
      have := congrArg (List.take i.len) hbytes
      rwa [List.take_take, Nat.min_eq_left (by omega), List.take_append_of_le_length (by omega),
        List.take_of_length_le (show used.length ≤ i.len by omega)] at this
    exact ⟨j, rest, by rw [← h], by rw [hused]; exact hbytes, by rw [hused]; exact hlen, hread⟩

/-- A decoded instruction has one to fifteen bytes, and they are among those at hand. -/
theorem len_of_decodeInstr {bytes : List UInt8} {mode : FetchMode} {i : Instr}
    (h : decodeInstr bytes mode = .complete i) : 0 < i.len ∧ i.len ≤ maxInstrLen ∧ i.len ≤ bytes.length := by
  obtain ⟨j, rest, -, hbytes, hlen, hread⟩ := decodeInstr_eq_complete h
  have htake := congrArg List.length hbytes
  rw [List.length_append, ← hlen, List.length_take] at htake
  refine ⟨Nat.pos_of_ne_zero fun h0 => ?_, by omega, by omega⟩
  obtain ⟨used, hused, hok, -⟩ := tight_readInstr mode.code _ _ _ hread
  have : used = [] := by
    have := congrArg List.length hused
    rw [List.length_append, List.length_take] at this
    exact List.length_eq_zero_iff.1 (by omega)
  subst this
  cases hok []

/-- The instructions that end their trace are those behind which control may go elsewhere. -/
theorem ends_of_decodeInstr {bytes : List UInt8} {mode : FetchMode} {i : Instr}
    (h : decodeInstr bytes mode = .complete i) : i.ends = i.op.diverts := by
  obtain ⟨j, rest, hi, -, -, hread⟩ := decodeInstr_eq_complete h
  have hj : j.ends = j.op.diverts := ends_readInstr mode.code _ _ _ hread
  rw [hi]; exact hj

/-- Control goes elsewhere only from an instruction that ends its trace. -/
def Instr.EndsOnJump (i : Instr) : Prop := i.ends = false → ∀ cond rel, i.op ≠ .jump cond rel

theorem endsOnJump_of_decodeInstr {bytes : List UInt8} {mode : FetchMode} {i : Instr}
    (h : decodeInstr bytes mode = .complete i) : i.EndsOnJump := by
  intro hends cond rel hop
  rw [ends_of_decodeInstr h, hop] at hends
  cases hends

/-- The bytes of an instruction decide what is decoded. -/
theorem decodeInstr_congr {bytes bytes' : List UInt8} {mode : FetchMode} {i : Instr}
    (h : decodeInstr bytes mode = .complete i) (hsame : bytes'.take i.len = bytes.take i.len) :
    decodeInstr bytes' mode = .complete i := by
  obtain ⟨j, rest, hi, hbytes, hlen, hread⟩ := decodeInstr_eq_complete h
  obtain ⟨-, hmax, -⟩ := len_of_decodeInstr h
  obtain ⟨used, hused, hok, -⟩ := tight_readInstr mode.code _ _ _ hread
  obtain rfl : used = bytes.take i.len := by
    rw [hbytes] at hused
    exact (List.append_cancel_right hused).symm
  have hsplit : bytes'.take maxInstrLen = bytes.take i.len ++ (bytes'.take maxInstrLen).drop i.len := by
    rw [← hsame, ← Nat.min_eq_left hmax, ← List.take_take, Nat.min_eq_left hmax, List.take_append_drop]
  rw [decodeInstr_of_readInstr (hok _) hsplit, ← hlen, ← hi]

/-- Fewer bytes than an instruction has are too few. -/
theorem decodeInstr_take_short {bytes : List UInt8} {mode : FetchMode} {i : Instr}
    (h : decodeInstr bytes mode = .complete i) {k : Nat} (hk : k < i.len) :
    decodeInstr (bytes.take k) mode = .short := by
  obtain ⟨j, rest, hi, hbytes, hlen, hread⟩ := decodeInstr_eq_complete h
  obtain ⟨-, hmax, hle⟩ := len_of_decodeInstr h
  obtain ⟨used, hused, -, hshort⟩ := tight_readInstr mode.code _ _ _ hread
  obtain rfl : used = bytes.take i.len := by
    rw [hbytes] at hused
    exact (List.append_cancel_right hused).symm
  have htake : (bytes.take k).take maxInstrLen = (bytes.take i.len).take k := by
    rw [List.take_take, List.take_take, Nat.min_eq_right (by omega), Nat.min_eq_left (by omega)]
  unfold decodeInstr
  dsimp only
  rw [htake, show (readInstr mode.code).run ((bytes.take i.len).take k) = .error .short from hshort k (by omega)]
  have : ((bytes.take i.len).take k).length ≠ maxInstrLen := by
    rw [List.length_take, List.length_take]
    omega
  simp only [this, if_false]

end TraceCore
