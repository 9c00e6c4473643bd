/-
High bytes. Without a REX byte, a byte operation on register field 4 to 7 works on the second byte of a register. That
register is the one whose number the field is (RSP, RBP, RSI or RDI), and not the one four below it.
-/
import Mathlib.Data.FinEnum
import TraceCore.Proofs.Exec.Ran
import TraceCore.Proofs.Instr.PrefixOrder
import TraceCore.Socket.Board

namespace TraceCore

/-! ## The second byte of a word -/

namespace Word

/-- Bit `k` of a word. -/
def bit (v : UInt64) (k : Nat) : Bool := v.toBitVec.getLsbD k

/-- The byte of a word that begins at bit 8. -/
def secondByte (v : UInt64) : UInt8 := (v >>> 8).toUInt8

theorem and_lowByte (v : UInt64) : v &&& 0xFF = v.toUInt8.toUInt64 := by
  apply UInt64.toNat_inj.1
  rw [UInt64.toNat_and, UInt64.toUInt64_toUInt8, UInt64.toNat_mod]
  exact Nat.and_two_pow_sub_one_eq_mod v.toNat 8

theorem getLsbD_secondByteMask (k : Nat) : BitVec.getLsbD 0xFF00#64 k = decide (8 ≤ k ∧ k < 16) := by
  by_cases h : k < 64
  · revert k
    decide
  · rw [BitVec.getLsbD_of_ge _ _ (by omega)]
    exact (decide_eq_false (by omega)).symm

/-- Bit by bit, a word with another second byte. -/
theorem bit_splice_secondByte (full value : UInt64) (k : Nat) :
    bit (splice 0xFF00 full (value <<< 8)) k =
      if 8 ≤ k ∧ k < 16 then value.toUInt8.toBitVec.getLsbD (k - 8) else bit full k := by
  have hmask : (0xFF00 : UInt64).toBitVec = 0xFF00#64 := rfl
  have hby : (8 : UInt64).toBitVec % 64 = 8#64 := rfl
  have height : (8#64).toNat = 8 := rfl
  unfold bit splice
  rw [UInt64.toBitVec_or, UInt64.toBitVec_and, UInt64.toBitVec_and, UInt64.toBitVec_not, UInt64.toBitVec_shiftLeft,
    hmask, hby, UInt64.toBitVec_toUInt8, BitVec.shiftLeft_eq', height, BitVec.getLsbD_or, BitVec.getLsbD_and,
    BitVec.getLsbD_and, BitVec.getLsbD_not, getLsbD_secondByteMask, BitVec.getLsbD_setWidth, BitVec.getLsbD_shiftLeft]
  by_cases hk : 8 ≤ k ∧ k < 16
  · have hword : k < 64 := by omega
    have hbyte : k - 8 < 8 := by omega
    have habove : ¬k < 8 := by omega
    simp [hk, hword, hbyte, habove]
  · by_cases hword : k < 64
    · simp [hk, hword]
    · simp [hk, BitVec.getLsbD_of_ge _ k (Nat.le_of_not_lt hword)]

theorem select_secondByte (v : UInt64) : Width.w8.select true v = (secondByte v).toUInt64 := and_lowByte (v >>> 8)

theorem getLsbD_secondByte (v : UInt64) {k : Nat} (h : k < 8) :
    (secondByte v).toBitVec.getLsbD k = bit v (k + 8) := by
  have hby : (8 : UInt64).toBitVec % 64 = 8#64 := rfl
  have height : (8#64).toNat = 8 := rfl
  unfold bit secondByte
  rw [UInt64.toBitVec_toUInt8, UInt64.toBitVec_shiftRight, hby, BitVec.getLsbD_setWidth, BitVec.ushiftRight_eq',
    BitVec.getLsbD_ushiftRight, height, decide_eq_true h, Bool.true_and, Nat.add_comm]

end Word

/-- The flags of a result of one byte are told by the byte. -/
theorem Cpu.withResult_byte (c : Cpu) (v : UInt64) : c.withResult v.toUInt8.toUInt64 8 = c.withResult v 8 := by
  have hmask : Word.mask 8 = 0xFF := rfl
  have hsign : UInt64.ofNat (8 - 1) = 7 := rfl
  have hlow : (0xFF : UInt64) >>> 7 &&& 1 = 1 := rfl
  unfold Cpu.withResult
  rw [← Word.and_lowByte, hmask, hsign, UInt64.and_assoc, UInt64.and_self, UInt64.shiftRight_and, UInt64.and_assoc,
    hlow]

/-! ## Encodings -/

/-- Operations on a byte register. -/
inductive ByteOp where
  | move (imm : UInt8) | inc | dec
deriving DecidableEq

namespace ByteOp

/-- The bytes of the operation on a register field, behind the prefixes. -/
def encode (op : ByteOp) (field : Fin 8) : List UInt8 :=
  let low := UInt8.ofNat field
  match op with
  | move imm => [0xB0 ||| low, imm]
  | inc => [0xFE, 0xC0 ||| low]
  | dec => [0xFE, 0xC8 ||| low]

/-- The operation on a register operand. -/
def on (op : ByteOp) (r : Reg) : Op :=
  match op with
  | move imm => .moveImm r imm.toUInt64
  | inc => .inc r
  | dec => .dec r

/-- What becomes of the byte. -/
def apply (op : ByteOp) (b : UInt8) : UInt8 :=
  match op with
  | move imm => imm
  | inc => b + 1
  | dec => b - 1

/-- What becomes of the flags, with the byte that was written. -/
def flags (op : ByteOp) (c : Cpu) (b : UInt8) : UInt64 :=
  match op with
  | move _ => c.flags
  | inc | dec => (c.withResult b.toUInt64 8).flags

@[simp] theorem length_encode (op : ByteOp) (field : Fin 8) : (op.encode field).length = 2 := by cases op <;> rfl

end ByteOp

/-- The bytes begin with a byte operation on a register field. Legacy prefixes may stand in front of it, but all of it
has at most fifteen bytes. -/
def Encodes (bytes : List UInt8) (op : ByteOp) (field : Fin 8) : Prop :=
  ∃ prefixes rest, bytes = prefixes ++ (op.encode field ++ rest) ∧ (∀ b ∈ prefixes, b ∈ legacyPrefixes) ∧
    prefixes.length + 2 ≤ maxInstrLen

open Reader

theorem Reader.cons_of_byte {bs rest : List UInt8} {b : UInt8} (h : byte bs = .ok (b, rest)) : bs = b :: rest := by
  rcases bs with _ | ⟨b, bs⟩ <;> cases h
  rfl

namespace Prefixes

theorem absorb_eq_none {p : Prefixes} {b : UInt8} : p.absorb b = none ↔ b ∉ legacyPrefixes := by
  unfold absorb legacyPrefixes
  split_ifs <;> simp_all

theorem rex_absorb {p p' : Prefixes} {b : UInt8} (h : p.absorb b = some p') : p'.rex = p.rex := by
  unfold absorb at h
  split_ifs at h <;> cases h <;> rfl

/-- Legacy prefixes are read to the last of them, and the REX byte is none of them. -/
theorem read_of_legacy {prefixes : List UInt8} (h : ∀ b ∈ prefixes, b ∈ legacyPrefixes) {b : UInt8}
    (hb : b ∉ legacyPrefixes) (p : Prefixes) :
    ∃ p', p'.rex = p.rex ∧ ∀ rest, p.read (prefixes ++ b :: rest) = .ok ((p', b), rest) := by
  refine ⟨p.absorbAll prefixes, rfl, fun rest => ?_⟩
  rw [read_append h]
  simp only [Prefixes.read, absorb_eq_none.2 hb]

/-- What is read in front of an opcode are legacy prefixes. -/
theorem legacy_of_read {p p' : Prefixes} {bs rest : List UInt8} {b : UInt8} (h : p.read bs = .ok ((p', b), rest)) :
    ∃ prefixes, bs = prefixes ++ b :: rest ∧ (∀ b ∈ prefixes, b ∈ legacyPrefixes) ∧ p'.rex = p.rex := by
  induction bs generalizing p with
  | nil => cases h
  | cons c cs ih =>
    unfold Prefixes.read at h
    cases hp : p.absorb c with
    | none =>
      simp only [hp] at h
      cases h
      exact ⟨[], rfl, by simp, rfl⟩
    | some p₁ =>
      simp only [hp] at h
      obtain ⟨prefixes, rfl, hprefixes, hrex⟩ := ih h
      refine ⟨c :: prefixes, rfl, ?_, hrex.trans (rex_absorb hp)⟩
      rintro b (_ | ⟨_, hb⟩)
      · by_contra hb
        rw [absorb_eq_none.2 hb] at hp
        cases hp
      · exact hprefixes b hb

end Prefixes

/-- The register that an operation names. -/
def Op.operand? : Op → Option Reg
  | .inc r | .dec r | .moveImm r _ => some r
  | _ => none

@[simp] theorem ByteOp.operand?_on (op : ByteOp) (r : Reg) : (op.on r).operand? = some r := by cases op <;> rfl

/-- High bytes are named without a REX byte only, and only by the forms that move a byte or step one. -/
theorem Form.high_of_read {code : CodeSize} {p : Prefixes} {form : Form} {bs rest : List UInt8} {j : Instr} {r : Reg}
    (h : form.read code p bs = .ok (j, rest)) (hr : j.op.operand? = some r) (hhigh : r.high = true) :
    p.rex = none ∧ ∃ b, bs = b :: rest ∧ ((∃ low, form = .moveImm true low ∧ 4 ≤ low &&& 7) ∨
      form = .stepRM true ∧ b >>> 6 = 3 ∧ (b >>> 3 &&& 7 = 0 ∨ b >>> 3 &&& 7 = 1) ∧ 4 ≤ b &&& 7) := by
  have hbyteReg : ∀ {low : UInt8}, (p.byteReg low).high = true → p.rex = none ∧ 4 ≤ low &&& 7 := by
    intro low hlow
    simpa [Prefixes.byteReg] using hlow
  cases form with
  | nop => cases h; cases hr
  | halt => cases h; cases hr
  | breakpoint => cases h; cases hr
  | escape =>
    obtain ⟨b, mid, -, h⟩ := bind_ok h
    split at h
    · cases h; cases hr
    · cases h
  | step down low =>
    cases h
    cases down <;> cases hr <;> cases hhigh
  | stepRM narrow =>
    obtain ⟨b, mid, hb, h⟩ := bind_ok h
    split at h
    case isTrue => cases h
    case isFalse hmod =>
      rw [ne_eq, not_not] at hmod
      cases narrow with
      | false =>
        dsimp only at h
        generalize b >>> 3 &&& 7 = n at h
        split at h <;> cases h <;> cases hr <;> cases hhigh
      | true =>
        have hbs : bs = b :: mid := cons_of_byte hb
        dsimp only at h
        generalize hn : b >>> 3 &&& 7 = n at h ⊢
        split at h
        case h_1 =>
          cases h; cases hr
          obtain ⟨hrex, hlow⟩ := hbyteReg hhigh
          exact ⟨hrex, b, hbs, .inr ⟨rfl, hmod, .inl hn, hlow⟩⟩
        case h_2 =>
          cases h; cases hr
          obtain ⟨hrex, hlow⟩ := hbyteReg hhigh
          exact ⟨hrex, b, hbs, .inr ⟨rfl, hmod, .inr hn, hlow⟩⟩
        case h_3 => cases h
  | moveImm narrow low =>
    cases narrow with
    | false =>
      obtain ⟨v, mid, -, h⟩ := bind_ok h
      cases h; cases hr; cases hhigh
    | true =>
      rcases bs with _ | ⟨b, bs⟩
      · cases h
      · cases h; cases hr
        obtain ⟨hrex, hlow⟩ := hbyteReg hhigh
        exact ⟨hrex, b, rfl, .inl ⟨low, rfl, hlow⟩⟩
  | storeAl =>
    obtain ⟨b, mid, -, h⟩ := bind_ok h
    cases h; cases hr
  | storeImm =>
    obtain ⟨b, mid, -, h⟩ := bind_ok h
    split at h
    · cases h
    · obtain ⟨disp, mid, -, h⟩ := bind_ok h
      obtain ⟨b, mid, -, h⟩ := bind_ok h
      cases h; cases hr
  | compareAl =>
    obtain ⟨b, mid, -, h⟩ := bind_ok h
    cases h; cases hr
  | jumpShort cond =>
    obtain ⟨b, mid, -, h⟩ := bind_ok h
    cases h; cases hr
  | jumpNear =>
    obtain ⟨b, mid, -, h⟩ := bind_ok h
    cases h; cases hr
  | string op narrow => cases h; cases hr

/-- Some register operand of the instruction is a high byte. -/
def Instr.HasHighByte (i : Instr) : Prop := ∃ r, i.op.operand? = some r ∧ r.high = true

/-- Opcodes behind legacy prefixes, and without a REX byte, are read by their form. -/
theorem readInstr_of_legacy (code : CodeSize) {prefixes : List UInt8} (h : ∀ b ∈ prefixes, b ∈ legacyPrefixes)
    {b : UInt8} (hb : b ∉ legacyPrefixes) (hrex : b &&& 0xF0 ≠ 0x40) {form : Form}
    (hform : Form.of? code b = some form) :
    ∃ p : Prefixes, p.rex = none ∧ ∀ rest, readInstr code (prefixes ++ b :: rest) = form.read code p rest := by
  obtain ⟨p, hp, hread⟩ := Prefixes.read_of_legacy h hb {}
  refine ⟨p, hp, fun rest => ?_⟩
  unfold readInstr
  rw [bind_of_ok (hread rest)]
  dsimp only
  rw [if_neg fun hand => hrex hand.2,
    bind_of_ok (show (Pure.pure (p, b) : Reader (Prefixes × UInt8)) rest = .ok ((p, b), rest) from rfl)]
  dsimp only
  rw [hform]

/-- The register that a field names without a REX byte. -/
def highReg (field : Fin 8) : Reg := ⟨field.castLE (by decide), true⟩

theorem Prefixes.byteReg_of_field {p : Prefixes} (hp : p.rex = none) {field : Fin 8} (hfield : 4 ≤ field) {low : UInt8}
    (hlow : low &&& 7 = UInt8.ofNat field) : p.byteReg low = highReg field := by
  have hall : ∀ field : Fin 8, 4 ≤ field →
      ({ Reg.ofIndex (UInt8.ofNat field).toNat with high := 4 ≤ UInt8.ofNat field } : Reg) = highReg field := by
    decide +kernel
  rw [← hall field hfield]
  simp [byteReg, reg, rexB, hp, hlow]

/-- Steps of a byte register with its number in a ModRM byte. -/
theorem readInstr_stepRM (code : CodeSize) {prefixes : List UInt8} (h : ∀ b ∈ prefixes, b ∈ legacyPrefixes)
    {field : Fin 8} (hfield : 4 ≤ field) {b : UInt8} (hmod : b >>> 6 = 3) (hlow : b &&& 7 = UInt8.ofNat field) {op : Op}
    (hop : b >>> 3 &&& 7 = 0 ∧ op = .inc (highReg field) ∨ b >>> 3 &&& 7 = 1 ∧ op = .dec (highReg field)) :
    ∃ j : Instr, j.op = op ∧ j.width = .w8 ∧
      ∀ rest, readInstr code (prefixes ++ 0xFE :: b :: rest) = .ok (j, rest) := by
  obtain ⟨p, hp, hread⟩ := readInstr_of_legacy code h (b := 0xFE) (by decide) (by decide) rfl
  refine ⟨⟨op, 0, .w8, p.addrSize code, .once, false⟩, rfl, rfl, fun rest => ?_⟩
  rw [hread]
  show (if b >>> 6 ≠ 3 then invalid else _ : Reader Instr) rest = _
  rw [if_neg (not_not.2 hmod)]
  rw [← Prefixes.byteReg_of_field hp hfield hlow] at hop
  dsimp only
  rcases hop with ⟨hn, rfl⟩ | ⟨hn, rfl⟩
  · rw [hn]
    rfl
  · rw [hn]
    rfl

/-- A byte operation on a field from 4 on, behind legacy prefixes, is read in code of any size. -/
theorem readInstr_encode (code : CodeSize) {prefixes : List UInt8} (h : ∀ b ∈ prefixes, b ∈ legacyPrefixes)
    (op : ByteOp) {field : Fin 8} (hfield : 4 ≤ field) :
    ∃ j : Instr, j.op = op.on (highReg field) ∧ j.width = .w8 ∧
      ∀ rest, readInstr code (prefixes ++ (op.encode field ++ rest)) = .ok (j, rest) := by
  cases op with
  | move imm =>
    have hbytes : ∀ field : Fin 8, (0xB0 ||| UInt8.ofNat field) ∉ legacyPrefixes ∧
        (0xB0 ||| UInt8.ofNat field) &&& 0xF0 ≠ 0x40 ∧ UInt8.ofNat field &&& 7 = UInt8.ofNat field := by decide +kernel
    have hform : Form.of? code (0xB0 ||| UInt8.ofNat field) = some (.moveImm true (UInt8.ofNat field)) := by
      clear hfield
      cases code <;> revert field <;> decide +kernel
    obtain ⟨hb, hrex, hlow⟩ := hbytes field
    obtain ⟨p, hp, hread⟩ := readInstr_of_legacy code h hb hrex hform
    have himm : Word.ofBytes [imm] = imm.toUInt64 := by simp [Word.ofBytes]
    refine ⟨⟨.moveImm (highReg field) imm.toUInt64, 0, .w8, p.addrSize code, .once, false⟩, rfl, rfl, fun rest => ?_⟩
    show readInstr code (prefixes ++ _ :: imm :: rest) = _
    rw [hread, ← himm, ← Prefixes.byteReg_of_field hp hfield hlow]
    rfl
  | inc =>
    have hmodrm : ∀ field : Fin 8, (0xC0 ||| UInt8.ofNat field) >>> 6 = 3 ∧
        (0xC0 ||| UInt8.ofNat field) >>> 3 &&& 7 = 0 ∧ (0xC0 ||| UInt8.ofNat field) &&& 7 = UInt8.ofNat field := by
      decide +kernel
    obtain ⟨hmod, hn, hlow⟩ := hmodrm field
    exact readInstr_stepRM code h hfield hmod hlow (.inl ⟨hn, rfl⟩)
  | dec =>
    have hmodrm : ∀ field : Fin 8, (0xC8 ||| UInt8.ofNat field) >>> 6 = 3 ∧
        (0xC8 ||| UInt8.ofNat field) >>> 3 &&& 7 = 1 ∧ (0xC8 ||| UInt8.ofNat field) &&& 7 = UInt8.ofNat field := by
      decide +kernel
    obtain ⟨hmod, hn, hlow⟩ := hmodrm field
    exact readInstr_stepRM code h hfield hmod hlow (.inr ⟨hn, rfl⟩)

/-- The register field in the low bits of a byte. -/
def lowField (b : UInt8) : Fin 8 := .ofNat 8 b.toNat

theorem four_le_lowField {b : UInt8} (h : 4 ≤ b &&& 7) : 4 ≤ lowField b := by
  revert b
  decide +kernel

/-- The form moves a byte into a register. -/
def Form.movesByte : Form → Bool
  | .moveImm true _ => true
  | _ => false

theorem Form.of?_eq_moveByte {code : CodeSize} {b low : UInt8} (h : Form.of? code b = some (.moveImm true low)) :
    b = 0xB0 ||| UInt8.ofNat (lowField b) ∧ low = b &&& 7 := by
  have hall : ∀ b, if b = 0xB0 ||| UInt8.ofNat (lowField b) then Form.of? code b = some (.moveImm true (b &&& 7))
      else (Form.of? code b).any Form.movesByte = false := by
    cases code <;> decide +kernel
  have hb := hall b
  rw [h] at hb
  split at hb
  case isTrue hopcode =>
    cases hb
    exact ⟨hopcode, rfl⟩
  case isFalse => cases hb

theorem Form.of?_eq_stepByte {code : CodeSize} {b : UInt8} (h : Form.of? code b = some (.stepRM true)) : b = 0xFE := by
  have hall : ∀ b, b ≠ 0xFE → Form.of? code b ≠ some (.stepRM true) := by
    cases code <;> decide +kernel
  by_contra hb
  exact hall b hb h

/-- The ModRM byte of a step is told by the operation and the field. -/
theorem modrm_eq {b : UInt8} (hmod : b >>> 6 = 3) :
    (b >>> 3 &&& 7 = 0 → b = 0xC0 ||| UInt8.ofNat (lowField b)) ∧
      (b >>> 3 &&& 7 = 1 → b = 0xC8 ||| UInt8.ofNat (lowField b)) := by
  revert b
  decide +kernel

/-- An instruction is what its form reads, and without a REX byte only legacy prefixes stand in front of the opcode. -/
theorem form_of_readInstr {code : CodeSize} {bs rest : List UInt8} {j : Instr}
    (h : readInstr code bs = .ok (j, rest)) : ∃ (p : Prefixes) (opcode : UInt8) (mid : List UInt8) (form : Form),
      Form.of? code opcode = some form ∧ form.read code p mid = .ok (j, rest) ∧
      (p.rex = none → ∃ prefixes, bs = prefixes ++ opcode :: mid ∧ ∀ b ∈ prefixes, b ∈ legacyPrefixes) := by
  obtain ⟨⟨p, opcode⟩, mid, hprefixes, htail⟩ := bind_ok h
  obtain ⟨prefixes, rfl, hlegacy, -⟩ := Prefixes.legacy_of_read hprefixes
  dsimp only at htail
  split at htail
  case isTrue =>
    -- the opcode stands behind a REX byte
    obtain ⟨b, mid₁, -, htail⟩ := bind_ok htail
    obtain ⟨q, mid₂, hq, htail⟩ := bind_ok htail
    cases hq
    dsimp only at htail
    cases hof : Form.of? code b with
    | none => rw [hof] at htail; cases htail
    | some form => rw [hof] at htail; exact ⟨_, b, mid₁, form, hof, htail, nofun⟩
  case isFalse =>
    obtain ⟨q, mid₁, hq, htail⟩ := bind_ok htail
    cases hq
    dsimp only at htail
    cases hof : Form.of? code opcode with
    | none => rw [hof] at htail; cases htail
    | some form => rw [hof] at htail; exact ⟨p, opcode, mid, form, hof, htail, fun _ => ⟨prefixes, rfl, hlegacy⟩⟩

/-- No other encoding names a high byte. -/
theorem encodes_of_readInstr {code : CodeSize} {bs rest : List UInt8} {j : Instr}
    (h : readInstr code bs = .ok (j, rest)) (hj : j.HasHighByte) :
    ∃ prefixes op field, bs = prefixes ++ (ByteOp.encode op field ++ rest) ∧ (∀ b ∈ prefixes, b ∈ legacyPrefixes) ∧
      4 ≤ field := by
  obtain ⟨r, hr, hhigh⟩ := hj
  obtain ⟨p, opcode, mid, form, hof, hread, hfront⟩ := form_of_readInstr h
  obtain ⟨hrex, b, rfl, ⟨low, rfl, hlow⟩ | ⟨rfl, hmod, hop, hlow⟩⟩ := Form.high_of_read hread hr hhigh
  · obtain ⟨prefixes, rfl, hlegacy⟩ := hfront hrex
    obtain ⟨hopcode, rfl⟩ := Form.of?_eq_moveByte hof
    rw [UInt8.and_assoc, UInt8.and_self] at hlow
    refine ⟨prefixes, .move b, lowField opcode, ?_, hlegacy, four_le_lowField hlow⟩
    show _ = prefixes ++ (0xB0 ||| _) :: b :: rest
    rw [← hopcode]
  · obtain ⟨prefixes, rfl, hlegacy⟩ := hfront hrex
    obtain rfl : opcode = 0xFE := Form.of?_eq_stepByte hof
    obtain ⟨hinc, hdec⟩ := modrm_eq hmod
    rcases hop with hn | hn
    · refine ⟨prefixes, .inc, lowField b, ?_, hlegacy, four_le_lowField hlow⟩
      show _ = prefixes ++ 0xFE :: (0xC0 ||| _) :: rest
      rw [← hinc hn]
    · refine ⟨prefixes, .dec, lowField b, ?_, hlegacy, four_le_lowField hlow⟩
      show _ = prefixes ++ 0xFE :: (0xC8 ||| _) :: rest
      rw [← hdec hn]

/-! ## Running -/

namespace ByteOp

/-- What is written, with what the byte was. Only the low byte of it counts. -/
def value (op : ByteOp) (b : UInt8) : UInt64 :=
  match op with
  | move imm => imm.toUInt64
  | inc => b.toUInt64 + 1
  | dec => b.toUInt64 + (0 - 1)

theorem toUInt8_value (op : ByteOp) (b : UInt8) : (op.value b).toUInt8 = op.apply b := by
  cases op with
  | move imm => simp [value, apply]
  | inc => simp [value, apply]
  | dec => simp [value, apply, UInt8.sub_eq_add_neg]

end ByteOp

/-- Whenever the instruction runs, `op` is applied to the second byte of register `n`: all other bits of the registers
stay, and of the rest only the flags change, which are those of the byte. -/
def Instr.AppliesTo (i : Instr) (op : ByteOp) (n : Fin 16) : Prop :=
  ∀ (ω : Type) (s : Socket ω) (frame : Frame) (r : Running ω),
    let b := op.apply (Word.secondByte r.cpu.regs[n])
    ∃ regs : Registers,
      Exec.eval (Exec.instr s frame i) r =
        (.ok .next, { r with cpu := { r.cpu with regs, flags := op.flags r.cpu b } }) ∧
      ∀ (m : Fin 16) (k : Nat), Word.bit regs[m] k =
        if m = n ∧ 8 ≤ k ∧ k < 16 then b.toBitVec.getLsbD (k - 8) else Word.bit r.cpu.regs[m] k

theorem Exec.eval_on {ω : Type} (s : Socket ω) (frame : Frame) {i : Instr} {op : ByteOp} {n : Fin 16}
    (hop : i.op = op.on ⟨n, true⟩) (hwidth : i.width = .w8) (r : Running ω) :
    let b := Word.secondByte r.cpu.regs[n]
    eval (instr s frame i) r = (.ok .next, { r with cpu := { r.cpu with
      regs := r.cpu.regs.set n (Word.splice 0xFF00 r.cpu.regs[n] (op.value b <<< 8))
      flags := op.flags r.cpu (op.apply b) } }) := by
  intro b
  have hread : r.cpu.read ⟨n, true⟩ .w8 = b.toUInt64 := Word.select_secondByte _
  have hstep : ∀ delta : UInt64, eval (stepReg ⟨n, true⟩ .w8 delta) r =
      (.ok (), { r with cpu := { r.cpu with
        regs := r.cpu.regs.set n (Word.splice 0xFF00 r.cpu.regs[n] ((b.toUInt64 + delta) <<< 8))
        flags := (r.cpu.withResult (b.toUInt64 + delta).toUInt8.toUInt64 8).flags } }) := by
    intro delta
    unfold stepReg
    rw [eval_modifyCpu, hread, Cpu.withResult_byte]
    rfl
  cases op with
  | move imm =>
    unfold instr
    rw [hop, hwidth]
    rfl
  | inc =>
    unfold instr
    rw [hop, hwidth]
    show eval (stepReg _ _ _ >>= _) r = _
    rw [eval_bind, hstep, ← ByteOp.toUInt8_value]
    rfl
  | dec =>
    unfold instr
    rw [hop, hwidth]
    show eval (stepReg _ _ _ >>= _) r = _
    rw [eval_bind, hstep, ← ByteOp.toUInt8_value]
    rfl

theorem Instr.appliesTo_of_on {i : Instr} {op : ByteOp} {n : Fin 16} (hop : i.op = op.on ⟨n, true⟩)
    (hwidth : i.width = .w8) : i.AppliesTo op n := by
  intro ω s frame r b
  refine ⟨_, Exec.eval_on s frame hop hwidth r, fun m k => ?_⟩
  by_cases hm : m = n
  · subst hm
    rw [show (r.cpu.regs.set m _)[m] = _ from Vector.getElem_set_self .., Word.bit_splice_secondByte,
      ByteOp.toUInt8_value]
    simp only [true_and]
    rfl
  · have hne : n.val ≠ m.val := fun h => hm (Fin.ext h.symm)
    rw [if_neg fun h => hm h.1]
    exact congrArg (Word.bit · k) (Vector.getElem_set_ne _ _ hne)

/-- Some byte is not what the operation makes of it. -/
theorem ByteOp.exists_apply_ne (op : ByteOp) : ∃ v, op.apply (Word.secondByte v) ≠ Word.secondByte v := by
  cases op with
  | move imm =>
    by_cases himm : imm = 0
    · exact ⟨0x100, by rw [himm]; decide⟩
    · exact ⟨0, himm⟩
  | inc => exact ⟨0, by decide⟩
  | dec => exact ⟨0, by decide⟩

/-- An operation is applied to one register only. -/
theorem Instr.AppliesTo.unique {i : Instr} {op : ByteOp} {n n' : Fin 16} (h : i.AppliesTo op n)
    (h' : i.AppliesTo op n') : n = n' := by
  by_contra hne
  obtain ⟨v, hv⟩ := op.exists_apply_ne
  -- all registers hold the same
  let r : Running (Board Unit Unit) :=
    ⟨{ Cpu.new .realMode with regs := .replicate 16 v }, ⟨{ ram := ⟨#[], .ofPages 0, rfl⟩ }, (), (), #[]⟩, 0, false⟩
  have hr : ∀ m : Fin 16, r.cpu.regs[m] = v := fun m => Vector.getElem_replicate ..
  let s : Socket (Board Unit Unit) := (Board.wiring .none .toCaller).socket 0
  obtain ⟨regs, heval, hbits⟩ := h _ s ⟨0, 0, 0⟩ r
  obtain ⟨regs', heval', hbits'⟩ := h' _ s ⟨0, 0, 0⟩ r
  obtain rfl : regs = regs' := by
    have := heval.symm.trans heval'
    simp only [Prod.mk.injEq, Running.mk.injEq, Cpu.mk.injEq] at this
    exact this.2.1.1
  rw [hr] at hbits hbits'
  refine hv (UInt8.toBitVec_inj.1 (BitVec.eq_of_getLsbD_eq fun k hk => ?_))
  have hk' : 8 ≤ k + 8 ∧ k + 8 < 16 := by omega
  have hn := hbits n (k + 8)
  rw [if_pos ⟨rfl, hk'⟩, hbits' n (k + 8), if_neg fun h => hne h.1, hr, Nat.add_sub_cancel] at hn
  rw [← hn, Word.getLsbD_secondByte v hk]

/-! ## Decoding -/

/-- Bytes that encode a byte operation on register field 4 to 7 without a REX byte are decoded in code of any size, and
what is decoded works on the second byte of the register with the number of the field, and on no other. No other bytes
are decoded to an instruction that names a high byte. -/
theorem decodeInstr_highByte (bytes : List UInt8) (mode : FetchMode) :
    (∀ op field, Encodes bytes op field → 4 ≤ field → ∃ i, decodeInstr bytes mode = .complete i ∧ i.HasHighByte ∧
      ∀ n, i.AppliesTo op n ↔ n.val = field.val) ∧
    (∀ i, decodeInstr bytes mode = .complete i → i.HasHighByte → ∃ op field, Encodes bytes op field ∧ 4 ≤ field) := by
  constructor
  · rintro op field ⟨prefixes, rest, rfl, hlegacy, hlen⟩ hfield
    obtain ⟨j, hop, hwidth, hread⟩ := readInstr_encode mode.code hlegacy op hfield
    rw [← List.append_assoc]
    generalize hused : prefixes ++ op.encode field = used
    have hfits : used.length ≤ maxInstrLen := by
      rw [← hused, List.length_append, op.length_encode]
      exact hlen
    have htake : (used ++ rest).take maxInstrLen = used ++ rest.take (maxInstrLen - used.length) := by
      rw [List.take_append, List.take_of_length_le hfits]
    have hj := hread (rest.take (maxInstrLen - used.length))
    rw [← List.append_assoc, hused] at hj
    refine ⟨_, decodeInstr_of_readInstr hj htake, ⟨highReg field, ?_, rfl⟩, fun n => ?_⟩
    · rw [hop, op.operand?_on]
    · have happlies := Instr.appliesTo_of_on (i := { j with len := used.length }) hop hwidth
      constructor
      · intro hn
        rw [hn.unique happlies]
        rfl
      · intro hn
        rwa [show n = field.castLE (by decide) from Fin.ext hn]
  · intro i h hhigh
    obtain ⟨j, rest, hi, -, -, hread⟩ := decodeInstr_eq_complete h
    have hj : j.HasHighByte := by
      rw [hi] at hhigh
      exact hhigh
    obtain ⟨prefixes, op, field, hbytes, hlegacy, hfield⟩ := encodes_of_readInstr hread hj
    refine ⟨op, field, ⟨prefixes, rest ++ bytes.drop maxInstrLen, ?_, hlegacy, ?_⟩, hfield⟩
    · rw [← List.append_assoc _ rest, ← List.append_assoc, ← hbytes, List.take_append_drop]
    · have hlen := congrArg List.length hbytes
      rw [List.length_take, List.length_append, List.length_append, op.length_encode] at hlen
      omega

/-- A move of an immediate byte to field 4 in 32-bit code writes bits 8 to 15 of register 4, which is not register 0. -/
theorem decodeInstr_highByte_move :
    let i : Instr := { op := .moveImm (highReg 4) 0x7F, len := 2, width := .w8 }
    decodeInstr [0xB4, 0x7F] ⟨.b32, 0⟩ = .complete i ∧ i.AppliesTo (.move 0x7F) 4 ∧ ¬i.AppliesTo (.move 0x7F) 0 := by
  intro i
  have hencodes : Encodes [0xB4, 0x7F] (.move 0x7F) 4 := ⟨[], [], by decide, by simp, by decide⟩
  obtain ⟨i', hi', -, happlies⟩ := (decodeInstr_highByte [0xB4, 0x7F] ⟨.b32, 0⟩).1 _ _ hencodes (by decide)
  have hi : decodeInstr [0xB4, 0x7F] ⟨.b32, 0⟩ = .complete i := by decide +kernel
  obtain rfl : i' = i := by
    have := hi'.symm.trans hi
    cases this
    rfl
  refine ⟨hi, (happlies 4).2 rfl, fun h => ?_⟩
  have := (happlies 0).1 h
  exact absurd this (by decide)

end TraceCore
