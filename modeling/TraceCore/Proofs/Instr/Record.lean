/-
Instructions in numbers. The types of an instruction keep its widths and register numbers in range. A raw instruction
has plain numbers in their place, and is well-formed if they are ones that code of a size can mean. What is decoded is
well-formed, and what is well-formed is some instruction.
-/
import TraceCore.Proofs.Exec.Unmapped
import TraceCore.Proofs.Instr.HighByte

namespace TraceCore

/-! ## Raw instructions -/

/-- A register operand by its number. -/
structure RawReg where
  index : Nat
  high : Bool := false

/-- Operation and operands. -/
inductive RawOp where
  | nop
  | halt
  | breakpoint
  | undefined
  | inc (r : RawReg)
  | dec (r : RawReg)
  | moveImm (r : RawReg) (imm : UInt64)
  | storeImm (disp : UInt64) (imm : UInt8) (relative : Bool)
  | storeAl (offset : UInt64)
  | compareAl (imm : UInt8)
  | jump (cond : Cond) (rel : Int64)
  /-- On elements of so many bytes. -/
  | string (op : StringOp) (width : Nat)

/-- What there is to run of an instruction. -/
structure RawInstr where
  op : RawOp
  /-- Bits of an operand. -/
  opBits : Nat
  addrSize : CodeSize := .b32
  rep : Repeat := .once

def Reg.raw (r : Reg) : RawReg := ⟨r.index, r.high⟩

def Op.raw : Op → RawOp
  | .nop => .nop
  | .halt => .halt
  | .breakpoint => .breakpoint
  | .undefined => .undefined
  | .inc r => .inc r.raw
  | .dec r => .dec r.raw
  | .moveImm r imm => .moveImm r.raw imm
  | .storeImm disp imm relative => .storeImm disp imm relative
  | .storeAl offset => .storeAl offset
  | .compareAl imm => .compareAl imm
  | .jump cond rel => .jump cond rel
  | .string op w => .string op w.bytes

def Instr.raw (i : Instr) : RawInstr := ⟨i.op.raw, i.width.bits, i.addrSize, i.rep⟩

/-! ## Well-formedness -/

/-- Code of the size can name the register for an operand of so many bits. -/
structure RawReg.Fits (code : CodeSize) (opBits : Nat) (r : RawReg) : Prop where
  index : r.index < 16
  /-- The upper eight registers are those of 64-bit code. -/
  lower : code ≠ .b64 → r.index < 8
  high : r.high = true → opBits = 8 ∧ 4 ≤ r.index ∧ r.index ≤ 7

/-- The operands fit an operand size and an address size. -/
def RawOp.Fits (code : CodeSize) (opBits addrBits : Nat) : RawOp → Prop
  | .nop | .halt | .breakpoint | .undefined | .jump _ _ => True
  | .inc r | .dec r => r.Fits code opBits
  | .moveImm r imm => r.Fits code opBits ∧ imm.toNat < 2 ^ opBits
  | .storeImm _ imm _ | .compareAl imm => imm.toNat < 2 ^ opBits
  | .storeAl offset => offset.toNat < 2 ^ addrBits
  | .string _ width => width = opBits / 8

/-- The operation can be repeated so. -/
def Repeat.Suits : Repeat → RawOp → Prop
  | .once, _ => True
  | .rep, .string op _ => op = .move ∨ op = .store
  | .repe, .string op _ | .repne, .string op _ => op = .compare ∨ op = .scan
  | _, _ => False

/-- Code of the size can mean the instruction. -/
structure RawInstr.WellFormed (code : CodeSize) (i : RawInstr) : Prop where
  opBits : i.opBits = 8 ∨ i.opBits = 16 ∨ i.opBits = 32 ∨ i.opBits = 64
  wide : i.opBits = 64 → code = .b64
  wideAddr : i.addrSize = .b64 → code = .b64
  narrowAddr : i.addrSize = .b16 → code ≠ .b64
  operands : i.op.Fits code i.opBits i.addrSize.bits
  repeats : i.rep.Suits i.op

/-! ## Operands -/

theorem Width.bytes_le (w : Width) : w.bytes ≤ 8 := by cases w <;> decide

theorem Width.bits_cases (w : Width) : w.bits = 8 ∨ w.bits = 16 ∨ w.bits = 32 ∨ w.bits = 64 := by
  cases w <;> decide

theorem Width.eq_of_bits {w w' : Width} (h : w.bits = w'.bits) : w = w' := by
  cases w <;> cases w' <;> first | rfl | cases h

theorem Width.bytes_eq (w : Width) : w.bytes = w.bits / 8 := by cases w <;> rfl

namespace Prefixes

variable {code : CodeSize} {p : Prefixes}

theorem code_of_width (h : p.width code = .w64) : code = .b64 := by
  cases code with
  | b16 => cases hsize : p.operandSize <;> simp [width, hsize] at h
  | b32 => cases hsize : p.operandSize <;> simp [width, hsize] at h
  | b64 => rfl

theorem code_of_addrSize_wide (h : p.addrSize code = .b64) : code = .b64 := by
  cases code with
  | b16 => cases hsize : p.addressSize <;> simp [addrSize, hsize] at h
  | b32 => cases hsize : p.addressSize <;> simp [addrSize, hsize] at h
  | b64 => rfl

theorem code_of_addrSize_narrow (h : p.addrSize code = .b16) : code ≠ .b64 := by
  rintro rfl
  cases hsize : p.addressSize <;> simp [addrSize, hsize] at h

theorem field_lt (low : UInt8) : (low &&& 7).toNat < 8 := by
  rw [UInt8.toNat_and]
  exact Nat.and_lt_two_pow (n := 3) _ (by decide)

/-- Only a REX byte leads to the upper registers. -/
theorem index_reg (p : Prefixes) (low : UInt8) :
    ((p.reg low).index : Nat) = (low &&& 7).toNat + if p.rexB then 8 else 0 := by
  have hlow := field_lt low
  refine Nat.mod_eq_of_lt ?_
  split <;> omega

theorem rexB_of_none (h : p.rex = none) : p.rexB = false := by
  unfold rexB
  rw [h]
  rfl

theorem lower_reg (hrex : code ≠ .b64 → p.rex = none) (low : UInt8) (h : code ≠ .b64) :
    ((p.reg low).index : Nat) < 8 := by
  rw [index_reg, rexB_of_none (hrex h)]
  exact field_lt low

theorem fits_reg (hrex : code ≠ .b64 → p.rex = none) (low : UInt8) (opBits : Nat) :
    (p.reg low).raw.Fits code opBits where
  index := (p.reg low).index.isLt
  lower := lower_reg hrex low
  high := nofun

theorem fits_byteReg (hrex : code ≠ .b64 → p.rex = none) (low : UInt8) : (p.byteReg low).raw.Fits code 8 where
  index := (p.reg low).index.isLt
  lower := lower_reg hrex low
  high h := by
    have hhigh : p.rex = none ∧ 4 ≤ low &&& 7 := by simpa [Reg.raw, byteReg] using h
    have hindex : ((p.reg low).index : Nat) = (low &&& 7).toNat := by
      rw [index_reg, rexB_of_none hhigh.1]
      rfl
    have hlow := field_lt low
    have hfour : 4 ≤ (low &&& 7).toNat := UInt8.le_iff_toNat_le.1 hhigh.2
    refine ⟨rfl, ?_, ?_⟩
    · show 4 ≤ ((p.reg low).index : Nat)
      omega
    · show ((p.reg low).index : Nat) ≤ 7
      omega

theorem suits_repetition (p : Prefixes) (op : StringOp) (width : Nat) :
    (p.repetition op).Suits (.string op width) := by
  have hplain : (if p.repeatByte.isSome then Repeat.rep else .once).Suits (.string op width) ↔
      (p.repeatByte.isSome → op = .move ∨ op = .store) := by
    split <;> simp_all [Repeat.Suits]
  cases op with
  | move => exact hplain.2 fun _ => .inl rfl
  | store => exact hplain.2 fun _ => .inr rfl
  | compare =>
    unfold repetition
    dsimp only
    split
    · trivial
    · exact .inl rfl
    · exact .inl rfl
  | scan =>
    unfold repetition
    dsimp only
    split
    · trivial
    · exact .inr rfl
    · exact .inr rfl

/-- Behind the prefixes the operands are all that is left to look at. -/
theorem wellFormed (p : Prefixes) (code : CodeSize) {i : Instr} (hwidth : i.width = .w8 ∨ i.width = p.width code)
    (haddr : i.addrSize = p.addrSize code) (hop : i.op.raw.Fits code i.width.bits i.addrSize.bits)
    (hrep : i.rep.Suits i.op.raw) : i.raw.WellFormed code where
  opBits := i.width.bits_cases
  wide h := by
    have hw : i.width = .w64 := Width.eq_of_bits h
    rw [hw] at hwidth
    exact code_of_width (hwidth.resolve_left nofun).symm
  wideAddr h := code_of_addrSize_wide (haddr.symm.trans h)
  narrowAddr h := code_of_addrSize_narrow (haddr.symm.trans h)
  operands := hop
  repeats := hrep

end Prefixes

/-! ## Types -/

theorem RawReg.Fits.exists_raw {code : CodeSize} {opBits : Nat} {r : RawReg} (h : r.Fits code opBits) :
    ∃ q : Reg, q.raw = r := ⟨⟨⟨r.index, h.index⟩, r.high⟩, rfl⟩

theorem RawOp.Fits.exists_raw {code : CodeSize} {w : Width} {addrBits : Nat} {raw : RawOp}
    (h : raw.Fits code w.bits addrBits) : ∃ op : Op, op.raw = raw := by
  cases raw with
  | nop => exact ⟨.nop, rfl⟩
  | halt => exact ⟨.halt, rfl⟩
  | breakpoint => exact ⟨.breakpoint, rfl⟩
  | undefined => exact ⟨.undefined, rfl⟩
  | inc r =>
    obtain ⟨q, rfl⟩ := RawReg.Fits.exists_raw h
    exact ⟨.inc q, rfl⟩
  | dec r =>
    obtain ⟨q, rfl⟩ := RawReg.Fits.exists_raw h
    exact ⟨.dec q, rfl⟩
  | moveImm r imm =>
    obtain ⟨q, rfl⟩ := RawReg.Fits.exists_raw h.1
    exact ⟨.moveImm q imm, rfl⟩
  | storeImm disp imm relative => exact ⟨.storeImm disp imm relative, rfl⟩
  | storeAl offset => exact ⟨.storeAl offset, rfl⟩
  | compareAl imm => exact ⟨.compareAl imm, rfl⟩
  | jump cond rel => exact ⟨.jump cond rel, rfl⟩
  | string op width => exact ⟨.string op w, congrArg (RawOp.string op) (w.bytes_eq.trans h.symm)⟩

/-- What is well-formed is the raw form of some instruction. -/
theorem RawInstr.WellFormed.exists_raw {code : CodeSize} {raw : RawInstr} (h : raw.WellFormed code) :
    ∃ i : Instr, i.raw = raw := by
  obtain ⟨w, hw⟩ : ∃ w : Width, w.bits = raw.opBits := by
    rcases h.opBits with hbits | hbits | hbits | hbits
    · exact ⟨.w8, hbits.symm⟩
    · exact ⟨.w16, hbits.symm⟩
    · exact ⟨.w32, hbits.symm⟩
    · exact ⟨.w64, hbits.symm⟩
  obtain ⟨op, hop⟩ := RawOp.Fits.exists_raw (hw ▸ h.operands)
  exact ⟨⟨op, 0, w, raw.addrSize, raw.rep, false⟩, by unfold Instr.raw; rw [hop, hw]⟩

/-! ## Decoding -/

open Reader

theorem Reader.length_bytes (n : Nat) : (bytes n).Yields fun bs => bs.length = n := by
  induction n with
  | zero => exact Yields.pure rfl
  | succ n ih => exact Yields.bind fun b => ih.seq fun bs hbs => Yields.pure (by rw [List.length_cons, hbs])

/-- A number of a few bytes fits them. -/
theorem Reader.number_lt {n : Nat} (hn : n ≤ 8) : (number n).Yields fun v => v.toNat < 2 ^ (8 * n) :=
  (length_bytes n).seq fun bs hbs => Yields.pure (by rw [← hbs]; exact Word.ofBytes_lt (by rw [hbs]; exact hn))

theorem Form.wellFormed_read {code : CodeSize} {p : Prefixes} (hrex : code ≠ .b64 → p.rex = none) (form : Form) :
    (form.read code p).Yields fun i => i.raw.WellFormed code := by
  cases form with
  | nop => exact Yields.pure (p.wellFormed code (.inr rfl) rfl trivial trivial)
  | halt => exact Yields.pure (p.wellFormed code (.inr rfl) rfl trivial trivial)
  | breakpoint => exact Yields.pure (p.wellFormed code (.inr rfl) rfl trivial trivial)
  | escape =>
    refine Yields.bind fun _ => Yields.ite (Yields.pure ?_) Yields.invalid
    exact p.wellFormed code (.inr rfl) rfl trivial trivial
  | step down low =>
    refine Yields.pure (p.wellFormed code (.inr rfl) rfl ?_ trivial)
    cases down <;> exact Prefixes.fits_reg hrex low _
  | stepRM narrow =>
    refine Yields.bind fun modrm => Yields.ite Yields.invalid ?_
    -- both operations take the register alike
    have hstep : ∀ op : RawReg → RawOp, (∀ r bits addr, (op r).Fits code bits addr = r.Fits code bits) →
        (op (if narrow then p.byteReg modrm else p.reg modrm).raw).Fits code
          (if narrow then Width.w8 else p.width code).bits (p.addrSize code).bits := by
      intro op hop
      rw [hop]
      cases narrow with
      | false => exact Prefixes.fits_reg hrex modrm _
      | true => exact Prefixes.fits_byteReg hrex modrm
    cases narrow with
    | false =>
      dsimp only
      split
      · exact Yields.pure (p.wellFormed code (.inr rfl) rfl (hstep .inc fun _ _ _ => rfl) trivial)
      · exact Yields.pure (p.wellFormed code (.inr rfl) rfl (hstep .dec fun _ _ _ => rfl) trivial)
      · exact Yields.invalid
    | true =>
      dsimp only
      split
      · exact Yields.pure (p.wellFormed code (.inl rfl) rfl (hstep .inc fun _ _ _ => rfl) trivial)
      · exact Yields.pure (p.wellFormed code (.inl rfl) rfl (hstep .dec fun _ _ _ => rfl) trivial)
      · exact Yields.invalid
  | moveImm narrow low =>
    cases narrow with
    | false =>
      refine (number_lt (p.width code).bytes_le).seq fun v hv => Yields.pure ?_
      exact p.wellFormed code (.inr rfl) rfl ⟨Prefixes.fits_reg hrex low _, hv⟩ trivial
    | true =>
      refine (number_lt Width.w8.bytes_le).seq fun v hv => Yields.pure ?_
      exact p.wellFormed code (.inl rfl) rfl ⟨Prefixes.fits_byteReg hrex low, hv⟩ trivial
  | storeAl =>
    refine (number_lt (p.addrSize code).width.bytes_le).seq fun v hv => Yields.pure ?_
    exact p.wellFormed code (.inl rfl) rfl hv trivial
  | storeImm =>
    refine Yields.bind fun modrm => Yields.ite Yields.invalid ?_
    refine Yields.bind fun disp => Yields.bind fun imm => Yields.pure ?_
    exact p.wellFormed code (.inl rfl) rfl imm.toNat_lt trivial
  | compareAl =>
    refine Yields.bind fun imm => Yields.pure ?_
    exact p.wellFormed code (.inl rfl) rfl imm.toNat_lt trivial
  | jumpShort cond =>
    exact Yields.bind fun rel => Yields.pure (p.wellFormed code (.inr rfl) rfl trivial trivial)
  | jumpNear =>
    exact Yields.bind fun rel => Yields.pure (p.wellFormed code (.inr rfl) rfl trivial trivial)
  | string op narrow =>
    cases narrow with
    | false => exact Yields.pure (p.wellFormed code (.inr rfl) rfl (Width.bytes_eq _) (p.suits_repetition op _))
    | true => exact Yields.pure (p.wellFormed code (.inl rfl) rfl (Width.bytes_eq _) (p.suits_repetition op _))

theorem wellFormed_readInstr (code : CodeSize) : (readInstr code).Yields fun i => i.raw.WellFormed code := by
  have hplain : (Prefixes.read {}).Yields fun q => q.1.rex = none := by
    rintro bs ⟨p, b⟩ rest h
    obtain ⟨-, -, -, hrex⟩ := Prefixes.legacy_of_read h
    exact hrex
  -- a REX byte is looked for in 64-bit code only
  let Plain : Prefixes × UInt8 → Prop := fun q => code ≠ .b64 → q.1.rex = none
  have htail := fun q (hq : Plain q) => of_form (P := Yields fun i : Instr => i.raw.WellFormed code) code
    Yields.invalid q (Form.wellFormed_read hq)
  unfold readInstr
  refine hplain.seq ?_
  rintro ⟨p, opcode⟩ hp
  dsimp only
  split
  case isTrue h => exact Yields.bind fun b => (Yields.pure (P := Plain) fun hcode => absurd h.1 hcode).seq htail
  case isFalse => exact (Yields.pure (P := Plain) fun _ => hp).seq htail

end TraceCore
