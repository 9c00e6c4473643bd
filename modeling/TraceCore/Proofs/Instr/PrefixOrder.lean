/-
Legacy prefixes say what they say in any order. Of a run of them only three things matter: whether there is an operand
size prefix, whether there is an address size prefix, and which repeat prefix comes last. Two runs of one length that
agree on these make the same of what follows, be it an instruction, a refusal or too few bytes.
-/
import TraceCore.Proofs.Instr.Prefix

namespace TraceCore

/-- Segment overrides, operand and address size, lock and repeat prefixes. -/
def legacyPrefixes : List UInt8 := [0x66, 0x67, 0xF2, 0xF3, 0x26, 0x2E, 0x36, 0x3E, 0x64, 0x65, 0xF0]

/-- The repeat prefix that a byte is. -/
def RepeatByte.of? (b : UInt8) : Option RepeatByte :=
  if b = 0xF2 then some .f2 else if b = 0xF3 then some .f3 else none

/-- The last repeat prefix of a run of bytes. -/
def lastRepeat (bs : List UInt8) : Option RepeatByte := bs.reverse.findSome? RepeatByte.of?

@[simp] theorem lastRepeat_nil : lastRepeat [] = none := rfl

@[simp] theorem lastRepeat_cons (b : UInt8) (bs : List UInt8) :
    lastRepeat (b :: bs) = (lastRepeat bs).or (RepeatByte.of? b) := by
  simp [lastRepeat, List.findSome?_append]

namespace Prefixes

/-- The prefixes with a run of further ones. -/
def absorbAll (p : Prefixes) (bs : List UInt8) : Prefixes :=
  { p with
    operandSize := p.operandSize || bs.contains 0x66
    addressSize := p.addressSize || bs.contains 0x67
    repeatByte := (lastRepeat bs).or p.repeatByte }

theorem absorb_of_legacy {b : UInt8} (hb : b ∈ legacyPrefixes) (p : Prefixes) : p.absorb b = some (p.absorbAll [b]) := by
  simp only [legacyPrefixes, List.mem_cons, List.not_mem_nil, or_false] at hb
  rcases hb with rfl | rfl | rfl | rfl | rfl | rfl | rfl | rfl | rfl | rfl | rfl <;>
    simp [absorb, absorbAll, RepeatByte.of?]

theorem absorbAll_cons (p : Prefixes) (b : UInt8) (bs : List UInt8) :
    p.absorbAll (b :: bs) = (p.absorbAll [b]).absorbAll bs := by
  simp [absorbAll, Bool.or_assoc, Option.or_assoc]

/-- Legacy prefixes are taken in to the last of them. -/
theorem read_append {bs : List UInt8} (h : ∀ b ∈ bs, b ∈ legacyPrefixes) (p : Prefixes) (rest : List UInt8) :
    p.read (bs ++ rest) = (p.absorbAll bs).read rest := by
  induction bs generalizing p with
  | nil => simp [absorbAll]
  | cons b bs ih =>
    have hb := absorb_of_legacy (h b List.mem_cons_self) p
    rw [absorbAll_cons, ← ih fun c hc => h c (List.mem_cons_of_mem b hc)]
    show p.read (b :: (bs ++ rest)) = _
    simp only [Prefixes.read, hb]

end Prefixes

/-- Two runs of legacy prefixes that say the same, in as many bytes. -/
structure SamePrefixes (bs bs' : List UInt8) : Prop where
  legacy : ∀ b ∈ bs, b ∈ legacyPrefixes
  legacy' : ∀ b ∈ bs', b ∈ legacyPrefixes
  length : bs.length = bs'.length
  operandSize : 0x66 ∈ bs ↔ 0x66 ∈ bs'
  addressSize : 0x67 ∈ bs ↔ 0x67 ∈ bs'
  repeats : lastRepeat bs = lastRepeat bs'

variable {bs bs' : List UInt8}

theorem SamePrefixes.read_append (h : SamePrefixes bs bs') (rest : List UInt8) :
    Prefixes.read {} (bs ++ rest) = Prefixes.read {} (bs' ++ rest) := by
  rw [Prefixes.read_append h.legacy, Prefixes.read_append h.legacy']
  congr 1
  have hcontains : ∀ {b : UInt8}, (b ∈ bs ↔ b ∈ bs') → bs.contains b = bs'.contains b := by
    intro b hb
    rwa [Bool.eq_iff_iff, List.contains_iff_mem, List.contains_iff_mem]
  unfold Prefixes.absorbAll
  rw [hcontains h.operandSize, hcontains h.addressSize, h.repeats]

/-- What is read of an instruction depends on what its prefixes say. -/
theorem readInstr_congr {code : CodeSize} (h : Prefixes.read {} bs = Prefixes.read {} bs') :
    readInstr code bs = readInstr code bs' := by
  unfold readInstr
  change (Prefixes.read {} bs >>= _) = (Prefixes.read {} bs' >>= _)
  rw [h]

/-- Fifteen prefixes are too many. -/
theorem decodeInstr_of_legacy (h : ∀ b ∈ bs, b ∈ legacyPrefixes) (hlen : maxInstrLen ≤ bs.length) (rest : List UInt8)
    (mode : FetchMode) : decodeInstr (bs ++ rest) mode = .invalid := by
  have htake : (bs ++ rest).take maxInstrLen = bs.take maxInstrLen := List.take_append_of_le_length hlen
  have hread : readInstr mode.code (bs.take maxInstrLen) = .error .short := by
    refine Reader.bind_of_error ?_
    rw [← List.append_nil (bs.take maxInstrLen), Prefixes.read_append fun b hb => h b (List.mem_of_mem_take hb)]
    rfl
  unfold decodeInstr
  dsimp only
  rw [htake, show (readInstr mode.code).run (bs.take maxInstrLen) = .error .short from hread]
  dsimp only
  rw [if_pos (List.length_take_of_le hlen)]

/-- The order of legacy prefixes does not matter, nor does it which segment overrides and lock prefixes there are, and
how often a prefix stands. Two runs of one length with the same last repeat prefix, and with or without an operand size
and an address size prefix both, make the same of all bytes that follow: an instruction of the same length, a refusal,
or too few bytes. -/
theorem decodeInstr_prefixOrder (h : SamePrefixes bs bs') (rest : List UInt8) (mode : FetchMode) :
    decodeInstr (bs ++ rest) mode = decodeInstr (bs' ++ rest) mode := by
  by_cases hlen : maxInstrLen ≤ bs.length
  case pos => rw [decodeInstr_of_legacy h.legacy hlen, decodeInstr_of_legacy h.legacy' (h.length ▸ hlen)]
  case neg =>
    have htake : ∀ {cs : List UInt8}, cs.length = bs.length →
        (cs ++ rest).take maxInstrLen = cs ++ rest.take (maxInstrLen - bs.length) := by
      intro cs hcs
      rw [List.take_append, List.take_of_length_le (by omega), hcs]
    have hread : (readInstr mode.code).run (bs ++ rest.take (maxInstrLen - bs.length)) =
        (readInstr mode.code).run (bs' ++ rest.take (maxInstrLen - bs.length)) := readInstr_congr (h.read_append _)
    unfold decodeInstr
    dsimp only
    rw [htake rfl, htake h.length.symm, hread, List.length_append, List.length_append, h.length]

/-- A repeated move of 16 bits, with its prefixes in two orders and other idle prefixes among them. -/
theorem decodeInstr_prefixOrder_move :
    SamePrefixes [0xF3, 0x66, 0x36, 0x66] [0xF2, 0x2E, 0xF3, 0x66] ∧
      decodeInstr [0xF3, 0x66, 0x36, 0x66, 0xA5] ⟨.b32, 0⟩ = decodeInstr [0xF2, 0x2E, 0xF3, 0x66, 0xA5] ⟨.b32, 0⟩ ∧
      decodeInstr [0xF3, 0x66, 0x36, 0x66, 0xA5] ⟨.b32, 0⟩ =
        .complete { op := .string .move .w16, len := 5, width := .w16, rep := .rep } := by
  have hsame : SamePrefixes [0xF3, 0x66, 0x36, 0x66] [0xF2, 0x2E, 0xF3, 0x66] :=
    { legacy := by simp [legacyPrefixes]
      legacy' := by simp [legacyPrefixes]
      length := rfl
      operandSize := by decide
      addressSize := by decide
      repeats := by decide }
  exact ⟨hsame, decodeInstr_prefixOrder hsame [0xA5] ⟨.b32, 0⟩, by decide +kernel⟩

end TraceCore
