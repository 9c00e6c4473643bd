/-
Where loads and stores begin. The offset of an operand in its segment has the address size of its instruction, in
whatever way it is formed: from a displacement, as a number in the instruction, or by an index register. One is not cut
to that size: the displacement that counts from the next instruction, where an address size prefix asks for 32 bits.
-/
import TraceCore.Proofs.Instr.Record
import TraceCore.Proofs.Processor.Survey

namespace TraceCore

variable {ω α : Type}

/-- A load or a store, by where it begins. -/
structure DataAccess where
  segment : DataSegment
  offset : UInt64
  stores : Bool
deriving DecidableEq

/-- What the load or store of an operand of `len` bytes asks to have translated: first where it begins. -/
def DataAccess.asks (c : Cpu) (len : Nat) (a : DataAccess) : List Translation :=
  let linear := c.dataAddress a.segment a.offset
  if a.stores then Exec.storeAsks linear len else (pieces linear len).map (⟨·, .read⟩)

/-- Loads and stores were made one after the other, and all that was asked for was asked for by them. Only the last of
them may have asked for a part of what it needs, if it failed. -/
structure Accessed (c : Cpu) (len : Nat) (accesses : List DataAccess) (through : Bool) (asked : List Translation) :
    Prop where
  begun : asked <+: accesses.flatMap (·.asks c len)
  whole : through = true → asked = accesses.flatMap (·.asks c len)

namespace Accessed

variable {c : Cpu} {len : Nat} {through : Bool}

theorem nil : Accessed c len [] through [] := ⟨List.prefix_rfl, fun _ => rfl⟩

theorem single {a : DataAccess} {asked : List Translation} (hbegun : asked <+: a.asks c len)
    (hwhole : through = true → asked = a.asks c len) : Accessed c len [a] through asked := by
  have hone : [a].flatMap (·.asks c len) = a.asks c len := List.flatMap_singleton ..
  exact ⟨hone ▸ hbegun, fun hx => hone ▸ hwhole hx⟩

theorem append {accesses accesses' : List DataAccess} {asked asked' : List Translation}
    (h : Accessed c len accesses true asked) (h' : Accessed c len accesses' through asked') :
    Accessed c len (accesses ++ accesses') through (asked ++ asked') := by
  have hfirst := h.whole rfl
  constructor
  · rw [List.flatMap_append, hfirst]
    exact (List.prefix_append_right_inj _).2 h'.begun
  · intro hx
    rw [List.flatMap_append, hfirst, h'.whole hx]

end Accessed

namespace Exec

variable {c₀ : Cpu} {i : Instr}

/-- What was asked for was asked for by loads and stores at offsets that the instruction can form. -/
def FormsAll (c₀ : Cpu) (i : Instr) (through : Bool) (asked : List Translation) : Prop :=
  ∃ accesses, Accessed c₀ i.operandBytes accesses through asked ∧ ∀ a ∈ accesses, i.Forms a.segment a.offset

theorem formsAll_nil (through : Bool) : FormsAll c₀ i through [] := ⟨[], .nil, fun _ ha => by cases ha⟩

theorem FormsAll.append {through : Bool} {asked asked' : List Translation} (h : FormsAll c₀ i true asked)
    (h' : FormsAll c₀ i through asked') : FormsAll c₀ i through (asked ++ asked') := by
  obtain ⟨accesses, hasked, hforms⟩ := h
  obtain ⟨accesses', hasked', hforms'⟩ := h'
  refine ⟨accesses ++ accesses', hasked.append hasked', fun a ha => ?_⟩
  rcases List.mem_append.1 ha with ha | ha
  · exact hforms a ha
  · exact hforms' a ha

/-- One load or store. -/
theorem lists_formsAll {m : Exec (Survey ω) α} (a : DataAccess) (hat : i.Forms a.segment a.offset) (hcalm : Calm m)
    (hasks : Asks m (a.asks c₀ i.operandBytes)) : Lists c₀ (FormsAll c₀ i) m :=
  .of_asks hcalm hasks fun _ _ hbegun hwhole => ⟨[a], .single hbegun hwhole, List.forall_mem_singleton.2 hat⟩

/-- An instruction is through its accesses one by one. -/
theorem offsetwise_formsAll (s : Socket ω) (c₀ : Cpu) (i : Instr) :
    Offsetwise s.surveying c₀ i (Lists c₀ (FormsAll c₀ i)) where
  pure _ := .of_quiet formsAll_nil (fun _ => .refl _) fun _ => rfl
  throw _ := .of_quiet formsAll_nil (fun _ => .refl _) fun _ => rfl
  bind := .bind .append
  cpu h := fun r hr => h r.cpu hr r hr
  modifyCpu h := .of_quiet formsAll_nil (fun r => h r.cpu) fun _ => rfl
  retire := .of_quiet formsAll_nil (fun _ => .refl _) fun _ => rfl
  mustGiveWay _ := .of_quiet formsAll_nil (fun _ => .refl _) fun _ => rfl
  load segment offset hat :=
    lists_formsAll ⟨segment, offset, false⟩ hat (calm_load s.surveying _ _) (asks_load s.bus _ _)
  store segment offset src hat hlen := by
    refine lists_formsAll ⟨segment, offset, true⟩ hat (calm_store s.surveying _ src) ?_
    unfold DataAccess.asks
    rw [← hlen]
    exact asks_store s _ src

end Exec

/-- The displacement counts from the next instruction, and addresses have fewer than 64 bits. -/
def Instr.CountsFromNext (i : Instr) (disp : UInt64) : Prop := i.addrSize ≠ .b64 ∧ ∃ imm, i.op = .storeImm disp imm true

/-- What is decoded forms offsets of its address size, but for a displacement that counts from the next instruction. -/
theorem Instr.Forms.offset_lt {bytes : List UInt8} {mode : FetchMode} {i : Instr}
    (h : decodeInstr bytes mode = .complete i) (hcounts : ¬∃ disp, i.CountsFromNext disp) {segment : DataSegment}
    {offset : UInt64} (hforms : i.Forms segment offset) : offset.toNat < 2 ^ i.addrSize.bits := by
  have hmask : ∀ v : UInt64, (v &&& i.addrSize.mask).toNat < 2 ^ i.addrSize.bits := by
    intro v
    rw [CodeSize.toNat_and_mask]
    exact Nat.mod_lt _ (Nat.two_pow_pos _)
  cases hforms with
  | index op w hop _ v => exact hmask v
  | absolute disp imm hop => exact hmask disp
  | relative disp imm hop rip =>
    have hwide : i.addrSize = .b64 := by
      by_contra hsize
      exact hcounts ⟨disp, hsize, imm, hop⟩
    rw [hwide]
    exact (rip + disp).toNat_lt
  | fixed _ hop =>
    obtain ⟨j, rest, hi, -, -, hread⟩ := decodeInstr_eq_complete h
    have hoperands := (wellFormed_readInstr mode.code _ _ _ hread).operands
    rw [hi] at hop ⊢
    unfold Instr.raw at hoperands
    rw [show j.op = .storeAl offset from hop] at hoperands
    exact hoperands

namespace Exec

variable {i : Instr} {disp : UInt64} {imm : UInt8}

/-- An instruction, with a survey made from its start. -/
def surveyed (s : Socket ω) (frame : Frame) (i : Instr) (r : Running ω) : Except Fault Flow × Running (Survey ω) :=
  eval (instr s.surveying frame i) ⟨r.cpu, ⟨r.world, []⟩, r.retired, r.watchHit⟩

/-- A store that counts from the next instruction is the only access of its instruction. -/
theorem accessed_relative (hop : i.op = .storeImm disp imm true) (s : Socket ω) (frame : Frame) (r : Running ω) :
    Accessed r.cpu i.operandBytes [⟨.ds, r.cpu.rip + disp, true⟩] (surveyed s frame i r).1.isOk
      (surveyed s frame i r).2.world.asked := by
  have hbytes : i.operandBytes = 1 := by unfold Instr.operandBytes; rw [hop]
  have hasks := (asks_store s (r.cpu.dataAddress .ds (r.cpu.rip + disp)) [imm]).bind fun _ => .pure Flow.next
  have hinstr : surveyed s frame i r = eval (do
      store s.surveying.bus s.surveying.guard (r.cpu.dataAddress .ds (r.cpu.rip + disp)) [imm]
      return Flow.next) ⟨r.cpu, ⟨r.world, []⟩, r.retired, r.watchHit⟩ := by
    unfold surveyed instr
    rw [hop]
    dsimp only
    rw [eval_bind, eval_cpu, ← Cpu.linear_base]
    rfl
  obtain ⟨asked, hbegun, hwhole, hasked⟩ := hasks ⟨r.cpu, ⟨r.world, []⟩, r.retired, r.watchHit⟩
  rw [← hinstr] at hwhole hasked
  rw [List.append_nil] at hbegun hwhole
  rw [hbytes, show (surveyed s frame i r).2.world.asked = asked from hasked]
  exact .single hbegun hwhole

/-- Where the loads and stores of an instruction begin that was decoded, in any state and with any bus, guard and event
line. The offset in the segment has the address size of the instruction, in every iteration of a repeated one. The
exception is a displacement that counts from the next instruction while addresses have fewer than 64 bits: its sum with
the instruction pointer is not cut to them. -/
theorem offsets_of_decodeInstr {bytes : List UInt8} {mode : FetchMode} (h : decodeInstr bytes mode = .complete i)
    (s : Socket ω) (frame : Frame) (r : Running ω) :
    ∃ accesses, Accessed r.cpu i.operandBytes accesses (surveyed s frame i r).1.isOk
        (surveyed s frame i r).2.world.asked ∧
      ((¬∃ disp, i.CountsFromNext disp) → ∀ a ∈ accesses, a.offset.toNat < 2 ^ i.addrSize.bits) ∧
      ∀ disp, i.CountsFromNext disp → accesses = [⟨.ds, r.cpu.rip + disp, true⟩] := by
  by_cases hcounts : ∃ disp, i.CountsFromNext disp
  case pos =>
    have hcounts' := hcounts
    obtain ⟨disp, -, imm, hop⟩ := hcounts'
    refine ⟨_, accessed_relative hop s frame r, fun hnot => absurd hcounts hnot, fun disp' hcounts' => ?_⟩
    obtain ⟨-, imm', hop'⟩ := hcounts'
    rw [hop] at hop'
    cases hop'
    rfl
  case neg =>
    obtain ⟨-, asked, hasked, accesses, haccessed, hforms⟩ := (offsetwise_formsAll s r.cpu i).instr frame
      ⟨r.cpu, ⟨r.world, []⟩, r.retired, r.watchHit⟩ (.refl _)
    refine ⟨accesses, ?_, fun _ a ha => (hforms a ha).offset_lt h hcounts, fun disp hdisp => ?_⟩
    · rw [show (surveyed s frame i r).2.world.asked = asked from hasked]
      exact haccessed
    · exact absurd ⟨disp, hdisp⟩ hcounts

/-- In 64-bit code with addresses of 32 bits, a store sixteen bytes in front of the next instruction. -/
def inFront : Instr := { op := .storeImm 0xFFFFFFFFFFFFFFF0 0x5A true, len := 8, width := .w8 }

/-- Behind the eight bytes of that store, the first of memory. -/
def behindEight : Running Unit := ⟨{ Cpu.new .longMode with rip := 8 }, (), 0, false⟩

/-- It goes to the top of 64 bits, and not of 32. -/
theorem offsets_inFront :
    decodeInstr [0x67, 0xC6, 0x05, 0xF0, 0xFF, 0xFF, 0xFF, 0x5A] ⟨.b64, 0⟩ = .complete inFront ∧
      inFront.addrSize.bits = 32 ∧
      (surveyed Processor.obliging ⟨0, 1, 31⟩ inFront behindEight).2.world.asked = [⟨0xFFFFFFFFFFFFFFF8, .write⟩] := by
  have hdecode : decodeInstr [0x67, 0xC6, 0x05, 0xF0, 0xFF, 0xFF, 0xFF, 0x5A] ⟨.b64, 0⟩ = .complete inFront := by
    decide +kernel
  obtain ⟨accesses, haccessed, -, hone⟩ :=
    offsets_of_decodeInstr hdecode Processor.obliging ⟨0, 1, 31⟩ behindEight
  obtain rfl := hone 0xFFFFFFFFFFFFFFF0 ⟨by decide, 0x5A, rfl⟩
  have hthrough : (surveyed Processor.obliging ⟨0, 1, 31⟩ inFront behindEight).1.isOk = true := by decide +kernel
  refine ⟨hdecode, rfl, ?_⟩
  rw [haccessed.whole hthrough]
  decide +kernel

end Exec

end TraceCore
