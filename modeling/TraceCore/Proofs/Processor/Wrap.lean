/-
Instruction pointers that come round, on memory without mappings. Behind 0xFFFF the instruction pointer of 16-bit code
is 0, but a trace goes on through memory. What is executed there lies behind the end of the first 64 KiB, and not at
their start; a code segment that ends there, or one that begins with a page, has no such trace.
-/
import TraceCore.Proofs.Processor.Progress
import TraceCore.Proofs.Processor.Walk

namespace TraceCore.Processor

variable {γ δ : Type} {K : Kind} {g : Guard (Board γ δ)} {d : Delivery (Board γ δ)} {i : Nat} {p₀ p : Processor}
  {w₀ w : Board γ δ} {index left k : Nat} {t : Trace} {entry rip : UInt64}

/-- All records of a trace begin in one page. -/
theorem Traverses.inPage (ht : p.Traverses w index left t k entry) (h : p.InOrder K w)
    (hlag : w.mem.ram.stamps.lag = 0) :
    pageOffset t.addr + p.cache.bytesBefore t k < pageSize := by
  obtain ⟨hcoherent, -⟩ := h.cache hlag
  obtain ⟨record, -, hk⟩ := ht.record hcoherent
  obtain ⟨slot, hslot⟩ := ht.found
  have hholds := (hcoherent.sound slot t hslot).holds
  have hle := TraceCache.bytesBefore_add_le hholds hk
  obtain ⟨-, hs | ⟨i, second, his, -⟩⟩ := hholds
  · have hfrom := (hs.decodes ht.current).drop k
    rw [List.drop_eq_getElem?_toList_append, hk] at hfrom
    have hpos := (Ram.len_of_decode hfrom.1).1
    have hin := hs.guards.inside
    omega
  · have hlt := (List.getElem?_eq_some_iff.1 hk).1
    rw [his, List.length_singleton] at hlt
    have hoffset := pageOffset_lt t.addr
    rw [Nat.lt_one_iff.1 hlt, TraceCache.bytesBefore, List.take_zero, Ram.bytesOf_nil]
    exact hoffset

/-- In a code segment that begins with a page, the instruction pointers that are multiples of the page size begin pages
too, and a trace ends before it comes to one. -/
theorem Traverses.masked (ht : p.Traverses w index left t k entry) (h : p.InOrder K w) (hlag : w.mem.ram.stamps.lag = 0)
    (hm : w.mem.Identical) (hrip : rip.toNat = entry.toNat + p.cache.bytesBefore t k)
    (hbase : pageOffset p.cpu.cs.base = 0) (hentry : p.cpu.Masked entry) : p.cpu.Masked rip := by
  obtain ⟨n, hview⟩ := ht.view
  have hin := ht.inPage h hlag
  rw [← hm.codeAddress hview, pageOffset_eq, h.code.toNat_codeAddress] at hin
  rw [pageOffset_eq] at hbase
  rw [Cpu.masked_iff] at hentry ⊢
  have hbits : p.cpu.codeSize.bits = 16 ∨ p.cpu.codeSize.bits = 32 := by
    have hcode := h.code.code
    cases hsize : p.cpu.codeSize with
    | b16 => exact Or.inl rfl
    | b32 => exact Or.inr rfl
    | b64 => exact absurd hsize hcode
  unfold pageSize at hin hbase
  rcases hbits with hbits | hbits
  · rw [hbits] at hentry ⊢
    omega
  · rw [hbits] at hentry ⊢
    omega

/-- Each record that is executed was decoded at an instruction pointer within the code segment, as far behind the entry
of its trace as the record is; the processor's is what that comes round to. So memory has the record at the processor's
instruction pointer if the record is the first of its trace, or if there is nothing to come round: as in a code segment
that ends where the code size does, and in one that begins with a page. -/
theorem traversed_of_inSegment (h : InSegment (· = none) p₀ w₀) (hg : g.Quiet) (hd : d.StaysIn (· = none))
    {limit generation : Nat} {branch : Option Nat}
    (hv : Visits (Board.socket g d i) limit p₀ w₀ (.record index left generation branch) p w)
    (hfew : w.mem.ram.stamps.generation < 2 ^ 32) :
    ∃ record t k entry rip, p.cache.pool[index]? = some record ∧ p.Traverses w index left t k entry ∧
      rip.toNat = entry.toNat + p.cache.bytesBefore t k ∧ w.mem.Shows { p.cpu with rip } record.instr ∧
      rip.toNat + record.instr.len ≤ p.cpu.cs.limit.toNat + 1 ∧
      p.cpu.rip = (if k = 0 then rip else rip &&& p.cpu.ipMask) ∧
      (k = 0 ∨ p.cpu.Masked rip → w.mem.Shows p.cpu record.instr) ∧
      (p.cpu.cs.limit.toNat < 2 ^ p.cpu.codeSize.bits → w.mem.Shows p.cpu record.instr) ∧
      (pageOffset p.cpu.cs.base = 0 → p.cpu.Masked entry → w.mem.Shows p.cpu record.instr) := by
  obtain ⟨hinOrder, hstanding⟩ := standing_of_visits hg hd (inOrder_of_inSegment h) hv
  have hlag := hinOrder.counted.lag_eq hfew
  obtain ⟨-, t, k, entry, hwalks⟩ := hstanding hlag
  obtain ⟨record, hrecord, mappings, rip, hm, hreach, hoffers, hunaliased⟩ := hwalks.offers hinOrder hlag
  rw [MappedRam.under_eq (hm.trans hinOrder.kind.symm)] at hoffers
  have hrip := hunaliased Kind.unaliased_none
  have hpointer := hwalks.rip_eq hrip
  have hshows := hoffers.shows hreach
  have hlimit : rip.toNat + record.instr.len ≤ p.cpu.cs.limit.toNat + 1 :=
    hoffers.limit ⟨hinOrder.code.code, hinOrder.code.lt_of_reaches hreach⟩
  have hsame : k = 0 ∨ p.cpu.Masked rip → w.mem.Shows p.cpu record.instr := by
    intro hstraight
    have hrip : p.cpu.rip = rip := by
      rw [hpointer]
      split
      case isTrue => rfl
      case isFalse hk => exact hstraight.resolve_left hk
    rw [← hrip] at hshows
    exact hshows
  refine ⟨record, t, k, entry, rip, hrecord, hwalks, hrip, hshows, hlimit, hpointer, hsame, fun hend => ?_,
    fun hbase hentry => ?_⟩
  · obtain ⟨bytes, hdecode, -, -⟩ := hshows
    have hpos := (len_of_decodeInstr hdecode).1
    exact hsame (Or.inr (Cpu.masked_iff.2 (by omega)))
  · exact hsame (Or.inr (hwalks.masked hinOrder hlag (Layout.unmapped.identical hinOrder.kind) hrip hbase hentry))

/-- `nop` and `inc ax`. -/
def nopInc : Board Unit Unit := storedPage 0xF [0x90, 0x40]

/-- A processor at the `nop`, in a segment of 128 KiB. There the `nop` is the last byte of the first 64 KiB. -/
def wrapping : Processor :=
  let config : CoreConfig := { traceSlots := 1, recordPool := 3, maxTraceLen := 2 }
  let cpu := Cpu.new .realMode
  { id := 0, config, decode := decodeInstr
    cpu := { cpu with rip := 0xFFFF, cs := { cpu.cs with base := 0xFFFF0010, limit := 0x1FFFF } }
    window := .empty, cache := .new config, linker := .new config, retired := 0, resume := false }

theorem inSegment_wrapping : InSegment (· = none) wrapping nopInc := by
  have hnew : Processor.new 0 { traceSlots := 1, recordPool := 3, maxTraceLen := 2 } wrapping.cpu = .ok wrapping := rfl
  have hcode : wrapping.cpu.codeSize = .b16 := rfl
  exact inSegment_storedPage hnew ⟨by rw [hcode]; exact nofun, by decide⟩ 0xF [0x90, 0x40]

/-- What the processor does first, and what it does next. -/
def wrappingStep : Step × Processor × Board Unit Unit :=
  wrapping.step (Board.socket .none .toCaller 0) (wrapping.limitFor 2) .boundary nopInc

def wrappedStep : Step × Processor × Board Unit Unit :=
  wrappingStep.2.1.step (Board.socket .none .toCaller 0) (wrapping.limitFor 2) (.record 0 1 0 none) wrappingStep.2.2

theorem visits_wrappedStep : Visits (Board.socket .none .toCaller 0) (wrapping.limitFor 2) wrapping nopInc
    (.record 1 0 0 none) wrappedStep.2.1 wrappedStep.2.2 := by
  have hfirst : wrappingStep.1 = .goto (.record 0 1 0 none) := by decide +kernel
  have hnext : wrappedStep.1 = .goto (.record 1 0 0 none) := by decide +kernel
  unfold wrappingStep at hfirst
  unfold wrappedStep wrappingStep at hnext ⊢
  exact .goto (.first hfirst) (by rw [← hnext])

/-- The instruction pointer came round to where there is no memory, and the processor executes an instruction behind the
first 64 KiB of its segment. -/
theorem traversed_wrapping : wrappedStep.2.1.cpu.rip = 0 ∧
    ∃ record rip, wrappedStep.2.1.cache.pool[1]? = some record ∧ 2 ^ 16 ≤ rip.toNat ∧
      wrappedStep.2.2.mem.Shows { wrappedStep.2.1.cpu with rip } record.instr ∧
      ¬ wrappedStep.2.2.mem.Shows wrappedStep.2.1.cpu record.instr := by
  have hstays : Delivery.toCaller.StaysIn (γ := Unit) (δ := Unit) (· = none) := Delivery.staysIn_toCaller _
  obtain ⟨hrip, hbits, htranslate, hnothing⟩ : wrappedStep.2.1.cpu.rip = 0 ∧
      wrappedStep.2.1.cpu.codeSize.bits = 16 ∧
      wrappedStep.2.2.mem.translate (wrappedStep.2.1.cpu.codeAddress (wrappedStep.2.1.cpu.rip + UInt64.ofNat 0))
        .execute wrappedStep.2.1.cpu.cpl = .ok 0xFFFF0010 ∧
      wrappedStep.2.2.mem.ram.bytes[0xFFFF0010]? = none := by
    decide +kernel
  have hnot : ∀ instr, ¬ wrappedStep.2.2.mem.Shows wrappedStep.2.1.cpu instr := by
    rintro instr ⟨bytes, hdecode, hlen, hshown⟩
    have hpos := (len_of_decodeInstr hdecode).1
    obtain ⟨addr, haddr, hbyte⟩ := hshown 0 hpos
    rw [htranslate] at haddr
    cases haddr
    rw [List.getElem?_eq_getElem (by omega)] at hbyte
    cases hnothing.symm.trans hbyte
  obtain ⟨record, t, k, entry, rip, hrecord, -, -, hshows, -, -, hsame, -⟩ :=
    traversed_of_inSegment inSegment_wrapping Guard.quiet_none hstays visits_wrappedStep (by decide +kernel)
  refine ⟨hrip, record, rip, hrecord, ?_, hshows, hnot record.instr⟩
  by_contra hlt
  refine hnot record.instr (hsame (Or.inr (Cpu.masked_iff.2 ?_)))
  rw [hbits]
  omega

end TraceCore.Processor
