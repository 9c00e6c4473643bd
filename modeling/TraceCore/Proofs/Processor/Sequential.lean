/-
The decoder and the executor agree on control flow. Whether an instruction ends its trace is found from its opcode, and
where control goes from its operation as it runs. The two never contradict each other: behind a record that ends no
trace the processor stands at the next one, or again at this one, so that walking along a trace follows the program.
-/
import TraceCore.Proofs.Exec.Flow
import TraceCore.Proofs.Memory.Later
import TraceCore.Proofs.Processor.Progress
import TraceCore.Socket.Board

namespace TraceCore

variable {ω : Type} {bytes : List UInt8} {mode : FetchMode} {i : Instr}

/-- How control goes on behind an instruction of which it is known whether it ends its trace. -/
structure FlowAgrees (frame : Frame) (i : Instr) (before after : Cpu) (x : Except Fault Flow) : Prop where
  stays : i.ends = false → x ≠ .ok .halt ∧ ∀ taken, x ≠ .ok (.branch taken)
  behind : x = .ok .next → after.rip = before.rip
  again : x = .ok .giveWay → after.rip = frame.rip
  leaves : i.ends = true → x ≠ .ok .next ∧ x ≠ .ok .giveWay

namespace Exec

theorem flowAgrees_instr (h : i.ends = i.op.diverts) (s : Socket ω) (frame : Frame) (r : Running ω) :
    FlowAgrees frame i r.cpu (eval (instr s frame i) r).2.cpu (eval (instr s frame i) r).1 := by
  have hrip := (ran_instr s frame i r).rip
  have hallows := allows_instr s frame i r
  generalize (eval (instr s frame i) r).1 = x at hrip hallows ⊢
  have hflow : ∀ flow, x = .ok flow → (i.ends = false ↔ flow = .next ∨ flow = .giveWay) := by
    intro flow hx
    rw [h]
    exact (hallows flow hx).diverts
  constructor
  · intro hends
    refine ⟨fun hx => ?_, fun taken hx => ?_⟩
    · exact absurd ((hflow _ hx).1 hends) nofun
    · exact absurd ((hflow _ hx).1 hends) nofun
  · rintro rfl
    exact hrip
  · rintro rfl
    exact hrip
  · intro hends
    have hnot : ¬i.ends = false := by rw [hends]; nofun
    exact ⟨fun hx => hnot ((hflow _ hx).2 (.inl rfl)), fun hx => hnot ((hflow _ hx).2 (.inr rfl))⟩

end Exec

namespace Processor

/-- What the dispatch loop executes starts with the instruction pointer behind the instruction. -/
theorem flowAgrees_execute (h : i.ends = i.op.diverts) (s : Socket ω) (limit : Nat) (p : Processor) (w : ω) :
    FlowAgrees ⟨p.cpu.rip, limit, p.config.repeatInterval⟩ i (p.cpu.setRip (p.cpu.rip + UInt64.ofNat i.len))
      (p.execute s limit i w).2.2.1.cpu (p.execute s limit i w).1 :=
  Exec.flowAgrees_instr h s ⟨p.cpu.rip, limit, p.config.repeatInterval⟩
    ⟨p.cpu.setRip (p.cpu.rip + UInt64.ofNat i.len), w, p.retired, false⟩

/-- Behind a record that ends no trace, the loop is at a boundary or goes on to the next record with the instruction
pointer behind the instruction. -/
theorem stepRecord_next (h : i.ends = i.op.diverts) (hends : i.ends = false) (s : Socket ω)
    (limit index n generation : Nat) (branch : Option Nat) {p : Processor} (w : ω) {record : Record}
    (hfound : p.cache.pool[index]? = some record) (hinstr : record.instr = i) {point : Point}
    (hgoes : (p.stepRecord s limit index (n + 1) generation branch w).1 = .goto point) :
    point = .boundary ∨ point = .record (index + 1) n generation branch ∧
      (p.stepRecord s limit index (n + 1) generation branch w).2.1.cpu.rip =
        (p.cpu.rip + UInt64.ofNat i.len) &&& p.cpu.ipMask := by
  have hrecorded := recorded_stepRecord s limit index (n + 1) generation branch p w
  generalize p.stepRecord s limit index (n + 1) generation branch w = out at hrecorded hgoes ⊢
  cases hrecorded with
  | missing nothing => exact .inl (Step.goto.inj hgoes).symm
  | stopped => cases hgoes
  | faulted record found p₁ w₁ passes fault hit p₂ w₂ executed =>
    have hhanded := handed_handFault s fault p.cpu.rip p₂ w₂
    generalize p₂.handFault s fault p.cpu.rip w₂ = out at hhanded hgoes ⊢
    cases hhanded with
    | retried => exact .inl (Step.goto.inj hgoes).symm
    | delivered => exact .inl (Step.goto.inj hgoes).symm
    | escalated => cases hgoes
  | struck => cases hgoes
  | left => exact .inl (Step.goto.inj hgoes).symm
  | through record found p₁ w₁ passes flow p₂ w₂ executed last stays => cases last
  | next record' found p₁ w₁ passes flow p₂ w₂ executed m more stays =>
    obtain rfl : record' = record := Option.some.inj (found.symm.trans hfound)
    obtain rfl : n = m := Nat.succ.inj more
    obtain ⟨resume, honly⟩ := stopsAt_only s p.cpu.rip record'.instr.len p w
    have hagrees := flowAgrees_execute (hinstr ▸ h) s limit p₁ w₁
    rw [passes] at honly
    rw [executed, show p₁.cpu = p.cpu by rw [show p₁ = { p with resume } from honly]] at hagrees
    -- of the ways on that leave the loop in its trace, only one is open to such a record
    obtain rfl : flow = .next := by
      obtain ⟨hhalt, hbranch⟩ := hagrees.stays (hinstr ▸ hends)
      cases flow with
      | next => rfl
      | branch taken => exact absurd rfl (hbranch taken)
      | halt => exact absurd rfl hhalt
      | giveWay => exact absurd rfl stays.1
    obtain ⟨retired, hcounted⟩ := counted_only p₂ .next
    refine .inr ⟨(Step.goto.inj hgoes).symm, ?_⟩
    rw [← hinstr]
    dsimp only
    rw [hcounted]
    exact hagrees.behind rfl

/-- Decoder and executor agree on control flow, for every record that is decoded, in every state and with any bus, guard
and event line. Where a record ends no trace, no branch is taken from it and the processor does not halt; when it is
through, the instruction pointer is where it was, behind the instruction, and back at the instruction when it gave way.
A record that ends a trace never leads to the next instruction and never gives way. So the dispatch loop goes from record
to record of a trace only as the program goes from instruction to instruction. -/
theorem flow_of_decodeInstr (h : decodeInstr bytes mode = .complete i) (s : Socket ω) :
    (∀ (frame : Frame) (r : Running ω),
      FlowAgrees frame i r.cpu (Exec.eval (Exec.instr s frame i) r).2.cpu (Exec.eval (Exec.instr s frame i) r).1) ∧
    (i.ends = false → ∀ limit index n generation branch (p : Processor) w,
      (∃ record, p.cache.pool[index]? = some record ∧ record.instr = i) → ∀ point,
      (p.stepRecord s limit index (n + 1) generation branch w).1 = .goto point →
      point = .boundary ∨ point = .record (index + 1) n generation branch ∧
        (p.stepRecord s limit index (n + 1) generation branch w).2.1.cpu.rip =
          (p.cpu.rip + UInt64.ofNat i.len) &&& p.cpu.ipMask) := by
  have hends := ends_of_decodeInstr h
  refine ⟨Exec.flowAgrees_instr hends s, fun hstays limit index n generation branch p w => ?_⟩
  rintro ⟨record, hfound, hinstr⟩ point hgoes
  exact stepRecord_next hends hstays s limit index n generation branch w hfound hinstr hgoes

/-- A scan for a byte, as it is decoded. -/
def scan : Instr := { op := .string .scan .w8, len := 2, width := .w8, rep := .repne }

/-- Before it scans three zero bytes for another one. -/
def scanning : Running (Board Unit Unit) :=
  let cpu := { Cpu.new .protectedMode with rip := 0x102 }
  ⟨(cpu.write .rcx .w64 3).write .rax .w64 0x11, ⟨{ ram := .zeroPage }, (), (), #[{}]⟩, 0, false⟩

/-- At address 0x100 and on a budget of one, it gives way behind the first byte and is where it started. -/
theorem flow_scanning :
    let out := Exec.eval (Exec.instr ⟨Board.bus, .none, .toCaller, Board.line 0⟩ ⟨0x100, 1, 1⟩ scan) scanning
    decodeInstr [0xF2, 0xAE] ⟨.b32, 0⟩ = .complete scan ∧ scan.ends = false ∧ out.1 = .ok .giveWay ∧
      out.2.cpu.rip = 0x100 := by
  intro out
  have hdecode : decodeInstr [0xF2, 0xAE] ⟨.b32, 0⟩ = .complete scan := by decide +kernel
  have hgives : out.1 = .ok .giveWay := by decide +kernel
  have hagrees : FlowAgrees ⟨0x100, 1, 1⟩ scan scanning.cpu out.2.cpu out.1 :=
    (flow_of_decodeInstr hdecode ⟨Board.bus, .none, .toCaller, Board.line 0⟩).1 ⟨0x100, 1, 1⟩ scanning
  exact ⟨hdecode, rfl, hgives, hagrees.again hgives⟩

end Processor

end TraceCore
