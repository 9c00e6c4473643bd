/-
Demand paging is transparent. A program that runs through with all its pages mapped runs through in the same
way when pages are mapped only at the fault that asks for them: each fault leaves everything as it was before
the instruction, or before the iteration of a repeated one, so that it can be run again.
-/
import TraceCore.Proofs.Processor.Missing
import TraceCore.Proofs.Processor.Spared
import TraceCore.Proofs.Processor.Twins

namespace TraceCore

/-- The board with these mappings in force. -/
def Board.mapped {γ δ : Type} (w : Board γ δ) (M : Std.HashMap UInt64 Mapping) : Board γ δ :=
    { w with mem.mappings := some M }

/-! ## The delivery -/

/-- Answers a page fault with the page that is asked for, at its own address, and counts the faults. All else
is left to the caller. -/
def Delivery.onDemand {γ : Type} : Delivery (Board γ Nat) where
  events := (Delivery.toCaller : Delivery (Board γ Nat)).events
  fault fault _ cpu w :=
    match fault.guestException with
    | some (.pageFault pf) => (.retry, cpu, { w with mem := w.mem.restore pf.addr, delivery := w.delivery + 1 })
    | _ => (.escalate, cpu, w)

namespace Delivery

variable {γ : Type}

end Delivery

namespace Processor

variable {γ : Type} {i k n : Nat} {p p' p₁ q q' pf : Processor} {w w' w₁ v v' wf : Board γ Nat} {instr : Instr}
    {next : Point}

theorem handFault_onDemand {fault : Fault} {pf : PageFault} (h : fault.guestException = some (.pageFault pf))
    (rip : UInt64) (p : Processor)
    (w : Board γ Nat) : ∃ window, p.handFault (Board.unwatched .onDemand i) fault rip w =
      (.goto .boundary, { p with retired := p.retired + 1, window, cpu := { p.cpu with rip } },
        { w with mem := w.mem.restore pf.addr, delivery := w.delivery + 1 }) := by
  have hanswer : (Delivery.onDemand : Delivery (Board γ Nat)).fault fault rip p.cpu w =
      (.retry, p.cpu, { w with mem := w.mem.restore pf.addr, delivery := w.delivery + 1 }) := by
    unfold Delivery.onDemand
    dsimp only
    rw [h]
  have hhanded := handed_handFault (Board.unwatched .onDemand i) fault rip p w
  generalize p.handFault (Board.unwatched .onDemand i) fault rip w = out at hhanded ⊢
  cases hhanded with
  | retried window closed cpu w' answer =>
    rw [show Delivery.onDemand.fault fault rip p.cpu w = _ from answer] at hanswer
    cases hanswer
    exact ⟨window, rfl⟩
  | delivered window closed cpu w' answer =>
    rw [show Delivery.onDemand.fault fault rip p.cpu w = _ from answer] at hanswer
    cases hanswer
  | escalated window closed cpu w' answer =>
    rw [show Delivery.onDemand.fault fault rip p.cpu w = _ from answer] at hanswer
    cases hanswer

/-! ## With all pages -/

theorem leaves_handFault (fault : Fault) (rip : UInt64) (p : Processor) (w : Board γ Nat) :
    ∃ p' w', p.handFault (Board.unwatched .toCaller i) fault rip w = (.leave (.fatal fault), p', w') := by
  unfold handFault Delivery.toCaller
  exact ⟨_, _, rfl⟩

/-- What a single step comes to where faults are left to the caller. -/
inductive Called (i : Nat) (p : Processor) (w : Board γ Nat) : Step × Processor × Board γ Nat → Prop
  | halted (asleep : p.cpu.halted = true) : Called i p w (.leave .halted, p.single, w)
  | fatal (fault : Fault) (p' : Processor) (w' : Board γ Nat) : Called i p w (.leave (.fatal fault), p', w')
  | ran (awake : p.cpu.halted = false) (instr : Instr) (flow : Flow) (p' : Processor) (w' : Board γ Nat)
      (fetched : (p.refetch (Board.unwatched .toCaller i) w).1 = .ok instr)
      (executed : p.single.execute (Board.unwatched .toCaller i) 0 instr w = (.ok flow, false, p', w')) :
      Called i p w (.goto .boundary, if flow = .giveWay then p' else { p' with retired := p'.retired + 1 }, w')

theorem called_stepSingle (p : Processor) (w : Board γ Nat) :
    Called i p w (p.stepSingle (Board.unwatched .toCaller i) w) := by
  have hfatal : ∀ fault rip p' w', Called i p w (handFault (Board.unwatched .toCaller i) fault rip p' w') := by
    intro fault rip p' w'
    obtain ⟨p'', w'', hleave⟩ := leaves_handFault (i := i) fault rip p' w'
    rw [hleave]
    exact .fatal fault p'' w''
  cases hhalted : p.cpu.halted with
  | true =>
    rw [stepSingle_of_halted hhalted]
    exact .halted hhalted
  | false =>
    cases hfetch : (p.refetch (Board.unwatched .toCaller i) w).1 with
    | error fault =>
      rw [stepSingle_of_error hhalted hfetch, ← singly_handFault]
      exact hfatal ..
    | ok instr =>
      rw [stepSingle_of_ok hhalted hfetch]
      have hwatch : (p.single.execute (Board.unwatched .toCaller i) 0 instr w).2.1 = false := by
        rw [execute_eq]
        exact watchHit_running _ instr p.single w
      rcases hexec : p.single.execute (Board.unwatched .toCaller i) 0 instr w with ⟨x, hit, p', w'⟩
      rw [hexec] at hwatch
      obtain rfl : hit = false := hwatch
      cases x with
      | error fault => exact hfatal ..
      | ok flow => exact .ran hhalted instr flow p' w' hfetch hexec

/-! ## With fewer pages -/

/-- The second processor is where the first is and has taken `k` page faults, each counted as an instruction.
Its memory may lack pages. -/
structure Behind (k : Nat) (p : Processor) (w : Board γ Nat) (q : Processor) (v : Board γ Nat) : Prop where
  cpu : q.cpu = p.cpu
  retired : q.retired = p.retired + k
  faults : v.delivery = k
  decode : p.decode = decodeInstr
  decode' : q.decode = decodeInstr
  pointer : p.cpu.Masked p.cpu.rip
  bytes : v.mem.ram.bytes = w.mem.ram.bytes
  mem : Layout.rwx.holds w.mem.mappings
  mem' : Layout.rwx.holds v.mem.mappings

theorem Behind.within (h : Behind k p w q v) : v.mem.Within w.mem := MappedRam.within_rwx h.bytes h.mem h.mem'

/-- After a fault nothing has changed but the count and the mappings. -/
theorem Behind.fault (h : Behind k p w q v) (hcpu : q₁.cpu = q.cpu) (hretired : q₁.retired = q.retired + 1)
    (hdecode : q₁.decode = q.decode)
    (linear : UInt64) : Behind (k + 1) p w q₁ { v with mem := v.mem.restore linear, delivery := v.delivery + 1 } where
  cpu := hcpu.trans h.cpu
  retired := hretired.trans (congrArg (· + 1) h.retired)
  faults := congrArg (· + 1) h.faults
  decode := h.decode
  decode' := hdecode.trans h.decode'
  pointer := h.pointer
  bytes := h.bytes
  mem := h.mem
  mem' := MappedRam.rwx_restore h.mem' linear

/-- An instruction that runs with all pages runs in the same way, or faults on a missing page. -/
theorem Behind.execute (h : Behind k p w q v) {flow : Flow} {hit : Bool}
    (hexec : p.single.execute (Board.unwatched .toCaller i) 0 instr w = (.ok flow, hit, p', w')) :
    (∃ q' v', q.single.execute (Board.unwatched .onDemand i) 0 instr v = (.ok flow, hit, q', v') ∧
      Behind k p' w' q' v' ∧
      v'.mem.mappings = v.mem.mappings ∧ w'.mem.mappings = w.mem.mappings) ∨
    ∃ linear access rip, v.mem.Lacks w.mem linear access q.cpu.cpl ∧
      q.single.execute (Board.unwatched .onDemand i) 0 instr v =
        (.error (.semantic (.pageFault (.of linear false access q.cpu.cpl))), false, { q.single with cpu.rip := rip },
        v) := by
  have hfewer : Exec.Fewer k (p.single.running instr w) (q.single.running instr v) := by
    refine ⟨?_, h.within, h.retired, rfl⟩
    unfold running
    rw [show q.single.cpu = q.cpu from rfl, h.cpu]
    rfl
  have hran := executed_execute (Board.unwatched .toCaller i) 0 instr p.single w
  have hstill := still_execute (d := .toCaller) (i := i) 0 instr p.single w
  have hstill' := still_execute (d := .onDemand) (i := i) 0 instr q.single v
  rw [hexec] at hran hstill
  rw [execute_eq] at hexec
  rw [execute_eq] at hstill' ⊢
  rw [show q.single.cpu.rip = p.single.cpu.rip from congrArg Cpu.rip h.cpu] at hstill' ⊢
  rcases hout : Exec.eval (Exec.instr (Board.unwatched .toCaller i) ⟨p.single.cpu.rip, 0, 1⟩ instr)
    (p.single.running instr w) with ⟨x, r⟩
  rw [show p.single.config.repeatInterval = 1 from rfl, hout] at hexec
  cases hexec
  rcases Exec.restarts_instr (s := Board.unwatched .onDemand i) rfl rfl ⟨p.single.cpu.rip, 0, 1⟩ instr k _ _ flow r
    hfewer hout with
    ⟨r', hout', hr⟩ | ⟨linear, access, hlacks, hout'⟩
  · left
    rw [show q.single.config.repeatInterval = 1 from rfl,
      show Exec.eval (Exec.instr (Board.unwatched .onDemand i) ⟨p.single.cpu.rip, 0, 1⟩ instr)
        (q.single.running instr v) = _ from hout']
      at hstill' ⊢
    refine ⟨q.single.after r', r'.world, ?_, ?_, hstill'.mappings, hstill.mappings⟩
    · exact congrArg (fun hit => (Except.ok flow, hit, q.single.after r', r'.world)) hr.watchHit
    exact
      { cpu := hr.cpu
        retired := hr.retired
        faults := hstill'.delivery.trans h.faults
        decode := h.decode
        decode' := h.decode'
        pointer := by
          have hcontext := hran.context
          refine hcontext.masked.2 ?_
          rcases hran.rip with hrip | ⟨target, hrip⟩
          · rw [hrip]; exact h.pointer
          · rw [hrip]; exact Cpu.masked_and _ _
        bytes := hr.world.bytes
        mem := by rw [hstill.mappings]; exact h.mem
        mem' := by rw [hstill'.mappings]; exact h.mem' }
  · right
    have hcpl : (p.single.running instr w).cpu.cpl = q.cpu.cpl := by rw [h.cpu]; rfl
    rw [hcpl] at hlacks hout'
    refine ⟨linear, access, (q.single.running instr v).cpu.rip, hlacks, ?_⟩
    rw [show q.single.config.repeatInterval = 1 from rfl,
      show Exec.eval (Exec.instr (Board.unwatched .onDemand i) ⟨p.single.cpu.rip, 0, 1⟩ instr)
        (q.single.running instr v) = _ from hout']
    rfl

/-- What is fetched with all pages can be fetched, or a page is missing. -/
theorem Behind.fetch (h : Behind k p w q v) (hfetch : (p.refetch (Board.unwatched .toCaller i) w).1 = .ok instr) :
    v.mem.Offers q.cpu instr ∨ ∃ linear, v.mem.Lacks w.mem linear .execute q.cpu.cpl ∧
      v.mem.Misses q.cpu instr linear := by
  rw [h.cpu]
  exact h.within.offers ((refetch_eq_ok h.decode h.pointer.reaches.continues).1 hfetch)

theorem Behind.refetch (h : Behind k p w q v) (ho : v.mem.Offers q.cpu instr) :
    (q.refetch (Board.unwatched .onDemand i) v).1 = .ok instr := by
  refine (refetch_eq_ok h.decode' ?_).2 ho
  rw [h.cpu]
  exact h.pointer.reaches.continues

/-- A repeated instruction that is still there with all pages is still there. -/
theorem Behind.stays (h : Behind k p' w' q' v') (hfetch : (p.refetch (Board.unwatched .toCaller i) w).1 = .ok instr)
    (ho : v.mem.Offers q.cpu instr)
    (hexec : p.single.execute (Board.unwatched .toCaller i) 0 instr w = (.ok .giveWay, false, p', w'))
    (hexec' : q.single.execute (Board.unwatched .onDemand i) 0 instr v = (.ok .giveWay, false, q', v'))
    (hstays : p.Stays (Board.unwatched .toCaller i) w p' w') :
    (q'.refetch (Board.unwatched .onDemand i) v').1 = .ok instr := by
  obtain ⟨r, hgave⟩ := gaveWay_of_execute hexec'
  have hstill := still_execute (d := .onDemand) (i := i) 0 instr q.single v
  rw [hexec'] at hstill
  rcases h.fetch (hstays instr false hfetch hexec) with ho' | ⟨linear, -, hmisses⟩
  · exact h.refetch ho'
  · exact absurd hmisses (ho.not_misses hgave.context hgave.rip (MappedRam.grows_of_mappings hstill.mappings)
      hstill.size)

/-- A step with all pages is a step with fewer, or a fault that leaves one page less missing. -/
theorem Behind.step (h : Behind k p w q v) (hstep : p.stepSingle (Board.unwatched .toCaller i) w = (.goto next, p₁, w₁))
    (hstays : p.Stays (Board.unwatched .toCaller i) w p₁ w₁) :
    ∃ q₁ v₁, q.stepSingle (Board.unwatched .onDemand i) v = (.goto .boundary, q₁, v₁) ∧
      q.Stays (Board.unwatched .onDemand i) v q₁ v₁ ∧
      (Behind k p₁ w₁ q₁ v₁ ∧ v₁.mem.missing w₁.mem = v.mem.missing w.mem ∨
        Behind (k + 1) p w q₁ v₁ ∧ v₁.mem.missing w.mem < v.mem.missing w.mem) := by
  have hcalled := called_stepSingle (i := i) p w
  rw [hstep] at hcalled
  cases hcalled with
  | ran awake instr flow p' w' fetched executed =>
    have hawake : q.cpu.halted = false := by rw [h.cpu]; exact awake
    rcases h.fetch fetched with ho | ⟨linear, hlacks, hmisses⟩
    case inr =>
      -- the bytes of the instruction are on a missing page
      have hfetch := refetch_of_misses (d := .onDemand) (i := i) h.decode' hmisses
      obtain ⟨window, hhanded⟩ := handFault_onDemand (i := i)
        (show (Fault.fetch (.page (.of linear false .execute q.cpu.cpl))).guestException = _ from rfl) q.cpu.rip q v
      refine ⟨_, _, (stepSingle_of_error hawake hfetch).trans (congrArg singly hhanded), ?_,
        Or.inr ⟨h.fault ?_ ?_ ?_ linear, ?_⟩⟩
      · intro instr' hit hfetch'
        rw [hfetch] at hfetch'
        cases hfetch'
      · rfl
      · rfl
      · rfl
      · exact MappedRam.missing_restore h.mem h.mem' hlacks
    case inl =>
      have hfetch := h.refetch (i := i) ho
      have hsingle := stepSingle_of_ok hawake hfetch
      rcases h.execute executed with ⟨q', v', hexec, hbehind, hmap', hmap⟩ | ⟨linear, access, rip, hlacks, hexec⟩
      case inr =>
        -- a page that the instruction works on is missing
        obtain ⟨window, hhanded⟩ := handFault_onDemand (i := i)
          (show (Fault.semantic (.pageFault (.of linear false access q.cpu.cpl))).guestException = _ from rfl) q.cpu.rip
          { q.single with cpu.rip := rip } v
        rw [hexec] at hsingle
        refine ⟨_, _, hsingle.trans hhanded, ?_, Or.inr ⟨h.fault ?_ ?_ ?_ linear, ?_⟩⟩
        · intro instr' hit hfetch' hgave
          rw [hfetch] at hfetch'
          cases hfetch'
          rw [hexec] at hgave
          cases hgave
        · rfl
        · rfl
        · rfl
        · exact MappedRam.missing_restore h.mem h.mem' hlacks
      case inl =>
        rw [hexec] at hsingle
        refine ⟨_, _, hsingle, ?_, Or.inl ⟨?_, MappedRam.missing_congr hmap hmap'⟩⟩
        · intro instr' hit hfetch' hgave
          rw [hfetch] at hfetch'
          cases hfetch'
          rw [hexec] at hgave
          cases hgave
          exact hbehind.stays fetched ho executed hexec hstays
        -- an instruction that gave way counted its iterations itself
        · split
          case isTrue => exact hbehind
          case isFalse =>
            exact { hbehind with retired := (congrArg (· + 1) hbehind.retired).trans (Nat.add_right_comm ..) }

/-! ## Runs -/

/-- Single steps that come to a halt with all pages do so with fewer, taking no more faults than pages are
missing. -/
theorem Behind.ends (h : Behind k p w q v) (hends : Ends (Board.unwatched .toCaller i) .halted pf wf n p w) :
    ∃ m k' qf vf, Ends (Board.unwatched .onDemand i) .halted qf vf m q v ∧ Behind k' pf wf qf vf ∧
      k' + vf.mem.missing wf.mem ≤ k + v.mem.missing w.mem := by
  induction hends generalizing k q v with
  | @leave p w steps =>
    have hcalled := called_stepSingle (i := i) p w
    rw [steps] at hcalled
    cases hcalled with
    | halted asleep =>
      have hasleep : q.cpu.halted = true := by rw [h.cpu]; exact asleep
      exact ⟨0, k, q.single, v, .leave (stepSingle_of_halted hasleep v), { h with }, Nat.le_refl _⟩
  | @step n p p₁ w w₁ next steps stays rest ih =>
    -- faults come before the step, each for another page
    induction hn : v.mem.missing w.mem using Nat.strongRecOn generalizing k q v with
    | ind missing ihm =>
      obtain ⟨q₁, v₁, hstep, hstays, hsame | hfault⟩ := h.step steps stays
      · obtain ⟨hbehind, hmissing⟩ := hsame
        obtain ⟨m, k', qf, vf, hends, hlast, hle⟩ := ih hbehind
        exact ⟨m + 1, k', qf, vf, .step hstep hstays hends, hlast, by omega⟩
      · obtain ⟨hbehind, hless⟩ := hfault
        obtain ⟨m, k', qf, vf, hends, hlast, hle⟩ := ihm _ (by omega) hbehind rfl
        exact ⟨m + 1, k', qf, vf, .step hstep hstays hends, hlast, by omega⟩

end Processor

end TraceCore
