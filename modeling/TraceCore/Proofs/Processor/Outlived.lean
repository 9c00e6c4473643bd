/-
A window outlives the state it was opened for. Deliveries and whoever drives the processor assign its
state between two fetches, and no assignment closes the window. A fetch from it is one of the present
state where that state would fetch as the earlier one, and only there.
-/
import TraceCore.Proofs.Processor.Onward

namespace TraceCore

variable {γ δ : Type}

/-- The delivery reaches mappings only as everyone does: each change is counted. -/
def Delivery.Counted (delivery : Delivery (Board γ δ)) : Prop := delivery.Keeps fun w w' => w.mem.Moves w'.mem

theorem Delivery.counted_toCaller : (Delivery.toCaller : Delivery (Board γ δ)).Counted :=
  Delivery.keeps_toCaller Board.course_moves

namespace Processor

variable {guard : Guard (Board γ δ)} {delivery : Delivery (Board γ δ)} {i : Nat} {p : Processor} {w : Board γ δ}

/-- A processor on a board while it runs and while others assign its state. Every moment counts: those
between two runs, before and behind the events of a boundary, and before and behind an instruction. -/
inductive Driven (guard : Guard (Board γ δ)) (delivery : Delivery (Board γ δ)) (i : Nat) : Processor → Board γ δ → Prop
  | start (id : Nat) (config : CoreConfig) (cpu : Cpu) (decode : Decoder) (p : Processor) (w : Board γ δ)
      (valid : withDecoder id config cpu decode = .ok p) : Driven guard delivery i p w
  | assign (f : Cpu → Cpu) {p : Processor} {w : Board γ δ} (before : Driven guard delivery i p w) :
      Driven guard delivery i { p with cpu := f p.cpu } w
  | board {p : Processor} {w : Board γ δ} (w' : Board γ δ) (before : Driven guard delivery i p w)
      (moves : w.mem.Moves w'.mem) : Driven guard delivery i p w'
  | drop {p : Processor} {w : Board γ δ} (before : Driven guard delivery i p w) : Driven guard delivery i p.dropTraces w
  | skip {p : Processor} {w : Board γ δ} (before : Driven guard delivery i p w) :
      Driven guard delivery i p.skipBreakpoint w
  | links (enabled : Bool) {p : Processor} {w : Board γ δ} (before : Driven guard delivery i p w) :
      Driven guard delivery i (p.allowLinks enabled) w
  | serve {p : Processor} {w : Board γ δ} (before : Driven guard delivery i p w) :
      Driven guard delivery i (serve (Board.socket guard delivery i) p w).2.1
        (serve (Board.socket guard delivery i) p w).2.2
  | execute (limit : Nat) (instr : Instr) {p : Processor} {w : Board γ δ} (before : Driven guard delivery i p w) :
      Driven guard delivery i (p.execute (Board.socket guard delivery i) limit instr w).2.2.1
        (p.execute (Board.socket guard delivery i) limit instr w).2.2.2
  | step (limit : Nat) (point : Point) {p : Processor} {w : Board γ δ} (before : Driven guard delivery i p w) :
      Driven guard delivery i (p.step (Board.socket guard delivery i) limit point w).2.1
        (p.step (Board.socket guard delivery i) limit point w).2.2

/-- Between two runs is a moment too. -/
theorem driven_run (budget : Nat) (h : Driven guard delivery i p w) :
    Driven guard delivery i (p.run (Board.socket guard delivery i) budget w).2.1
      (p.run (Board.socket guard delivery i) budget w).2.2 :=
  run_induction budget p w (fun limit point _ _ h => h.step limit point) h

theorem opened_of_driven (hguard : guard.Quiet) (hdelivery : delivery.Counted) (h : Driven guard delivery i p w) :
    p.Opened w := by
  induction h with
  | start id config cpu decode p w valid =>
    unfold withDecoder at valid
    cases hv : config.validate with
    | error e => rw [hv] at valid; cases valid
    | ok _ => rw [hv] at valid; cases valid; exact Or.inl rfl
  | assign f _ ih => exact ih.moves (.refl _) rfl
  | board w' _ moves ih => exact ih.moves moves rfl
  | drop _ ih => exact Or.inl rfl
  | skip _ ih => exact ih.moves (.refl _) rfl
  | links enabled _ ih => exact ih.moves (.refl _) rfl
  | serve _ ih => exact (onward_serve Board.course_moves hdelivery _ _).opened Board.course_moves ih
  | execute limit instr _ ih =>
    exact (onward_execute Board.course_moves hguard limit instr _ _).opened Board.course_moves ih
  | step limit point _ ih =>
    exact (onward_step Board.course_moves hguard hdelivery limit point _ _).opened Board.course_moves ih

/-! ## Fetches from the window -/

/-- A window opened now for `cpu` at `rip` has the instruction at `addr`, with `n` bytes to its end. -/
def Prefetched (guard : Guard (Board γ δ)) (cpu : Cpu) (rip : UInt64) (w : Board γ δ) (addr : UInt64) (n : Nat) :
    Prop :=
  ∃ window, (openWindow Board.bus guard cpu rip w).1 = .ok window ∧ window.address window.entry = addr ∧
    window.remaining window.entry = n

theorem prefetched_iff {cpu : Cpu} {rip addr : UInt64} {n : Nat} :
    Prefetched guard cpu rip w addr n ↔ w.mem.fetchView cpu rip = .ok (addr, n) := by
  constructor
  · rintro ⟨window, hopen, rfl, rfl⟩
    exact Board.fetchView_of_openWindow hopen
  · intro hview
    cases hopen : (openWindow Board.bus guard cpu rip w).1 with
    | error e =>
      rw [(Board.openWindow_eq_error guard).1 hopen] at hview
      cases hview
    | ok window =>
      rw [Board.fetchView_of_openWindow hopen] at hview
      cases hview
      exact ⟨window, hopen, rfl, rfl⟩

/-- Where a fetch is served from the open window, that window was opened for some state. The present
state fetches alike if the two fetch alike there; and if nothing that a window depends on differs, then
just if the running code can have this instruction pointer. -/
theorem fetch_of_driven (hguard : guard.Quiet) (hdelivery : delivery.Counted) (h : Driven guard delivery i p w)
    {rip : UInt64} {o : Nat} (ho : p.offsetOf Board.bus rip w = some o) :
    ∃ c, p.window.OpenedFor c w ∧
      (c.Reaches rip → (Prefetched guard p.cpu rip w (p.window.address o) (p.window.remaining o) ↔
        w.mem.fetchView p.cpu rip = w.mem.fetchView c rip)) ∧
      (c.SameFetch p.cpu → (Prefetched guard p.cpu rip w (p.window.address o) (p.window.remaining o) ↔
        p.cpu.Reaches rip)) := by
  unfold offsetOf at ho
  split at ho
  case isFalse => cases ho
  case isTrue hremaps =>
    rcases opened_of_driven hguard hdelivery h with hclosed | ⟨c, hopened⟩
    · unfold FetchWindow.offset? at ho
      rw [hclosed] at ho
      dsimp only at ho
      rw [if_neg (Nat.not_lt_zero _)] at ho
      cases ho
    · have hview := hopened.fetchView_iff hremaps ho
      refine ⟨c, hopened, fun hr => ?_, fun hsame => ?_⟩
      · rw [prefetched_iff, hview.2 hr]
      · rw [prefetched_iff, hsame.fetchView, hview]
        unfold Cpu.Reaches
        rw [hsame.code]

/-- A page of `nop`. -/
def nops : Board Unit Unit :=
  ⟨{ ram := ⟨Array.replicate 4096 0x90, .ofPages 1, by simp⟩ }, (), (), #[{}]⟩

/-- A processor at the start of the page, in a segment without end. -/
def free : Processor :=
  { id := 0, config := { traceSlots := 1, recordPool := 2, maxTraceLen := 1 }, decode := decodeInstr
    cpu := .new .protectedMode, window := .empty, cache := .new { traceSlots := 1, recordPool := 2, maxTraceLen := 1 }
    linker := .new { traceSlots := 1, recordPool := 2, maxTraceLen := 1 }, retired := 0, resume := false }

/-- The processor and the board one instruction later. -/
def ranOne : Processor × Board Unit Unit := (free.run (Board.socket .none .toCaller 0) 1 nops).2

/-- Its code segment is now the one byte in front. -/
def confined : Processor := { ranOne.1 with cpu := { ranOne.1.cpu with cs := { ranOne.1.cpu.cs with limit := 0 } } }

theorem valid_free : withDecoder 0 free.config (.new .protectedMode) decodeInstr = .ok free := rfl

theorem driven_ranOne : Driven .none .toCaller 0 ranOne.1 ranOne.2 := by
  unfold ranOne
  exact driven_run 1 (.start 0 free.config (.new .protectedMode) decodeInstr free nops valid_free)

theorem driven_confined : Driven .none .toCaller 0 confined ranOne.2 :=
  driven_ranOne.assign fun cpu => { cpu with cs := { cpu.cs with limit := 0 } }

/-- The window has the second `nop`, though no instruction can be fetched there any more. -/
theorem fetch_confined : confined.offsetOf Board.bus 1 ranOne.2 = some 1 ∧
    (∃ c, confined.window.OpenedFor c ranOne.2 ∧
      (c.Reaches 1 →
        (Prefetched .none confined.cpu 1 ranOne.2 (confined.window.address 1) (confined.window.remaining 1) ↔
        ranOne.2.mem.fetchView confined.cpu 1 = ranOne.2.mem.fetchView c 1)) ∧
      (c.SameFetch confined.cpu →
        (Prefetched .none confined.cpu 1 ranOne.2 (confined.window.address 1) (confined.window.remaining 1) ↔
          confined.cpu.Reaches 1))) ∧
    ranOne.2.mem.fetchView confined.cpu 1 = .error (.segmentLimit 1 0) := by
  have hoffset : confined.offsetOf Board.bus 1 ranOne.2 = some 1 := by decide +kernel
  exact ⟨hoffset, fetch_of_driven Guard.quiet_none Delivery.counted_toCaller driven_confined hoffset, by decide +kernel⟩

end Processor

end TraceCore
