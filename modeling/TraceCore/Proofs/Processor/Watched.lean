/-
Watched stores. A store that the guard answered yes to, and that reached memory, is reported right behind its
instruction, before anything else retires, if and only if the instruction is through. Where a later iteration of the
instruction faults, the fault goes its way as if nothing had been stored. That is so for any bus, decoder, guard and
delivery.
-/
import TraceCore.Proofs.Exec.Noted
import TraceCore.Proofs.Processor.Progress
import TraceCore.Proofs.Processor.Shown

namespace TraceCore

/-- Taking notes changes nothing else. -/
theorem Socket.shows_noting {ω : Type} (s : Socket ω) : s.noting.Shows Noted.world s where
  translate _ _ _ _ := rfl
  codePage _ _ := rfl
  read _ _ _ := rfl
  write _ _ _ := rfl
  remaps _ := rfl
  stamps _ := rfl
  mapStamps _ _ := rfl
  stopsBefore _ _ := rfl
  watches _ _ _ _ := rfl
  deliver _ _ := rfl
  fault _ _ _ _ := rfl
  events _ := rfl
  set _ _ := rfl

namespace Processor

variable {ω : Type} {s : Socket ω} {limit budget : Nat} {p₀ p q : Processor} {w₀ w v : ω} {point : Point} {i : Instr}

/-! ## Instructions of a run -/

/-- A run comes to an instruction in `p` and `w`, and goes on to execute it in `q` and `v`. -/
structure Executes (s : Socket ω) (limit : Nat) (p₀ : Processor) (w₀ : ω) (point : Point) (p : Processor) (w : ω)
    (i : Instr) (q : Processor) (v : ω) : Prop where
  visits : Visits s limit p₀ w₀ point p w
  found : ∃ index left generation branch record, point = .record index left generation branch ∧
    p.cache.pool[index]? = some record ∧ record.instr = i
  passes : p.stopsAt s p.cpu.rip i.len w = (false, q, v)

/-- What comes of a step that executes an instruction. -/
inductive Performed (s : Socket ω) (limit : Nat) (rip : UInt64) (i : Instr) (q : Processor) (v : ω) :
    Step × Processor × ω → Prop
  | faulted (fault : Fault) (hit : Bool) (p' : Processor) (w' : ω)
      (executed : q.execute s limit i v = (.error fault, hit, p', w')) :
      Performed s limit rip i q v (p'.handFault s fault rip w')
  | struck (flow : Flow) (p' : Processor) (w' : ω) (executed : q.execute s limit i v = (.ok flow, true, p', w')) :
      Performed s limit rip i q v (.leave .breakpoint, p'.counted flow, w')
  | through (flow : Flow) (p' : Processor) (w' : ω) (executed : q.execute s limit i v = (.ok flow, false, p', w'))
      (next : Point) (p'' : Processor) : Performed s limit rip i q v (.goto next, p'', w')

theorem Executes.performed (h : Executes s limit p₀ w₀ point p w i q v) :
    Performed s limit p.cpu.rip i q v (p.step s limit point w) := by
  obtain ⟨index, left, generation, branch, record, rfl, hfound, rfl⟩ := h.found
  have hpasses := h.passes
  have hrecorded := recorded_stepRecord s limit index left generation branch p w
  rw [show p.step s limit (.record index left generation branch) w =
    p.stepRecord s limit index left generation branch w from rfl]
  generalize p.stepRecord s limit index left generation branch w = out at hrecorded ⊢
  -- the record and the debugger's answer are those of `h`
  have hsame : ∀ {record' : Record}, p.cache.pool[index]? = some record' → record' = record :=
    fun hfound' => Option.some.inj (hfound'.symm.trans hfound)
  cases hrecorded with
  | missing nothing => rw [hfound] at nothing; cases nothing
  | stopped record' found p₁ w₁ stops =>
    cases hsame found
    rw [hpasses] at stops
    cases stops
  | faulted record' found p₁ w₁ passes fault hit p₂ w₂ executed =>
    cases hsame found
    cases hpasses.symm.trans passes
    exact .faulted fault hit p₂ w₂ executed
  | struck record' found p₁ w₁ passes flow p₂ w₂ executed =>
    cases hsame found
    cases hpasses.symm.trans passes
    exact .struck flow p₂ w₂ executed
  | left record' found p₁ w₁ passes flow p₂ w₂ executed _ =>
    cases hsame found
    cases hpasses.symm.trans passes
    exact .through flow p₂ w₂ executed _ _
  | next record' found p₁ w₁ passes flow p₂ w₂ executed _ _ _ =>
    cases hsame found
    cases hpasses.symm.trans passes
    exact .through flow p₂ w₂ executed _ _
  | through record' found p₁ w₁ passes flow p₂ w₂ executed _ _ =>
    cases hsame found
    cases hpasses.symm.trans passes
    exact .through flow p₂ w₂ executed _ _

/-- A fault never comes back as a breakpoint. -/
theorem handFault_ne_breakpoint (s : Socket ω) (fault : Fault) (rip : UInt64) (p : Processor) (w : ω) :
    (p.handFault s fault rip w).1 ≠ .leave .breakpoint := by
  intro h
  cases fatal_of_handFault h

/-! ## Stores -/

/-- The instruction executed with notes taken of its stores. -/
def noted (s : Socket ω) (limit : Nat) (i : Instr) (q : Processor) (v : ω) :
    Except Fault Flow × Bool × Processor × Noted ω :=
  q.execute s.noting limit i { world := v }

theorem execute_eq_noted (s : Socket ω) (limit : Nat) (i : Instr) (q : Processor) (v : ω) :
    q.execute s limit i v = ((noted s limit i q v).1, (noted s limit i q v).2.1, (noted s limit i q v).2.2.1,
      (noted s limit i q v).2.2.2.world) :=
  execute_shown s.shows_noting limit i q { world := v }

/-- The flag of an instruction that is through tells whether a watched store reached memory. -/
theorem struck_of_through {flow : Flow} (h : (noted s limit i q v).1 = .ok flow) :
    (noted s limit i q v).2.1 = (noted s limit i q v).2.2.2.struck := by
  have htold := Exec.told_instr s { rip := q.cpu.rip, limit, interval := q.config.repeatInterval } i
    { cpu := q.cpu.setRip (q.cpu.rip + UInt64.ofNat i.len), world := { world := v }, retired := q.retired } flow
  exact htold _ rfl (Prod.ext h rfl)

/-- A watched store is reported right behind its instruction, if that is through. If it faults, be it in a later
iteration, the fault is handed over and the store is not reported. -/
theorem reports_of_used (hused : Used ω p₀) (h : Executes s (p₀.limitFor budget) p₀ w₀ point p w i q v) :
    ((p.step s (p₀.limitFor budget) point w).1 = .leave .breakpoint ↔
      (noted s (p₀.limitFor budget) i q v).2.2.2.struck = true ∧
        ∃ flow, (noted s (p₀.limitFor budget) i q v).1 = .ok flow) ∧
    (∀ flow, (noted s (p₀.limitFor budget) i q v).1 = .ok flow →
      (noted s (p₀.limitFor budget) i q v).2.2.2.struck = true →
      p₀.run s budget w₀ = (.breakpoint, (noted s (p₀.limitFor budget) i q v).2.2.1.counted flow,
        (noted s (p₀.limitFor budget) i q v).2.2.2.world)) ∧
    (∀ fault, (noted s (p₀.limitFor budget) i q v).1 = .error fault →
      p.step s (p₀.limitFor budget) point w =
        (noted s (p₀.limitFor budget) i q v).2.2.1.handFault s fault p.cpu.rip
          (noted s (p₀.limitFor budget) i q v).2.2.2.world) := by
  have hperformed := h.performed
  have hrun : ∀ exit p' w', p.step s (p₀.limitFor budget) point w = (.leave exit, p', w') →
      p₀.run s budget w₀ = (exit, p', w') := fun _ _ _ => run_of_visits hused.fit h.visits
  have hexecute := execute_eq_noted s (p₀.limitFor budget) i q v
  have htold : ∀ flow, (noted s (p₀.limitFor budget) i q v).1 = .ok flow →
      (noted s (p₀.limitFor budget) i q v).2.1 = (noted s (p₀.limitFor budget) i q v).2.2.2.struck :=
    fun _ => struck_of_through
  generalize noted s (p₀.limitFor budget) i q v = out at hexecute htold ⊢
  obtain ⟨x, hit, q', n⟩ := out
  generalize p.step s (p₀.limitFor budget) point w = out at hperformed hrun ⊢
  cases hperformed with
  | faulted fault hit' p' w' executed =>
    cases executed.symm.trans hexecute
    refine ⟨⟨fun hleave => (handFault_ne_breakpoint _ _ _ _ _ hleave).elim, nofun⟩, nofun, ?_⟩
    rintro _ ⟨rfl⟩
    rfl
  | struck flow p' w' executed =>
    cases executed.symm.trans hexecute
    have hstruck : true = n.struck := htold flow rfl
    refine ⟨⟨fun _ => ⟨hstruck.symm, flow, rfl⟩, fun _ => rfl⟩, ?_, nofun⟩
    rintro _ ⟨rfl⟩ -
    exact hrun _ _ _ rfl
  | through flow p' w' executed next p'' =>
    cases executed.symm.trans hexecute
    have hstruck : false = n.struck := htold flow rfl
    refine ⟨⟨nofun, fun ⟨hs, _⟩ => ?_⟩, fun _ _ hs => ?_, nofun⟩
    · rw [← hstruck] at hs
      cases hs
    · rw [← hstruck] at hs
      cases hs

/-! ## A repeated store -/

/-- A guard that watches all stores. -/
def allStores {ω : Type} : Guard ω where
  stopsBefore _ w := (false, w)
  watches _ _ kind w := (kind = .write, w)

/-- `rep stosb` at the start of a page of zeros. -/
def fillBoard : Board Unit Unit := ⟨{ ram := Ram.zeroPage.store 0 [0xF3, 0xAA] }, (), (), #[{}]⟩

def repStosb : Instr := { op := .string .store .w8, len := 2, width := .w8, rep := .rep }

/-- A processor there, with `count` bytes to store from the last but one of the page on. -/
def filler (count : UInt64) : Processor :=
  small (((Cpu.new .protectedMode).write .rcx .w64 count).write .rdi .w64 0xFFE)

/-- What the processor does first. -/
def fillerStep (count : UInt64) : Step × Processor × Board Unit Unit :=
  (filler count).step (Board.socket allStores .toCaller 0) ((filler count).limitFor 8) .boundary fillBoard

theorem used_filler (count : UInt64) : Used (Board Unit Unit) (filler count) := used_small ..

/-- It comes to the instruction, and executes that. -/
theorem executes_filler {count : UInt64}
    (h : (fillerStep count).1 = .goto (.record 0 0 0 none) ∧
      (fillerStep count).2.1.cache.pool[0]?.map (·.instr) = some repStosb ∧
      (fillerStep count).2.1.resume = false ∧ (fillerStep count).2.1.window.watched = false) :
    Executes (Board.socket allStores .toCaller 0) ((filler count).limitFor 8) (filler count) fillBoard
      (.record 0 0 0 none) (fillerStep count).2.1 (fillerStep count).2.2 repStosb (fillerStep count).2.1
      (fillerStep count).2.2 where
  visits := .first h.1
  found := by
    obtain ⟨record, hfound, hinstr⟩ := Option.map_eq_some_iff.1 h.2.1
    exact ⟨0, 0, 0, none, record, rfl, hfound, hinstr⟩
  passes := by
    unfold stopsAt
    rw [h.2.2.1, h.2.2.2]
    rfl

/-- The instruction, with notes taken. -/
def notedFill (count : UInt64) : Except Fault Flow × Bool × Processor × Noted (Board Unit Unit) :=
  noted (Board.socket allStores .toCaller 0) ((filler count).limitFor 8) repStosb (fillerStep count).2.1
    (fillerStep count).2.2

/-- Two bytes are stored and reported. Of three, the last is out of memory, and the others are not reported. -/
theorem reports_filler :
    (filler 2).run (Board.socket allStores .toCaller 0) 8 fillBoard =
      (.breakpoint, (notedFill 2).2.2.1.counted .next, (notedFill 2).2.2.2.world) ∧
    (notedFill 3).2.2.2.struck = true ∧
    ((fillerStep 3).2.1.step (Board.socket allStores .toCaller 0) ((filler 3).limitFor 8) (.record 0 0 0 none)
      (fillerStep 3).2.2).1 ≠ .leave .breakpoint := by
  have hthrough := reports_of_used (used_filler 2) (executes_filler (by decide +kernel))
  have hfaults := reports_of_used (used_filler 3) (executes_filler (by decide +kernel))
  obtain ⟨hnext, hstruck⟩ : (notedFill 2).1 = .ok .next ∧ (notedFill 2).2.2.2.struck = true := by decide +kernel
  obtain ⟨hfault, hlost⟩ : (notedFill 3).1 = .error (.bus (.outOfRange 0x1000 1 0x1000)) ∧
      (notedFill 3).2.2.2.struck = true := by decide +kernel
  unfold notedFill at hnext hstruck hfault hlost ⊢
  refine ⟨hthrough.2.1 .next hnext hstruck, hlost, fun hleave => ?_⟩
  obtain ⟨-, flow, hflow⟩ := hfaults.1.1 hleave
  cases hfault.symm.trans hflow

end Processor

end TraceCore
