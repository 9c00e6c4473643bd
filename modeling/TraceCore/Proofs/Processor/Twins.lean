/-
Caches are transparent. Two processors of one program whose caches are built, filled and emptied each in
its own way cannot be told apart by what they leave behind, nor from one that has no cache at all: not
by their exits, nor their states, nor their memories, whatever is done to all of them alike.
-/
import TraceCore.Proofs.Processor.Pace

namespace TraceCore

/-- A processor with a board of its own. -/
structure Bench (γ δ : Type) where
  proc : Processor
  board : Board γ δ

/-- Memory without mappings, whose stamp table has not heard of any code. -/
structure Board.Fresh {γ δ : Type} (w : Board γ δ) : Prop where
  unmapped : w.mem.mappings = none
  tracked : w.mem.ram.Tracked
  stamps : ∃ n, w.mem.ram.stamps = .ofPages n

namespace Bench

variable {γ δ : Type} {i : Nat}

/-- Which of the processors that are compared. -/
inductive Role where
  | left | right
  /-- The one that has no cache. -/
  | plain
deriving DecidableEq

/-- What is done to all of them alike; only a cache may be emptied in one alone. -/
inductive Op where
  | run (budget : Nat)
  | load (addr : UInt64) (src : List UInt8)
  | raise (e : Events)
  | assign (regs : Registers) (rip flags : UInt64) (halted : Bool)
  | flush (role : Role)

/-- What there is to see after an operation. -/
structure Shown where
  exit : Option Exit
  cpu : Cpu
  bytes : Array UInt8
  retired : Nat
  events : Events
deriving DecidableEq

/-- Runs without a debugger. Events and faults are left to the caller. -/
def Role.run (role : Role) (i budget : Nat) (p : Processor) (w : Board γ δ) : Exit × Processor × Board γ δ :=
  match role with
  | .plain => p.runPlain (Board.unwatched .toCaller i) budget w
  | _ => p.run (Board.unwatched .toCaller i) budget w

def act (role : Role) (i : Nat) (b : Bench γ δ) : Op → Option Exit × Bench γ δ
  | .run budget =>
    let (exit, proc, board) := role.run i budget b.proc b.board
    (some exit, ⟨proc, board⟩)
  | .load addr src => (none, { b with board := (Board.bus.write addr src b.board).2 })
  | .raise e => (none, { b with board := b.board.raise i e })
  | .assign regs rip flags halted =>
    (none, { b with proc.cpu := { b.proc.cpu.setRip rip with regs, flags, halted } })
  | .flush which => (none, if which = role then { b with proc := b.proc.dropTraces } else b)

def shown (i : Nat) (b : Bench γ δ) (exit : Option Exit) : Shown :=
  ⟨exit, b.proc.cpu, b.board.mem.ram.bytes, b.proc.retired, (Board.line i).events b.board⟩

/-- What there is to see after each of the operations, and what is there in the end. -/
def play (role : Role) (i : Nat) (b : Bench γ δ) : List Op → List Shown × Bench γ δ
  | [] => ([], b)
  | op :: ops =>
    let (exit, b) := b.act role i op
    let (rest, last) := b.play role i ops
    (b.shown i exit :: rest, last)

/-- Whatever the processor does next, each instruction that it comes to is the one that it would fetch and
decode at that moment. -/
def Refetches (i : Nat) (b : Bench γ δ) : Prop :=
  ∀ limit point p w, Processor.Visits (Board.unwatched .toCaller i) limit b.proc b.board point p w →
    w.mem.ram.stamps.generation < 2 ^ 32 →
    ∀ index left generation branch, point = .record index left generation branch →
      ∃ record, p.cache.pool[index]? = some record ∧
        (p.refetch (Board.unwatched .toCaller i) w).1 = .ok record.instr

/-- A processor in order, and beside it one without a cache that cannot be told from it. -/
structure Beside (b q : Bench γ δ) : Prop where
  counted : b.board.Counted
  unwrapped : b.board.mem.ram.stamps.lag = 0
  sound : b.proc.Sound (Regime.identity γ δ .unmapped) b.board
  alike : b.proc.Alike q.proc
  boards : b.board.Matches q.board

variable {b q : Bench γ δ} {role : Role}

theorem Beside.shown (h : b.Beside q) (exit : Option Exit) : q.shown i exit = b.shown i exit := by
  unfold Bench.shown
  rw [h.alike.cpu, h.alike.retired, h.boards.agrees.bytes, h.boards.events]

theorem course_act (hrole : role ≠ .plain) (b : Bench γ δ) (op : Op) :
    (Regime.identity γ δ .unmapped).course b.board (b.act role i op).2.board := by
  cases op with
  | run budget =>
    have hcourse := Processor.course_run (i := i) (Regime.identity γ δ .unmapped).isCourse Guard.quiet_none
      (Delivery.keeps_toCaller (Regime.identity γ δ .unmapped).isCourse) budget b.proc b.board
    cases role with
    | left => exact hcourse
    | right => exact hcourse
    | plain => exact absurd rfl hrole
  | load addr src => exact (Regime.identity γ δ .unmapped).isCourse.write addr src b.board
  | raise e => exact (Regime.identity γ δ .unmapped).isCourse.quiet rfl
  | assign => exact (Regime.identity γ δ .unmapped).isCourse.quiet rfl
  | flush which =>
    refine (Regime.identity γ δ .unmapped).isCourse.quiet ?_
    unfold act
    dsimp only
    split <;> rfl

theorem course_play (hrole : role ≠ .plain) (b : Bench γ δ) (ops : List Op) :
    (Regime.identity γ δ .unmapped).course b.board (b.play role i ops).2.board := by
  induction ops generalizing b with
  | nil => exact (Regime.identity γ δ .unmapped).isCourse.quiet rfl
  | cons op ops ih =>
    exact (Regime.identity γ δ .unmapped).isCourse.trans (course_act hrole b op) (ih (b.act role i op).2)

/-- After each operation they are as before. -/
theorem Beside.act (h : b.Beside q) (hrole : role ≠ .plain) (op : Op)
    (hlag : (b.act role i op).2.board.mem.ram.stamps.lag = 0) :
    (q.act .plain i op).1 = (b.act role i op).1 ∧ (b.act role i op).2.Beside (q.act .plain i op).2 := by
  have hcourse := course_act (i := i) hrole b op
  have hcounted := h.counted.passes hcourse.1
  have hsame : (b.act role i op).2.board.mem.ram.stamps.lag = b.board.mem.ram.stamps.lag := hlag.trans h.unwrapped.symm
  cases op with
  | run budget =>
    have hrun : Bench.act role i b (.run budget) = (some (b.proc.run (Board.unwatched .toCaller i) budget b.board).1,
        ⟨(b.proc.run (Board.unwatched .toCaller i) budget b.board).2.1,
          (b.proc.run (Board.unwatched .toCaller i) budget b.board).2.2⟩) := by
      cases role with
      | left => rfl
      | right => rfl
      | plain => exact absurd rfl hrole
    rw [hrun] at hlag hsame hcounted ⊢
    have htame := Delivery.tame_toCaller (Regime.identity γ δ .unmapped)
    obtain ⟨hexit, halike, hboards⟩ := Processor.agree_run Delivery.blind_toCaller htame budget h.sound h.alike h.boards
      hsame
    have hsound := (Processor.sound_run Guard.quiet_none htame budget h.sound hsame).2
    exact ⟨congrArg some hexit, hcounted, hlag, hsound, halike, hboards⟩
  | load addr src => exact ⟨rfl, hcounted, hlag, h.sound.goesOn hcourse hsame, h.alike, (h.boards.write addr src).2⟩
  | raise e =>
    refine ⟨rfl, hcounted, hlag, h.sound.of_mem rfl, h.alike, ?_⟩
    show (b.board.raise i e).Matches (q.board.raise i e)
    unfold Board.raise EventLine.raise
    rw [h.boards.events]
    exact h.boards.set i _
  | assign regs rip flags halted =>
    have hcontext : b.proc.cpu.SameContext { b.proc.cpu.setRip rip with regs, flags, halted } :=
      ⟨rfl, rfl, rfl, rfl, rfl⟩
    refine ⟨rfl, hcounted, hlag, ?_, ⟨?_, h.alike.retired, h.alike.interval, h.alike.decode⟩, h.boards⟩
    · exact h.sound.assigned hcontext ((Regime.identity γ δ .unmapped).moves h.sound.cpu hcontext (Or.inr ⟨rip, rfl⟩))
    · show ({ q.proc.cpu.setRip rip with regs, flags, halted } : Cpu) =
        { b.proc.cpu.setRip rip with regs, flags, halted }
      rw [h.alike.cpu]
  | flush which =>
    have hdropped : ∀ (p : Processor), p.Alike p.dropTraces := fun p => ⟨rfl, rfl, rfl, rfl⟩
    have hdrop : ∀ (b : Bench γ δ) role, b.proc.Alike (Bench.act role i b (.flush which)).2.proc ∧
        (Bench.act role i b (.flush which)).2.board = b.board := by
      intro b role
      unfold Bench.act
      dsimp only
      split
      · exact ⟨hdropped b.proc, rfl⟩
      · exact ⟨.refl b.proc, rfl⟩
    refine ⟨rfl, hcounted, hlag, ?_, ?_, ?_⟩
    · unfold Bench.act
      dsimp only
      split
      · exact h.sound.dropTraces
      · exact h.sound
    · exact ((hdrop b role).1.symm.trans h.alike).trans (hdrop q .plain).1
    · rw [(hdrop b role).2, (hdrop q .plain).2]
      exact h.boards

theorem Beside.play (h : b.Beside q) (hrole : role ≠ .plain) (ops : List Op)
    (hlag : (b.play role i ops).2.board.mem.ram.stamps.lag = 0) :
    (q.play .plain i ops).1 = (b.play role i ops).1 ∧ (b.play role i ops).2.Beside (q.play .plain i ops).2 := by
  induction ops generalizing b q with
  | nil => exact ⟨rfl, h⟩
  | cons op ops ih =>
    have hle := (Regime.identity γ δ .unmapped).lag_le (course_act (i := i) hrole b op)
    have hle' := (Regime.identity γ δ .unmapped).lag_le (course_play (i := i) hrole (b.act role i op).2 ops)
    have hlag : ((b.act role i op).2.play role i ops).2.board.mem.ram.stamps.lag = 0 := hlag
    have hzero := h.unwrapped
    obtain ⟨hexit, hbeside⟩ := h.act (i := i) hrole op (by omega)
    obtain ⟨hrest, hlast⟩ := ih hbeside hlag
    refine ⟨?_, hlast⟩
    show ((q.act .plain i op).2.shown i (q.act .plain i op).1 :: ((q.act .plain i op).2.play .plain i ops).1) =
      ((b.act role i op).2.shown i (b.act role i op).1 :: ((b.act role i op).2.play role i ops).1)
    rw [hrest, hexit, hbeside.shown]

theorem Beside.refetches (h : b.Beside q) : b.Refetches i := by
  intro limit point p w hv hfew index left generation branch hpoint
  have htame := Delivery.tame_toCaller (Regime.identity γ δ .unmapped)
  have hcourse := Processor.course_of_visits Guard.quiet_none htame hv
  have hlag := (h.counted.passes hcourse.1).lag_eq hfew
  obtain ⟨-, hsound, hready⟩ := Processor.sound_of_visits Guard.quiet_none htame h.sound hv
    (hlag.trans h.unwrapped.symm)
  subst hpoint
  obtain ⟨-, t, k, n, hon⟩ := hready
  exact hon.refetch Guard.quiet_none hsound

/-- A new processor on new memory, beside any that has the same state, is retired as far and looks for
events as often. -/
theorem beside_new {id : Nat} {config : CoreConfig} {cpu : Cpu} {p p' : Processor} {w : Board γ δ}
    (hnew : Processor.new id config cpu = .ok p) (hp : p.Alike p') (hw : w.Fresh)
    (hshort : cpu.codeSize = .b16 → cpu.cs.limit.toNat ≤ 0xFFFF) (hrip : cpu.Masked cpu.rip) :
    Beside ⟨p, w⟩ ⟨p', w⟩ := by
  obtain ⟨n, hstamps⟩ := hw.stamps
  have hlag : w.mem.ram.stamps.lag = 0 := by
    rw [hstamps]
    exact StampTable.lag_ofPages n
  have hsound : p.Sound (Regime.identity γ δ .unmapped) w :=
    Processor.sound_new hnew ⟨hshort, hrip⟩ hw.unmapped hw.tracked
  exact ⟨⟨0, by rw [hlag]; rfl⟩, hlag, hsound, hp, .refl w⟩

theorem alike_new {id id' : Nat} {config config' : CoreConfig} {cpu : Cpu} {p p' : Processor}
    (hnew : Processor.new id config cpu = .ok p) (hnew' : Processor.new id' config' cpu = .ok p')
    (hinterval : config'.repeatInterval = config.repeatInterval) : p.Alike p' := by
  unfold Processor.new Processor.withDecoder at hnew hnew'
  cases hv : config.validate with
  | error e => rw [hv] at hnew; cases hnew
  | ok _ =>
    cases hv' : config'.validate with
    | error e => rw [hv'] at hnew'; cases hnew'
    | ok _ =>
      rw [hv] at hnew
      rw [hv'] at hnew'
      cases hnew
      cases hnew'
      exact ⟨rfl, rfl, hinterval, rfl⟩

/-- Two new processors of the same state on the same memory, with caches of whatever sizes, are alike after
each of a series of operations, and like one that has no cache. What they come to execute is what they
would fetch and decode at that moment. Both need that fewer than 2^32 stores hit cached code. -/
theorem play_eq_of_new {id id' : Nat} {config config' : CoreConfig} {cpu : Cpu} {p p' : Processor} {w : Board γ δ}
    (hnew : Processor.new id config cpu = .ok p) (hnew' : Processor.new id' config' cpu = .ok p')
    (hinterval : config'.repeatInterval = config.repeatInterval) (hw : w.Fresh)
    (hshort : cpu.codeSize = .b16 → cpu.cs.limit.toNat ≤ 0xFFFF) (hrip : cpu.Masked cpu.rip) (i : Nat) (ops : List Op)
    (hfew : (play .left i ⟨p, w⟩ ops).2.board.mem.ram.stamps.generation < 2 ^ 32)
    (hfew' : (play .right i ⟨p', w⟩ ops).2.board.mem.ram.stamps.generation < 2 ^ 32) :
    (play .left i ⟨p, w⟩ ops).1 = (play .right i ⟨p', w⟩ ops).1 ∧
      (play .left i ⟨p, w⟩ ops).1 = (play .plain i ⟨p, w⟩ ops).1 ∧
        (play .left i ⟨p, w⟩ ops).2.Refetches i ∧ (play .right i ⟨p', w⟩ ops).2.Refetches i := by
  have hunwrapped : ∀ {role : Role} {b : Bench γ δ}, role ≠ .plain → b.board.Counted →
      (play role i b ops).2.board.mem.ram.stamps.generation < 2 ^ 32 →
        (play role i b ops).2.board.mem.ram.stamps.lag = 0 :=
    fun hrole hcounted hfew => (hcounted.passes (course_play hrole _ ops).1).lag_eq hfew
  have hleft := beside_new hnew (.refl p) hw hshort hrip
  have hright := beside_new hnew' (alike_new hnew hnew' hinterval).symm hw hshort hrip
  obtain ⟨hplain, hlast⟩ := hleft.play (show Role.left ≠ .plain by decide) ops
    (hunwrapped (by decide) hleft.counted hfew)
  obtain ⟨hplain', hlast'⟩ := hright.play (show Role.right ≠ .plain by decide) ops
    (hunwrapped (by decide) hright.counted hfew')
  exact ⟨hplain.symm.trans hplain', hplain.symm, hlast.refetches, hlast'.refetches⟩

/-- A processor whose traces have one instruction each, or as many as four. -/
def counting (maxTraceLen : Nat) : Processor :=
  let config : CoreConfig := { traceSlots := 4, recordPool := 8, maxTraceLen }
  { id := 0, config, decode := decodeInstr, cpu := .new .protectedMode, window := .empty, cache := .new config
    linker := .new config, retired := 0, resume := false }

def blankPage : Board Unit Unit := ⟨{ ram := .zeroPage }, (), (), #[{}]⟩

/-- `inc eax` and a jump back to it. Later it becomes `dec eax`. -/
def upAndDown : List Op :=
  [.load 0 [0x40, 0xEB, 0xFD], .run 5, .flush .left, .load 0 [0x48], .raise .stopTrace, .run 5]

theorem play_eq_upAndDown :
    (play .left 0 ⟨counting 1, blankPage⟩ upAndDown).1 = (play .right 0 ⟨counting 4, blankPage⟩ upAndDown).1 := by
  have hnew : Processor.new 0 (counting 1).config (.new .protectedMode) = .ok (counting 1) := rfl
  have hnew' : Processor.new 0 (counting 4).config (.new .protectedMode) = .ok (counting 4) := rfl
  refine (play_eq_of_new hnew hnew' rfl ⟨rfl, ⟨?_, ?_⟩, 1, rfl⟩ nofun rfl 0 upAndDown ?_ ?_).1
  · simp [blankPage, Ram.zeroPage, StampTable.ofPages, pageSize]
  · simp [blankPage, Ram.zeroPage]
  · decide +kernel
  · decide +kernel

end Bench

end TraceCore
