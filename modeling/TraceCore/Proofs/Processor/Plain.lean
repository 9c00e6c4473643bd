/-
A processor without a cache: it fetches and decodes each instruction at the moment that it executes it.
What it does depends neither on stamp tables nor on anything else that only caches look at.
-/
import TraceCore.Proofs.Exec.Alike
import TraceCore.Proofs.Processor.Sound

namespace TraceCore

namespace Processor

variable {ω : Type}

/-- Executes an instruction, and hands over its fault. -/
def perform (s : Socket ω) (limit : Nat) (instr : Instr) (p : Processor) (w : ω) : Step × Processor × ω :=
  let rip := p.cpu.rip
  match p.execute s limit instr w with
  | (.error fault, _, p, w) => p.handFault s fault rip w
  | (.ok flow, watchHit, p, w) =>
    let p := if flow = .giveWay then p else { p with retired := p.retired + 1 }
    (if watchHit then .leave .breakpoint else .goto .boundary, p, w)

/-- Executes the instruction at the instruction pointer, fetched and decoded anew. -/
def stepInstr (s : Socket ω) (limit : Nat) (p : Processor) (w : ω) : Step × Processor × ω :=
  match p.refetch s w with
  | (.error fault, w) => p.handFault s fault p.cpu.rip w
  | (.ok instr, w) => p.perform s limit instr w

/-- What is pending, the halted state and the budget are looked at before each instruction. -/
def stepPlain (s : Socket ω) (limit : Nat) (p : Processor) (w : ω) : Step × Processor × ω :=
  match serve s p w with
  | (some exit, p, w) => (.leave exit, p, w)
  | (none, p, w) =>
    if p.cpu.halted then (.leave .halted, p, w)
    else if limit ≤ p.retired then (.leave .quantumExhausted, p, w)
    else p.stepInstr s limit w

/-- At most `n` instructions; no reason to exit if they do not suffice. -/
def runInstrs (s : Socket ω) (limit : Nat) : (n : Nat) → Processor → ω → Option Exit × Processor × ω
  | 0, p, w => (none, p, w)
  | n + 1, p, w =>
    match p.stepPlain s limit w with
    | (.leave exit, p, w) => (some exit, p, w)
    | (.goto _, p, w) => runInstrs s limit n p w

theorem runInstrs_of_leave {s : Socket ω} {limit : Nat} {p : Processor} {w : ω} {exit : Exit}
    (h : (p.stepPlain s limit w).1 = .leave exit) (n : Nat) :
    p.runInstrs s limit (n + 1) w = (some exit, (p.stepPlain s limit w).2) := by
  unfold runInstrs
  generalize p.stepPlain s limit w = out at h ⊢
  obtain ⟨next, p', w'⟩ := out
  obtain rfl : next = .leave exit := h
  rfl

theorem runInstrs_of_goto {s : Socket ω} {limit : Nat} {p : Processor} {w : ω} {point : Point}
    (h : (p.stepPlain s limit w).1 = .goto point) (n : Nat) :
    p.runInstrs s limit (n + 1) w = (p.stepPlain s limit w).2.1.runInstrs s limit n (p.stepPlain s limit w).2.2 := by
  conv_lhs => unfold runInstrs
  generalize p.stepPlain s limit w = out at h ⊢
  obtain ⟨next, p', w'⟩ := out
  obtain rfl : next = .goto point := h
  rfl

/-- Runs as `run` does, without a cache. -/
def runPlain (s : Socket ω) (budget : Nat) (p : Processor) (w : ω) : Exit × Processor × ω :=
  match runInstrs s (p.limitFor budget) (budget + 1) p w with
  | (some exit, p, w) => (exit, p, w)
  | (none, p, w) => (.quantumExhausted, p, w)

theorem runPlain_eq (s : Socket ω) (budget : Nat) (p : Processor) (w : ω) :
    p.runPlain s budget w = ((runInstrs s (p.limitFor budget) (budget + 1) p w).1.getD .quantumExhausted,
      (runInstrs s (p.limitFor budget) (budget + 1) p w).2) := by
  unfold runPlain
  rcases runInstrs s (p.limitFor budget) (budget + 1) p w with ⟨exit, p₁, w₁⟩
  cases exit <;> rfl

/-! ## Equal but for caches -/

/-- Nobody who looks at state, retired instructions and settings can tell the processors apart. -/
structure Alike (p q : Processor) : Prop where
  cpu : q.cpu = p.cpu
  retired : q.retired = p.retired
  interval : q.config.repeatInterval = p.config.repeatInterval
  decode : q.decode = p.decode

theorem Alike.refl (p : Processor) : p.Alike p := ⟨rfl, rfl, rfl, rfl⟩

theorem Alike.symm {p q : Processor} (h : p.Alike q) : q.Alike p :=
  ⟨h.cpu.symm, h.retired.symm, h.interval.symm, h.decode.symm⟩

theorem Alike.trans {p q r : Processor} (h : p.Alike q) (h' : q.Alike r) : p.Alike r :=
  ⟨h'.cpu.trans h.cpu, h'.retired.trans h.retired, h'.interval.trans h.interval, h'.decode.trans h.decode⟩

end Processor

namespace Board

variable {γ δ : Type} {w v u : Board γ δ}

/-- The socket of a processor that no debugger watches. -/
abbrev unwatched (d : Delivery (Board γ δ)) (i : Nat) : Socket (Board γ δ) := socket .none d i

/-- The boards differ at most in their stamp tables. -/
def Matches (w v : Board γ δ) : Prop := ∃ t, v = bus.mapStamps (fun _ => t) w

theorem Matches.refl (w : Board γ δ) : w.Matches w := ⟨w.mem.ram.stamps, rfl⟩

theorem Matches.symm (h : w.Matches v) : v.Matches w := by
  obtain ⟨t, rfl⟩ := h
  exact ⟨w.mem.ram.stamps, rfl⟩

theorem Matches.trans (h : w.Matches v) (h' : v.Matches u) : w.Matches u := by
  obtain ⟨t, rfl⟩ := h
  obtain ⟨t', rfl⟩ := h'
  exact ⟨t', rfl⟩

theorem Matches.agrees (h : w.Matches v) : w.mem.Agrees v.mem := by
  obtain ⟨t, rfl⟩ := h
  exact ⟨rfl, rfl⟩

theorem Matches.lines (h : w.Matches v) : v.lines = w.lines := by
  obtain ⟨t, rfl⟩ := h
  rfl

theorem Matches.delivery (h : w.Matches v) : v.delivery = w.delivery := by
  obtain ⟨t, rfl⟩ := h
  rfl

theorem Matches.events (h : w.Matches v) (i : Nat) : (line i).events v = (line i).events w := by
  obtain ⟨t, rfl⟩ := h
  rfl

theorem Matches.set (h : w.Matches v) (i : Nat) (e : Events) : ((line i).set e w).Matches ((line i).set e v) := by
  obtain ⟨t, rfl⟩ := h
  exact ⟨t, rfl⟩

/-- A store stores the same, whatever the stamp table makes of it. -/
theorem write_mapStamps (m : MappedRam) (t : StampTable) (addr : UInt64) (src : List UInt8) :
    ∃ t', (m.mapStamps fun _ => t).write addr src =
      ((m.write addr src).1, (m.write addr src).2.mapStamps fun _ => t') := by
  have hfits : Ram.fits { m.ram with stamps := t } addr src.length = m.ram.fits addr src.length := rfl
  unfold MappedRam.write MappedRam.mapStamps Ram.write
  dsimp only
  rw [hfits]
  split
  case isTrue => exact ⟨t.store addr src.length, rfl⟩
  case isFalse => exact ⟨t, rfl⟩

theorem Matches.write (h : w.Matches v) (addr : UInt64) (src : List UInt8) :
    Answers Matches (bus.write addr src w) (bus.write addr src v) := by
  obtain ⟨t, rfl⟩ := h
  obtain ⟨t', ht'⟩ := write_mapStamps w.mem t addr src
  refine ⟨(congrArg Prod.fst ht').symm, t', ?_⟩
  show { w with mem := ((w.mem.mapStamps fun _ => t).write addr src).2 } = _
  rw [ht']
  rfl

theorem alike_unwatched (d : Delivery (Board γ δ)) (i : Nat) : (unwatched d i).Alike Matches (unwatched d i) where
  translate linear access cpl w v h := ⟨(h.agrees.translate linear access cpl).symm, h⟩
  read addr len w v h := by
    refine ⟨?_, h⟩
    obtain ⟨t, rfl⟩ := h
    rfl
  write addr src w v h := h.write addr src
  watches _ _ _ _ h := ⟨rfl, h⟩
  events w v h := (h.events i).symm

end Board

variable {γ δ : Type} {d : Delivery (Board γ δ)} {i : Nat} {p q : Processor} {w v : Board γ δ}

/-- The delivery does not look at stamp tables. -/
structure Delivery.Blind (d : Delivery (Board γ δ)) : Prop where
  events : ∀ i cpu {w v}, Board.Matches w v → (d.events (Board.line i) cpu v).1 = (d.events (Board.line i) cpu w).1 ∧
    Answers Board.Matches (d.events (Board.line i) cpu w).2 (d.events (Board.line i) cpu v).2
  fault : ∀ fault rip cpu {w v}, Board.Matches w v → (d.fault fault rip cpu v).1 = (d.fault fault rip cpu w).1 ∧
    Answers Board.Matches (d.fault fault rip cpu w).2 (d.fault fault rip cpu v).2

theorem Delivery.blind_toCaller : (Delivery.toCaller : Delivery (Board γ δ)).Blind := by
  refine ⟨fun i cpu w v h => ?_, fun fault rip cpu w v h => ⟨rfl, rfl, h⟩⟩
  have hsame := h.events i
  unfold Delivery.toCaller EventLine.take
  dsimp only
  rw [hsame]
  exact ⟨rfl, rfl, h.set i _⟩

namespace Processor

/-- The same outcome, processors that cannot be told apart, and boards that match. -/
structure Agree {α : Type} (x : α × Processor × Board γ δ) (y : α × Processor × Board γ δ) : Prop where
  outcome : y.1 = x.1
  procs : x.2.1.Alike y.2.1
  boards : x.2.2.Matches y.2.2

theorem agree_serve (hd : d.Blind) (hp : p.Alike q) (hw : w.Matches v) :
    Agree (serve (Board.unwatched d i) p w) (serve (Board.unwatched d i) q v) := by
  have hstay : ∀ {w v : Board γ δ}, w.Matches v → ∀ exit : Option Exit, Agree (exit, p, w) (exit, q, v) :=
    fun h _ => ⟨rfl, hp, h⟩
  unfold serve EventLine.clear EventLine.take
  dsimp only
  rw [show (Board.unwatched d i).line = Board.line i from rfl, show (Board.unwatched d i).delivery = d from rfl,
    hw.events i]
  split
  case isTrue => exact hstay hw none
  case isFalse =>
    have hcleared := hw.set i ((Board.line i).events w \ .stopTrace)
    rw [hcleared.events i]
    have htaken := hcleared.set i
      (((Board.line i).events ((Board.line i).set ((Board.line i).events w \ .stopTrace) w)).take .debugStop).2
    split
    case isTrue => exact hstay htaken _
    case isFalse =>
      split
      case isFalse => exact hstay htaken none
      case isTrue =>
        rw [hp.cpu]
        obtain ⟨hanswer, hcpu, hworld⟩ := hd.events i p.cpu htaken
        generalize d.events (Board.line i) p.cpu _ = out at hanswer hcpu hworld ⊢
        generalize d.events (Board.line i) p.cpu _ = out' at hanswer hcpu hworld ⊢
        obtain ⟨handling, cpu, w'⟩ := out
        obtain ⟨handling', cpu', v'⟩ := out'
        dsimp only at hanswer hcpu hworld
        subst hanswer hcpu
        cases handling with
        | resume => exact ⟨rfl, ⟨rfl, hp.retired, hp.interval, hp.decode⟩, hworld⟩
        | exit => exact ⟨rfl, ⟨rfl, hp.retired, hp.interval, hp.decode⟩, hworld⟩

theorem agree_handFault (hd : d.Blind) (hp : p.Alike q) (hw : w.Matches v) (fault : Fault) (rip : UInt64) :
    Agree (handFault (Board.unwatched d i) fault rip p w) (handFault (Board.unwatched d i) fault rip q v) := by
  unfold handFault
  dsimp only
  rw [show (Board.unwatched d i).delivery = d from rfl, hp.cpu]
  obtain ⟨hanswer, hcpu, hworld⟩ := hd.fault fault rip p.cpu hw
  generalize d.fault fault rip p.cpu w = out at hanswer hcpu hworld ⊢
  generalize d.fault fault rip p.cpu v = out' at hanswer hcpu hworld ⊢
  obtain ⟨answer, cpu, w'⟩ := out
  obtain ⟨answer', cpu', v'⟩ := out'
  dsimp only at hanswer hcpu hworld
  subst hanswer hcpu
  cases answer' <;> exact ⟨rfl, ⟨rfl, congrArg (· + 1) hp.retired, hp.interval, hp.decode⟩, hworld⟩

theorem agree_execute (hp : p.Alike q) (hw : w.Matches v) (limit : Nat) (instr : Instr) :
    (q.execute (Board.unwatched d i) limit instr v).2.1 = (p.execute (Board.unwatched d i) limit instr w).2.1 ∧
      Agree ((p.execute (Board.unwatched d i) limit instr w).1, (p.execute (Board.unwatched d i) limit instr w).2.2)
        ((q.execute (Board.unwatched d i) limit instr v).1, (q.execute (Board.unwatched d i) limit instr v).2.2) := by
  obtain ⟨hcpu, hretired, hinterval, hdecode⟩ := hp
  have hsame := Exec.same_instr (Board.alike_unwatched d i)
    { rip := p.cpu.rip, limit, interval := p.config.repeatInterval } instr
    { cpu := p.cpu.setRip (p.cpu.rip + UInt64.ofNat instr.len), world := w, retired := p.retired }
    { cpu := p.cpu.setRip (p.cpu.rip + UInt64.ofNat instr.len), world := v, retired := p.retired } ⟨rfl, hw, rfl, rfl⟩
  obtain ⟨hres, hrun, -⟩ := hsame
  unfold execute
  rw [hcpu, hretired, hinterval]
  exact ⟨hrun.watchHit.symm, hres.symm, ⟨hrun.cpu.symm, hrun.retired.symm, hinterval, hdecode⟩, hrun.world⟩

/-! ## The instruction at the instruction pointer -/

/-- Fetching and decoding anew leaves the board alone. -/
theorem refetch_world (p : Processor) (w : Board γ δ) : (p.refetch (Board.unwatched d i) w).2 = w := by
  have hworld := Board.openWindow_none p.cpu p.cpu.rip w
  unfold refetch
  rcases ho : openWindow Board.bus .none p.cpu p.cpu.rip w with ⟨r, w'⟩
  rw [ho] at hworld
  obtain rfl : w' = w := hworld
  rw [show openWindow (Board.unwatched d i).bus (Board.unwatched d i).guard p.cpu p.cpu.rip w' = _ from ho]
  cases r with
  | error e => rfl
  | ok window => exact world_decodeAt (fun rip w => Board.openWindow_none p.cpu rip w) _ _ _

theorem Alike.refetch (hp : p.Alike q) (hw : w.Matches v) :
    (q.refetch (Board.unwatched d i) v).1 = (p.refetch (Board.unwatched d i) w).1 := by
  have hview := hw.agrees.fetchView p.cpu p.cpu.rip
  cases h : w.mem.fetchView p.cpu p.cpu.rip with
  | error e =>
    have h' : v.mem.fetchView q.cpu q.cpu.rip = .error e := by rw [hp.cpu, hview, h]
    rw [refetch_error h, refetch_error h']
  | ok place =>
    obtain ⟨addr, n⟩ := place
    have h' : v.mem.fetchView q.cpu q.cpu.rip = .ok (addr, n) := by rw [hp.cpu, hview, h]
    rw [refetch_ok Guard.quiet_none h, refetch_ok Guard.quiet_none h', hp.cpu, hp.decode]
    exact Board.decodeAt_congr Guard.quiet_none Guard.quiet_none hw.agrees _ _

/-- What a processor without a cache executes next. -/
theorem stepInstr_of_ok {limit : Nat} {instr : Instr} (h : (p.refetch (Board.unwatched d i) w).1 = .ok instr) :
    p.stepInstr (Board.unwatched d i) limit w = p.perform (Board.unwatched d i) limit instr w := by
  have hworld := refetch_world (d := d) (i := i) p w
  unfold stepInstr
  generalize p.refetch (Board.unwatched d i) w = out at h hworld ⊢
  obtain ⟨r, w'⟩ := out
  obtain rfl : w' = w := hworld
  obtain rfl : r = .ok instr := h
  rfl

theorem stepInstr_of_error {limit : Nat} {fault : Fault} (h : (p.refetch (Board.unwatched d i) w).1 = .error fault) :
    p.stepInstr (Board.unwatched d i) limit w = p.handFault (Board.unwatched d i) fault p.cpu.rip w := by
  have hworld := refetch_world (d := d) (i := i) p w
  unfold stepInstr
  generalize p.refetch (Board.unwatched d i) w = out at h hworld ⊢
  obtain ⟨r, w'⟩ := out
  obtain rfl : w' = w := hworld
  obtain rfl : r = .error fault := h
  rfl

end Processor

end TraceCore
