/-
Breakpoints are transparent. A debugger that stops before the instructions at chosen addresses, and goes on each time,
sees each of them as often as it is executed, and the program comes to the end that it comes to without one. Both
processors, with the debugger and without, keep beside one that has no cache; so it does not matter that a stop cuts
traces, or that others are built where it goes on.
-/
import TraceCore.Proofs.Processor.Progress
import TraceCore.Proofs.Processor.Slices

namespace TraceCore

/-- What a debugger sees of a processor and its memory. -/
structure Sight where
  cpu : Cpu
  retired : Nat
  bytes : Array UInt8

namespace Processor

variable {γ δ : Type}

def sight (p : Processor) (w : Board γ δ) : Sight := ⟨p.cpu, p.retired, w.mem.ram.bytes⟩

/-- The step from here executes an instruction: there is one, and no debugger stops before it. -/
def executesAt {ω : Type} (s : Socket ω) (point : Point) (p : Processor) (w : ω) : Bool :=
  match point with
  | .boundary => false
  | .record index _ _ _ =>
    match p.cache.pool[index]? with
    | none => false
    | some record => !(p.stopsAt s p.cpu.rip record.instr.len w).1

/-- Runs without a budget, and after each breakpoint goes past it, at most `n` times: what is seen at each stop, and
what the program comes to. -/
def debug (s : Socket (Board γ δ)) : (n : Nat) → Processor → Board γ δ → List Sight × Exit × Processor × Board γ δ
  | 0, p, w => ([], .breakpoint, p, w)
  | n + 1, p, w =>
    match p.run s (2 ^ 64 - 1) w with
    | (.breakpoint, p, w) =>
      let (stops, out) := debug s n p.skipBreakpoint w
      (p.sight w :: stops, out)
    | out => ([], out)

variable {L : Layout} {d : Delivery (Board γ δ)} {stops : UInt64 → Bool} {i limit : Nat} {p p' q : Processor}
    {w w' v : Board γ δ} {point : Point} {exit : Exit} {qf : Processor} {vf : Board γ δ}

/-! ## Steps with the debugger and without -/

/-- The processor without a cache executes an instruction next. -/
structure Executing (d : Delivery (Board γ δ)) (i limit : Nat) (q : Processor) (v : Board γ δ) : Prop where
  free : Free (Board.unwatched d i) limit q v
  fetched : ∃ instr, (q.refetch (Board.unwatched d i) v).1 = .ok instr

/-- It comes to its end, and the instructions that it executes on the way are those that are listed. -/
inductive Goes (d : Delivery (Board γ δ)) (i limit : Nat) (exit : Exit) (qf : Processor) (vf : Board γ δ) :
    List Sight → Processor → Board γ δ → Prop
  | idle {q : Processor} {v : Board γ δ} (none : ¬q.Executing d i limit v)
      (steps : q.stepPlain (Board.unwatched d i) limit v = (.leave exit, qf, vf)) : Goes d i limit exit qf vf [] q v
  | skip {q q' : Processor} {v v' : Board γ δ} {point : Point} {T : List Sight} (none : ¬q.Executing d i limit v)
      (steps : q.stepPlain (Board.unwatched d i) limit v = (.goto point, q', v'))
      (rest : Goes d i limit exit qf vf T q' v') : Goes d i limit exit qf vf T q v
  | last {q : Processor} {v : Board γ δ} (executing : q.Executing d i limit v)
      (steps : q.stepPlain (Board.unwatched d i) limit v = (.leave exit, qf, vf)) :
      Goes d i limit exit qf vf [q.sight v] q v
  | next {q q' : Processor} {v v' : Board γ δ} {point : Point} {T : List Sight} (executing : q.Executing d i limit v)
      (steps : q.stepPlain (Board.unwatched d i) limit v = (.goto point, q', v'))
      (rest : Goes d i limit exit qf vf T q' v') : Goes d i limit exit qf vf (q.sight v :: T) q v

/-- A processor at a point, with the one that has no cache beside it. Nothing is pending. -/
structure Paired (L : Layout) (d : Delivery (Board γ δ)) (i limit : Nat) (point : Point) (p : Processor)
    (w : Board γ δ) (q : Processor) (v : Board γ δ) : Prop where
  sound : p.Sound (Regime.identity γ δ L) w
  ready : p.Ready w point
  abreast : Abreast (Board.unwatched d i) limit p w q v point
  quiet : v.Quiet i

/-- Before a record, the instruction is the one that is fetched anew. -/
theorem Paired.executing {index left generation : Nat} {branch : Option Nat}
    (h : Paired L d i limit (.record index left generation branch) p w q v) :
    q.Executing d i limit v ∧ q.sight v = p.sight w ∧ p.Alike q ∧ w.Matches v ∧
      ∃ record, p.cache.pool[index]? = some record := by
  obtain ⟨hsound, ⟨-, t, k, n, hon⟩, habreast, hquiet⟩ := h
  cases habreast with
  | record q' v' served alike boards budget awake =>
    rw [serve_quiet hquiet] at served
    cases served
    obtain ⟨record, hrecord, hfetch⟩ := hon.refetch (d := d) (i := i) Guard.quiet_none hsound
    refine ⟨⟨⟨hquiet, ?_, ?_⟩, record.instr, (alike.refetch boards).trans hfetch⟩, ?_, alike, boards, record, hrecord⟩
    · rw [alike.retired]; exact budget
    · rw [alike.cpu]; exact awake
    · unfold sight
      rw [alike.cpu, alike.retired, boards.agrees.bytes]

theorem executesAt_unwatched {index left generation : Nat} {branch : Option Nat} {record : Record}
    (hfound : p.cache.pool[index]? = some record) (w : Board γ δ) :
    p.executesAt (Board.unwatched d i) (.record index left generation branch) w = true := by
  unfold executesAt
  dsimp only
  rw [hfound]
  dsimp only
  rw [stopsAt_unwatched]
  rfl

/-- A pair is at a boundary, where no instruction is executed, or at a record, where one is. -/
theorem Paired.here (h : Paired L d i limit point p w q v) :
    point = .boundary ∧ p.executesAt (Board.unwatched d i) point w = false ∨
      point ≠ .boundary ∧ p.executesAt (Board.unwatched d i) point w = true ∧ q.Executing d i limit v ∧
        q.sight v = p.sight w := by
  cases point with
  | boundary => exact Or.inl ⟨rfl, rfl⟩
  | record index left generation branch =>
    obtain ⟨hexec, hsight, -, -, record, hrecord⟩ := h.executing
    exact Or.inr ⟨nofun, executesAt_unwatched hrecord w, hexec, hsight⟩

/-- Some step is always left. -/
theorem Paired.pos (h : Paired L d i limit point p w q v) : 0 < stepsFrom (limit - p.retired) point := by
  cases h.abreast with
  | boundary => exact Nat.succ_pos _
  | record q' v' served alike boards budget awake =>
    show 0 < 2 * (limit - p.retired)
    omega

/-- The stops that are still ahead: none at the first instruction if the processor is to go past it. -/
def stopsAhead (stops : UInt64 → Bool) (resume : Bool) (T : List Sight) : List Sight :=
  (if resume then T.tail else T).filter (stops ·.cpu.rip)

/-- What comes of a run with the debugger: the end, if no stop is ahead, or the next stop. -/
inductive Paused (L : Layout) (d : Delivery (Board γ δ)) (stops : UInt64 → Bool) (i limit : Nat) (exit : Exit)
    (qf : Processor) (vf : Board γ δ) (ahead : List Sight) : Option Exit × Processor × Board γ δ → Prop
  | ended {p' : Processor} {w' : Board γ δ} (none : ahead = []) (alike : p'.Alike qf) (boards : w'.Matches vf) :
      Paused L d stops i limit exit qf vf ahead (some exit, p', w')
  | stopped {p' q' : Processor} {w' v' : Board γ δ} {T : List Sight}
      (here : ahead = p'.sight w' :: T.filter (stops ·.cpu.rip))
      (paired : Paired L d i limit .boundary p' w' q' v')
      (goes : Goes d i limit exit qf vf (p'.sight w' :: T) q' v') :
      Paused L d stops i limit exit qf vf ahead (some .breakpoint, p', w')

/-- At a stop, that is the first ahead. -/
theorem Paired.stopped {index left generation : Nat} {branch : Option Nat} {T : List Sight}
    (h : Paired L d i limit (.record index left generation branch) p w q v) (hgoes : Goes d i limit exit qf vf T q v)
    (hstop : p.resume = false ∧ stops p.cpu.rip = true) :
    Paused L d stops i limit exit qf vf (stopsAhead stops p.resume T) (some .breakpoint, p, w) := by
  obtain ⟨hexec, hsight, halike, hboards, -⟩ := h.executing
  obtain ⟨T', rfl⟩ : ∃ T', T = p.sight w :: T' := by
    cases hgoes with
    | idle none => exact absurd hexec none
    | skip none => exact absurd hexec none
    | last => exact ⟨[], by rw [hsight]⟩
    | @next _ _ _ _ _ T' => exact ⟨T', by rw [hsight]⟩
  refine .stopped ?_ ⟨h.sound, trivial, .boundary halike hboards, h.quiet⟩ hgoes
  unfold stopsAhead
  rw [hstop.1, if_neg Bool.false_ne_true]
  exact List.filter_cons_of_pos hstop.2

section

variable {s : Socket (Board γ δ)}

end

end Processor

end TraceCore
