/-
A processor that gives way after each iteration of a repeated instruction. Whatever the budget and however
rarely a processor looks for events, it goes through the states that this one goes through, as long as no
repeated instruction is gone before it is through.
-/
import TraceCore.Proofs.Exec.Iterate
import TraceCore.Proofs.Processor.Plain

namespace TraceCore

namespace Processor

variable {γ δ : Type} {d : Delivery (Board γ δ)} {i : Nat} {p p' q q' : Processor} {w w' v v' : Board γ δ}
    {instr : Instr}

/-! ## Single steps -/

/-- The processor with one iteration of a repeated instruction at a time. -/
def single (p : Processor) : Processor := { p with config.repeatInterval := 1 }

/-- One instruction, or one iteration of it. -/
def stepSingle {ω : Type} (s : Socket ω) (p : Processor) (w : ω) : Step × Processor × ω :=
  if p.cpu.halted then (.leave .halted, p.single, w) else p.single.stepInstr s 0 w

/-- An instruction that gave way is still there. -/
def Stays {ω : Type} (s : Socket ω) (p : Processor) (w : ω) (p' : Processor) (w' : ω) : Prop :=
  ∀ instr hit, (p.refetch s w).1 = .ok instr → p.single.execute s 0 instr w = (.ok .giveWay, hit, p', w') →
    (p'.refetch s w').1 = .ok instr

/-- So many single steps lead from one state to another. -/
inductive Walks {ω : Type} (s : Socket ω) : Nat → Processor → ω → Processor → ω → Prop
  | refl (p : Processor) (w : ω) : Walks s 0 p w p w
  | step {n : Nat} {p p' p'' : Processor} {w w' w'' : ω} {next : Point}
      (steps : p.stepSingle s w = (.goto next, p', w')) (stays : p.Stays s w p' w')
      (rest : Walks s n p' w' p'' w'') : Walks s (n + 1) p w p'' w''

/-- So many single steps, and then one that leaves. -/
inductive Ends {ω : Type} (s : Socket ω) (exit : Exit) (p' : Processor) (w' : ω) : Nat → Processor → ω → Prop
  | leave {p : Processor} {w : ω} (steps : p.stepSingle s w = (.leave exit, p', w')) : Ends s exit p' w' 0 p w
  | step {n : Nat} {p p₁ : Processor} {w w₁ : ω} {next : Point} (steps : p.stepSingle s w = (.goto next, p₁, w₁))
      (stays : p.Stays s w p₁ w₁) (rest : Ends s exit p' w' n p₁ w₁) : Ends s exit p' w' (n + 1) p w

section

variable {ω : Type} {s : Socket ω} {exit : Exit} {m n : Nat} {a b c : Processor} {x y z : ω}

theorem Walks.trans (h : Walks s m a x b y) (h' : Walks s n b y c z) : Walks s (m + n) a x c z := by
  induction h with
  | refl => rwa [Nat.zero_add]
  | step steps stays _ ih =>
    rw [Nat.add_right_comm]
    exact .step steps stays (ih h')

theorem Walks.ends (h : Walks s m a x b y) (h' : Ends s exit c z n b y) : Ends s exit c z (n + m) a x := by
  induction h with
  | refl => exact h'
  | step steps stays _ ih => exact .step steps stays (ih h')

/-- There is only one way to go. -/
theorem Ends.walks (h : Ends s exit c z n a x) (h' : Walks s m a x b y) : ∃ k, n = k + m ∧ Ends s exit c z k b y := by
  induction h' generalizing n with
  | refl => exact ⟨n, rfl, h⟩
  | step steps stays _ ih =>
    cases h with
    | leave steps' => rw [steps] at steps'; cases steps'
    | step steps' stays' rest =>
      rw [steps] at steps'
      cases steps'
      obtain ⟨k, hk, hends⟩ := ih rest
      exact ⟨k, by omega, hends⟩

end

/-! ## What a single step does -/

section

variable {ω : Type} {s : Socket ω}

theorem stepSingle_of_halted (h : p.cpu.halted = true) (w : ω) : p.stepSingle s w = (.leave .halted, p.single, w) :=
  if_pos h

theorem stepSingle_of_awake (h : p.cpu.halted = false) (w : ω) : p.stepSingle s w = p.single.stepInstr s 0 w :=
  if_neg (ne_true_of_eq_false h)

end

/-- The outcome, for a processor with one iteration at a time. -/
def singly (out : Step × Processor × Board γ δ) : Step × Processor × Board γ δ := (out.1, out.2.1.single, out.2.2)

theorem singly_handFault (s : Socket (Board γ δ)) (fault : Fault) (rip : UInt64) (p : Processor) (w : Board γ δ) :
    p.single.handFault s fault rip w = singly (p.handFault s fault rip w) := by
  unfold handFault singly
  dsimp only
  rw [show p.single.cpu = p.cpu from rfl]
  split
  case h_1 => rfl
  case h_2 => rfl
  case h_3 => rfl

/-- What follows the execution of an instruction. -/
def concluded (s : Socket (Board γ δ)) (rip : UInt64) (out : Except Fault Flow × Bool × Processor × Board γ δ) :
    Step × Processor × Board γ δ :=
  match out with
  | (.error fault, _, p, w) => p.handFault s fault rip w
  | (.ok flow, watchHit, p, w) =>
    let p := if flow = .giveWay then p else { p with retired := p.retired + 1 }
    (if watchHit then .leave .breakpoint else .goto .boundary, p, w)

theorem perform_eq (s : Socket (Board γ δ)) (limit : Nat) (instr : Instr) (p : Processor) (w : Board γ δ) :
    p.perform s limit instr w = concluded s p.cpu.rip (p.execute s limit instr w) := by
  unfold perform concluded
  rcases p.execute s limit instr w with ⟨x, hit, p', w'⟩
  cases x <;> rfl

theorem singly_concluded (s : Socket (Board γ δ)) (rip : UInt64) (x : Except Fault Flow) (hit : Bool) (p : Processor)
    (w : Board γ δ) : concluded s rip (x, hit, p.single, w) = singly (concluded s rip (x, hit, p, w)) := by
  cases x with
  | error fault => exact singly_handFault s fault rip p w
  | ok flow =>
    unfold concluded singly
    by_cases hflow : flow = .giveWay
    · simp only [if_pos hflow]
    · simp only [if_neg hflow]
      rfl

theorem stepSingle_of_ok (hawake : q.cpu.halted = false) (hfetch : (q.refetch (Board.unwatched d i) w).1 = .ok instr) :
    q.stepSingle (Board.unwatched d i) w =
      concluded (Board.unwatched d i) q.cpu.rip (q.single.execute (Board.unwatched d i) 0 instr w) := by
  have hfetch' : (q.single.refetch (Board.unwatched d i) w).1 = .ok instr := hfetch
  rw [stepSingle_of_awake hawake, stepInstr_of_ok hfetch', perform_eq]
  rfl

theorem stepSingle_of_error {fault : Fault} (hawake : q.cpu.halted = false)
    (hfetch : (q.refetch (Board.unwatched d i) w).1 = .error fault) :
    q.stepSingle (Board.unwatched d i) w = singly (q.handFault (Board.unwatched d i) fault q.cpu.rip w) := by
  have hfetch' : (q.single.refetch (Board.unwatched d i) w).1 = .error fault := hfetch
  rw [stepSingle_of_awake hawake, stepInstr_of_error hfetch', singly_handFault]
  rfl

/-! ## Many iterations at once -/

/-- What runs when the processor executes the instruction. -/
def running (p : Processor) (instr : Instr) (w : Board γ δ) : Running (Board γ δ) :=
  { cpu := p.cpu.setRip (p.cpu.rip + UInt64.ofNat instr.len), world := w, retired := p.retired }

/-- The processor that is left when the instruction ran. -/
def after (p : Processor) (r : Running (Board γ δ)) : Processor := { p with cpu := r.cpu, retired := r.retired }

theorem execute_eq (s : Socket (Board γ δ)) (limit : Nat) (instr : Instr) (p : Processor) (w : Board γ δ) :
    p.execute s limit instr w =
      let out := Exec.eval (Exec.instr s ⟨p.cpu.rip, limit, p.config.repeatInterval⟩ instr) (p.running instr w)
      (out.1, out.2.watchHit, p.after out.2, out.2.world) := rfl

theorem running_cpu_count (p : Processor) (instr : Instr) (w : Board γ δ) (size : CodeSize) :
    (p.running instr w).cpu.count size = p.cpu.count size := rfl

/-- Without a debugger, no instruction touches anything watched. -/
theorem watchHit_running (frame : Frame) (instr : Instr) (p : Processor) (w : Board γ δ) :
    (Exec.eval (Exec.instr (Board.unwatched d i) frame instr) (p.running instr w)).2.watchHit = false :=
  Exec.unwatched_instr rfl frame instr (p.running instr w)

/-- As long as it holds, a repeated instruction that gave way is still there. -/
def Abides (s : Socket (Board γ δ)) (P : Processor → Board γ δ → Prop) : Prop :=
  ∀ p w p' w' instr hit, P p w → p.cpu.halted = false → (p.refetch s w).1 = .ok instr →
    p.single.execute s 0 instr w = (.ok .giveWay, hit, p', w') → (p'.refetch s w').1 = .ok instr ∧ P p' w'

variable {P : Processor → Board γ δ → Prop} {x : Except Fault Flow} {r : Running (Board γ δ)}

theorem Abides.stays {s : Socket (Board γ δ)} (hP : Abides s P) (h : P p w) (hawake : p.cpu.halted = false) :
    p.Stays s w p' w' :=
  fun instr hit hfetch hgave => (hP p w p' w' instr hit h hawake hfetch hgave).1

/-- The result of a repeated instruction and the single steps that come to it. The last iteration does not
give way, so the processor is still before it. -/
inductive Iterated (s : Socket (Board γ δ)) (P : Processor → Board γ δ → Prop) (instr : Instr) (q : Processor)
    (w : Board γ δ) : Except Fault Flow × Running (Board γ δ) → Prop
  | gaveWay {n : Nat} {r : Running (Board γ δ)} (walks : Walks s (n + 1) q w (q.after r) r.world) :
      Iterated s P instr q w (.ok .giveWay, r)
  | through {n : Nat} {q' : Processor} {w' : Board γ δ} {x : Except Fault Flow} {r : Running (Board γ δ)}
      (walks : Walks s n q w q' w') (single : q'.single = q') (awake : q'.cpu.halted = false)
      (fetched : (q'.refetch s w').1 = .ok instr) (holds : P q' w') (rip : q'.cpu.rip = q.cpu.rip)
      (last : q'.execute s 0 instr w' = (x, false, q.after r, r.world)) (done : x ≠ .ok .giveWay) :
      Iterated s P instr q w (x, r)

/-- An iteration before all others. -/
theorem Iterated.cons {s : Socket (Board γ δ)} {w₁ : Board γ δ} {r₁ : Running (Board γ δ)}
    {out : Except Fault Flow × Running (Board γ δ)}
    (walks : Walks s 1 q w (q.after r₁) w₁) (hrip : r₁.cpu.rip = q.cpu.rip)
    (h : Iterated s P instr (q.after r₁) w₁ out) : Iterated s P instr q w out := by
  cases h with
  | gaveWay rest =>
    have hall := walks.trans rest
    rw [Nat.add_comm] at hall
    exact .gaveWay hall
  | through rest single awake fetched holds rip last done =>
    exact .through (walks.trans rest) single awake fetched holds (rip.trans hrip) last done

/-- One iteration that gives way is one single step. -/
theorem walks_giveWay (hP : Abides (Board.unwatched d i) P) (h : P q w) (hq : q.single = q)
    (hawake : q.cpu.halted = false)
    (hfetch : (q.refetch (Board.unwatched d i) w).1 = .ok instr)
    (hgave : Exec.eval (Exec.instr (Board.unwatched d i) ⟨q.cpu.rip, 0, 1⟩ instr) (q.running instr w) =
      (.ok .giveWay, r)) :
    Walks (Board.unwatched d i) 1 q w (q.after r) r.world ∧
      ((q.after r).refetch (Board.unwatched d i) r.world).1 = .ok instr ∧ P (q.after r) r.world := by
  have hhit := watchHit_running (d := d) (i := i) ⟨q.cpu.rip, 0, 1⟩ instr q w
  rw [hgave] at hhit
  have hexec : q.single.execute (Board.unwatched d i) 0 instr w = (.ok .giveWay, false, q.after r, r.world) := by
    rw [execute_eq]
    show (let out := Exec.eval (Exec.instr (Board.unwatched d i) ⟨q.cpu.rip, 0, 1⟩ instr) (q.running instr w)
      (out.1, out.2.watchHit, q.single.after out.2, out.2.world)) = _
    rw [hgave, hq]
    dsimp only at hhit ⊢
    rw [hhit]
  have hstep : q.stepSingle (Board.unwatched d i) w = (.goto .boundary, q.after r, r.world) := by
    rw [stepSingle_of_ok hawake hfetch, hexec]
    rfl
  exact ⟨.step hstep (hP.stays h hawake) (.refl _ _), hP q w _ _ instr false h hawake hfetch hexec⟩

/-- After an iteration, the rest of the instruction runs as when it is executed anew. -/
theorem running_after (hcontext : q.cpu.SameContext r.cpu) (hrip : r.cpu.rip = q.cpu.rip) (hhit : r.watchHit = false) :
    (q.after r).running instr r.world = r.at (q.running instr w).cpu.rip := by
  have hmask : r.cpu.ipMask = q.cpu.ipMask := hcontext.ipMask
  unfold running after Running.at Cpu.setRip
  dsimp only
  rw [hrip, hmask, ← hhit]

section

variable {op : StringOp} {size : Width} {n : Nat}

/-- The iterations of a string instruction. -/
abbrev iterations (s : Socket (Board γ δ)) (frame : Frame) (instr : Instr) (op : StringOp) (size : Width)
    (n since : Nat) : Exec (Board γ δ) Flow :=
  Exec.iterate s.line frame instr (Exec.element s.bus s.guard instr op size) n since

theorem eval_iterations {s : Socket (Board γ δ)} (hop : instr.op = .string op size) (hrep : instr.rep ≠ .once)
    (hcount : (q.cpu.count instr.addrSize).toNat = n) (frame : Frame) :
    Exec.eval (Exec.instr s frame instr) (q.running instr w) =
      Exec.eval (iterations s frame instr op size n 0) (q.running instr w) := by
  rw [Exec.eval_instr_repeated hop hrep, running_cpu_count, hcount]

/-- An iteration that does not give way is the last. -/
theorem iterated_of_done (h : P q w) (hq : q.single = q) (hawake : q.cpu.halted = false)
    (hfetch : (q.refetch (Board.unwatched d i) w).1 = .ok instr)
    (hlast : Exec.eval (Exec.instr (Board.unwatched d i) ⟨q.cpu.rip, 0, 1⟩ instr) (q.running instr w) = (x, r))
    (hdone : x ≠ .ok .giveWay) : Iterated (Board.unwatched d i) P instr q w (x, r) := by
  have hinterval : q.config.repeatInterval = 1 := by rw [← hq]; rfl
  have hhit := watchHit_running (d := d) (i := i) ⟨q.cpu.rip, 0, 1⟩ instr q w
  refine .through (.refl q w) hq hawake hfetch h rfl ?_ hdone
  rw [execute_eq, hinterval]
  rw [hlast] at hhit ⊢
  dsimp only at hhit ⊢
  rw [hhit]

/-- However many iterations run at once, single steps come to the same. -/
theorem iterated_iterations (hP : Abides (Board.unwatched d i) P) (hop : instr.op = .string op size)
    (hrep : instr.rep ≠ .once)
    (limit interval n since : Nat) (h : P q w) (hq : q.single = q) (hawake : q.cpu.halted = false)
    (hfetch : (q.refetch (Board.unwatched d i) w).1 = .ok instr) (hcount : (q.cpu.count instr.addrSize).toNat = n) :
    Iterated (Board.unwatched d i) P instr q w
      (Exec.eval (iterations (Board.unwatched d i) ⟨q.cpu.rip, limit, interval⟩ instr op size n since)
        (q.running instr w)) := by
  induction n generalizing since q w with
  | zero => exact iterated_of_done h hq hawake hfetch (eval_iterations hop hrep hcount _) nofun
  | succ n ih =>
    have hcalm := Exec.calm_element (Board.unwatched d i) instr op size
    have hsingle := eval_iterations (w := w) (s := Board.unwatched d i) hop hrep hcount ⟨q.cpu.rip, 0, 1⟩
    rcases hout : Exec.eval (iterations (Board.unwatched d i) (Frame.single ⟨q.cpu.rip, limit, interval⟩) instr op
      size (n + 1) 0) (q.running instr w) with ⟨x, r⟩
    replace hsingle := hsingle.trans hout
    by_cases hx : x = .ok .giveWay
    case neg =>
      rw [Exec.eval_iterate_of_done _ since (by rw [hout]; exact hx), hout]
      exact iterated_of_done h hq hawake hfetch hsingle hx
    case pos =>
      subst hx
      have hbits := q.cpu.count_lt instr.addrSize
      have hleft := Exec.count_of_giveWay (by omega) hout
      have hran : Exec.Ran (Frame.single ⟨q.cpu.rip, limit, interval⟩) instr (q.running instr w) _ _ :=
        Exec.ran_iterate (Board.unwatched d i).line hcalm (n + 1) 0 (q.running instr w)
      have hhit := watchHit_running (d := d) (i := i) ⟨q.cpu.rip, 0, 1⟩ instr q w
      rw [hout] at hran
      rw [hsingle] at hhit
      have hrip : r.cpu.rip = q.cpu.rip := hran.rip
      obtain ⟨hwalk, hfetch', hholds⟩ := walks_giveWay hP h hq hawake hfetch hsingle
      have hagain : (q.after r).running instr r.world = r.at (q.running instr w).cpu.rip :=
        running_after hran.context hrip hhit
      have hrest : ∀ since, Iterated (Board.unwatched d i) P instr q w
          (Exec.eval (iterations (Board.unwatched d i) ⟨q.cpu.rip, limit, interval⟩ instr op size n since)
            (r.at (q.running instr w).cpu.rip)) := by
        intro since
        have hnext := ih since hholds (show (q.after r).single = q.after r from congrArg (after · r) hq)
          ((hran.halted nofun).trans hawake) hfetch' hleft
        rw [hagain, show (q.after r).cpu.rip = q.cpu.rip from hrip] at hnext
        exact hnext.cons hwalk hrip
      rw [Exec.eval_iterate_of_giveWay _ since hcalm hout]
      split
      case isTrue => exact hrest _
      case isFalse =>
        split
        case isTrue => exact .gaveWay hwalk
        case isFalse => exact hrest _

end

/-! ## One step of a processor without a cache -/

/-- A step and the single steps that come to it. -/
inductive Resolved (s : Socket (Board γ δ)) (q : Processor) (w : Board γ δ) : Step × Processor × Board γ δ → Prop
  | on {n : Nat} {next : Point} {q' : Processor} {w' : Board γ δ} (walks : Walks s (n + 1) q w q' w') :
      Resolved s q w (.goto next, q', w')
  | out {n : Nat} {exit : Exit} {q₁ q' : Processor} {w₁ w' : Board γ δ} (walks : Walks s n q w q₁ w₁)
      (last : q₁.stepSingle s w₁ = (.leave exit, q', w')) : Resolved s q w (.leave exit, q', w')

/-- What a single step does after others. -/
theorem resolved_of_stepSingle (hP : Abides (Board.unwatched d i) P) (h : P q' w') {n : Nat}
    {out : Step × Processor × Board γ δ}
    (walks : Walks (Board.unwatched d i) n q w q' w') (hout : q'.stepSingle (Board.unwatched d i) w' = out) :
    Resolved (Board.unwatched d i) q w out := by
  obtain ⟨next, q₁, w₁⟩ := out
  cases next with
  | goto next =>
    have hawake : q'.cpu.halted = false := by
      by_contra hhalted
      rw [stepSingle_of_halted (Bool.eq_true_of_not_eq_false hhalted)] at hout
      cases hout
    exact .on (walks.trans (.step hout (hP.stays h hawake) (.refl q₁ w₁)))
  | leave exit => exact .out walks hout

/-- Whatever is executed at once, single steps come to the same. -/
theorem resolved_stepInstr (hP : Abides (Board.unwatched d i) P) (h : P p.single w) (hawake : p.cpu.halted = false)
    (limit : Nat) :
    Resolved (Board.unwatched d i) p.single w (singly (p.stepInstr (Board.unwatched d i) limit w)) := by
  cases hfetch : (p.refetch (Board.unwatched d i) w).1 with
  | error fault =>
    rw [stepInstr_of_error hfetch, ← singly_handFault]
    refine resolved_of_stepSingle hP h (.refl _ _) ?_
    rw [stepSingle_of_error (q := p.single) hawake hfetch, ← singly_handFault]
    rfl
  | ok instr =>
    rw [stepInstr_of_ok hfetch, perform_eq]
    by_cases hstring : ∃ op size, instr.op = .string op size ∧ instr.rep ≠ .once
    case neg =>
      -- the frame makes no difference
      have hframe : ∀ op size, instr.op = .string op size → instr.rep = .once := fun op size hop => by
        by_contra hrep
        exact hstring ⟨op, size, hop, hrep⟩
      refine resolved_of_stepSingle hP h (.refl _ _) ?_
      rw [stepSingle_of_ok (q := p.single) hawake hfetch, execute_eq, execute_eq, ← singly_concluded,
        Exec.instr_frame hframe (Board.unwatched d i) ⟨p.cpu.rip, limit, p.config.repeatInterval⟩ ⟨p.cpu.rip, 0, 1⟩]
      rfl
    case pos =>
      obtain ⟨op, size, hop, hrep⟩ := hstring
      have hhit := watchHit_running (d := d) (i := i) ⟨p.cpu.rip, limit, p.config.repeatInterval⟩ instr p w
      have hall := iterated_iterations (q := p.single) hP hop hrep limit p.config.repeatInterval _ 0 h rfl hawake hfetch
        rfl
      rw [execute_eq]
      rw [eval_iterations (q := p) hop hrep rfl] at hhit ⊢
      rw [show p.single.cpu = p.cpu from rfl, show p.single.running instr w = p.running instr w from rfl] at hall
      generalize Exec.eval (iterations _ _ instr op size _ 0) (p.running instr w) = out at hhit hall ⊢
      cases hall with
      | gaveWay walks =>
        dsimp only at hhit ⊢
        rw [hhit]
        exact .on walks
      | through walks single awake fetched holds rip last done =>
        dsimp only at hhit ⊢
        rw [hhit, ← singly_concluded]
        refine resolved_of_stepSingle hP holds walks ?_
        rw [stepSingle_of_ok awake fetched, single, last, rip]
        rfl

end Processor

end TraceCore
