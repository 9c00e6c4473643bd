/-
Memory that others write to. If it comes to hold other bytes, a processor goes on as it would have, as long as it reads none
of them and fetches none. The boards need not agree on what is cached, either: each step of a processor with a cache is set
beside one without, on the same board, and that one beside another on the other board.
-/
import TraceCore.Proofs.Exec.Together
import TraceCore.Proofs.Processor.Caller
import TraceCore.Proofs.Processor.Pace
import TraceCore.Proofs.Processor.Refetch
import TraceCore.Proofs.Processor.Runs
import TraceCore.Proofs.Processor.Single
import TraceCore.Proofs.Processor.Touched
import TraceCore.Proofs.Processor.Watched

namespace TraceCore

variable {γ δ : Type} {S : Nat → Prop} {i : Nat} {w w' v v' : Board γ δ}

namespace Board

/-! ## Boards that are alike outside a set of bytes -/

/-- Without mappings, the boards hold the same outside the set, and the same events are pending for the processor. -/
structure AlikeOutside (S : Nat → Prop) (i : Nat) (w v : Board γ δ) : Prop where
  unmapped : w.mem.mappings = none
  mappings : v.mem.mappings = w.mem.mappings
  size : v.mem.ram.bytes.size = w.mem.ram.bytes.size
  bytes : ∀ x, ¬ S x → v.mem.ram.bytes[x]? = w.mem.ram.bytes[x]?
  lines : v.lines.size = w.lines.size
  events : (line i).events v = (line i).events w

namespace AlikeOutside

theorem of_matches (h : w.AlikeOutside S i v) (hw : w.Matches w') (hv : v.Matches v') : w'.AlikeOutside S i v' := by
  obtain ⟨t, rfl⟩ := hw
  obtain ⟨t', rfl⟩ := hv
  exact ⟨h.unmapped, h.mappings, h.size, h.bytes, h.lines, h.events⟩

/-- What is set, is set on both. -/
theorem set (h : w.AlikeOutside S i v) (e : Events) : ((line i).set e w).AlikeOutside S i ((line i).set e v) := by
  have hlines : ((line i).set e v).lines.size = ((line i).set e w).lines.size := by
    show (v.lines.setIfInBounds i e).size = (w.lines.setIfInBounds i e).size
    rw [Array.size_setIfInBounds, Array.size_setIfInBounds, h.lines]
  refine ⟨h.unmapped, h.mappings, h.size, h.bytes, hlines, ?_⟩
  rw [events_set, events_set, h.lines]

theorem read (h : w.AlikeOutside S i v) {addr : UInt64} {len : Nat} (hclear : ∀ x ∈ bytesAt addr len, ¬ S x) :
    v.mem.ram.read addr len = w.mem.ram.read addr len := by
  have hslice : v.mem.ram.slice addr len = w.mem.ram.slice addr len :=
    Ram.slice_eq fun k hk => h.bytes _ (hclear _ (List.mem_range'_1.2 (by omega)))
  unfold Ram.read Ram.fits Ram.size
  rw [h.size]
  split
  case isTrue => exact congrArg Except.ok hslice
  case isFalse => rfl

theorem read_error (h : w.AlikeOutside S i v) {addr : UInt64} {len : Nat}
    (hfails : (w.mem.ram.read addr len).isOk = false) : v.mem.ram.read addr len = w.mem.ram.read addr len := by
  unfold Ram.read Ram.fits Ram.size at hfails ⊢
  rw [h.size]
  split at hfails
  case isTrue => cases hfails
  case isFalse hfits => rw [if_neg hfits, if_neg hfits]

/-- What is stored, is stored to both. -/
theorem write (h : w.AlikeOutside S i v) (addr : UInt64) (src : List UInt8) :
    (bus.write addr src w).1 = (bus.write addr src v).1 ∧
      (bus.write addr src w).2.AlikeOutside S i (bus.write addr src v).2 := by
  have hsize := h.size
  show (w.mem.write addr src).1 = (v.mem.write addr src).1 ∧
    AlikeOutside S i { w with mem := (w.mem.write addr src).2 } { v with mem := (v.mem.write addr src).2 }
  unfold MappedRam.write Ram.write Ram.fits Ram.size
  dsimp only
  rw [hsize]
  split
  case isFalse => exact ⟨rfl, h⟩
  case isTrue =>
    refine ⟨rfl, h.unmapped, h.mappings, ?_, fun x hx => ?_, h.lines, h.events⟩
    · show (overwrite _ _ _).size = (overwrite _ _ _).size
      rw [size_overwrite, size_overwrite, hsize]
    · show (overwrite _ _ _)[x]? = (overwrite _ _ _)[x]?
      rw [getElem?_overwrite, getElem?_overwrite, hsize]
      split
      case isTrue => rfl
      case isFalse => exact h.bytes x hx

end AlikeOutside

/-! ## Executing -/

/-- A board with a ledger and another one, alike outside a set. The first run is lost once it has read from the set. -/
def outside (S : Nat → Prop) (i : Nat) (level : UInt8) : Pairing (Ledger (Board γ δ)) (Board γ δ) where
  related l v := l.world.AlikeOutside S i v
  lost l := ∃ x ∈ l.reads, S x
  level
  grants _ _ _ := True

theorem joins_recording (S : Nat → Prop) (i : Nat) (level : UInt8) :
    (outside (γ := γ) (δ := δ) S i level).Joins (unwatched .toCaller i).recording (unwatched .toCaller i) where
  loses :=
    { translate := fun _ _ _ _ h => h
      read := fun addr len l ⟨x, hx, hS⟩ => ⟨x, ((unwatched .toCaller i).keeps_reads x).read addr len l hx, hS⟩
      write := fun _ _ _ h => h
      watches := fun _ _ _ h => h }
  translate linear access l v h := by
    refine ⟨?_, h⟩
    show l.world.mem.translate linear access level = v.mem.translate linear access level
    rw [MappedRam.translate_congr h.mappings]
  granted _ _ _ _ _ _ _ := trivial
  read linear addr len l v _ h := by
    have h : l.world.AlikeOutside S i v := h
    generalize bytesInPage linear len = n
    have hstays : (outside (γ := γ) (δ := δ) S i level).related
      ((unwatched .toCaller i).recording.bus.read addr n l).2 v := h
    cases hok : (l.world.mem.ram.read addr n).isOk with
    | false => exact Or.inr ⟨(h.read_error hok).symm, hstays⟩
    | true =>
      by_cases hclear : ∀ x ∈ bytesAt addr n, ¬ S x
      · exact Or.inr ⟨(h.read hclear).symm, hstays⟩
      · simp only [not_forall, not_not] at hclear
        obtain ⟨x, hx, hS⟩ := hclear
        refine Or.inl ⟨x, ?_, hS⟩
        show x ∈ if (l.world.mem.ram.read addr n).isOk then bytesAt addr n ++ l.reads else l.reads
        rw [if_pos hok]
        exact List.mem_append_left _ hx
  write _ addr src l v _ _ h := AlikeOutside.write h addr src
  watches _ _ _ _ h := ⟨rfl, h⟩
  events _ _ h := (AlikeOutside.events h).symm

end Board

namespace Processor

open Board

variable {limit budget n : Nat} {p₀ p p₁ q : Processor} {w₁ : Board γ δ} {l₀ l : Ledger (Board γ δ)} {point : Point}

/-! ## Fetching -/

/-- None of the bytes that an instruction of the greatest length would have, where the processor stands, is in the set. -/
def FetchesOutside (S : Nat → Prop) (p : Processor) : Prop :=
  ∀ n < maxInstrLen, ¬ S (p.cpu.codeAddress (p.cpu.rip + UInt64.ofNat n)).toNat

theorem refetch_outside (h : w.AlikeOutside S i v) (hp : p.Alike q) (hrip : p.cpu.Reaches p.cpu.rip)
    (hcode : p.FetchesOutside S) {d : Delivery (Board γ δ)} :
    (q.refetch (unwatched d i) v).1 = (p.refetch (unwatched d i) w).1 := by
  have hm : w.mem.Identical := Layout.unmapped.identical h.unmapped
  have hview := MappedRam.fetchView_congr h.size h.mappings p.cpu p.cpu.rip
  cases hfetch : w.mem.fetchView p.cpu p.cpu.rip with
  | error e =>
    have hfetch' : v.mem.fetchView q.cpu q.cpu.rip = .error e := by rw [hp.cpu, hview, hfetch]
    rw [refetch_error hfetch, refetch_error hfetch']
  | ok place =>
    obtain ⟨addr, n⟩ := place
    have hfetch' : v.mem.fetchView q.cpu q.cpu.rip = .ok (addr, n) := by rw [hp.cpu, hview, hfetch]
    rw [refetch_ok Guard.quiet_none hfetch, refetch_ok Guard.quiet_none hfetch', hp.cpu, hp.decode]
    refine decodeAt_congr_of_reads Guard.quiet_none Guard.quiet_none h.size h.mappings _ _
      (Ram.readsAs_of_bytes fun k hk => h.bytes _ ?_) fun page len window o _ _ hopen ho =>
        Ram.readsAs_of_bytes fun k hk => h.bytes _ ?_
    · dsimp only at hk ⊢
      rw [← hm.codeAddress_add hrip hfetch (k := k) (by omega)]
      exact hcode k (by omega)
    · -- the bytes behind the first window, where it ends
      rw [← hm.codeAddress_add (reaches_of_nextWindow hopen ho) (fetchView_of_nextWindow hopen ho) (k := k) (by omega)]
      dsimp only
      rw [UInt64.add_assoc, ← UInt64.ofNat_add]
      exact hcode (len + k) (by omega)

/-! ## Without a cache -/

/-- The same outcome, processors that cannot be told apart, and boards that are alike outside the set. -/
structure Parallel {α : Type} (S : Nat → Prop) (i : Nat) (x y : α × Processor × Board γ δ) : Prop where
  outcome : y.1 = x.1
  procs : x.2.1.Alike y.2.1
  boards : x.2.2.AlikeOutside S i y.2.2

theorem parallel_serve (h : w.AlikeOutside S i v) (hp : p.Alike q) :
    Parallel S i (serve (unwatched .toCaller i) p w) (serve (unwatched .toCaller i) q v) := by
  rw [serve_toCaller, serve_toCaller, h.events]
  dsimp only
  split
  case isTrue => exact ⟨rfl, hp, h⟩
  case isFalse =>
    split
    case isTrue => exact ⟨rfl, hp, h.set _⟩
    case isFalse =>
      split
      case isTrue =>
        obtain ⟨hcpu, hretired, hinterval, hdecode⟩ := hp
        exact ⟨rfl, ⟨congrArg (fun cpu : Cpu => { cpu with halted := false }) hcpu, hretired, hinterval, hdecode⟩, h.set _⟩
      case isFalse => exact ⟨rfl, hp, h.set _⟩

theorem parallel_handFault (h : w.AlikeOutside S i v) (hp : p.Alike q) (fault : Fault) (rip : UInt64) :
    Parallel S i (p.handFault (unwatched .toCaller i) fault rip w) (q.handFault (unwatched .toCaller i) fault rip v) := by
  obtain ⟨hcpu, hretired, hinterval, hdecode⟩ := hp
  refine ⟨rfl, ⟨?_, congrArg (· + 1) hretired, hinterval, hdecode⟩, h⟩
  exact congrArg (fun cpu : Cpu => { cpu with rip }) hcpu

/-- An instruction that reads nothing of the set is executed alike. -/
theorem parallel_perform (h : l.world.AlikeOutside S i v) (hp : p.Alike q) {instr : Instr}
    (hdata : ∀ x ∈ (p.execute (unwatched .toCaller i).recording limit instr l).2.2.2.reads, ¬ S x) :
    Parallel S i (p.perform (unwatched .toCaller i) limit instr l.world)
      (q.perform (unwatched .toCaller i) limit instr v) := by
  have hjoins := (joins_recording (γ := γ) (δ := δ) S i p.cpu.cpl).execute hp rfl h limit instr
  rw [perform_eq, perform_eq, execute_shown (unwatched .toCaller i).shows_recording, hp.cpu]
  generalize p.execute (unwatched .toCaller i).recording limit instr l = out at hdata hjoins ⊢
  generalize q.execute (unwatched .toCaller i) limit instr v = out' at hjoins ⊢
  obtain ⟨x, hit, p', l'⟩ := out
  obtain ⟨x', hit', q', v'⟩ := out'
  rcases hjoins with ⟨y, hy, hS⟩ | ⟨houtcome, hhit, hfirst, hsecond, -, hworlds⟩
  · exact absurd hS (hdata y hy)
  · dsimp only at houtcome hhit hfirst hsecond
    subst houtcome hhit
    have halike : p'.Alike q' := by
      rw [hfirst, hsecond]
      exact ⟨rfl, rfl, hp.interval, hp.decode⟩
    cases x' with
    | error fault => exact parallel_handFault hworlds halike fault p.cpu.rip
    | ok flow =>
      refine ⟨rfl, ?_, hworlds⟩
      unfold concluded
      dsimp only
      split
      case isTrue => exact halike
      case isFalse => exact ⟨halike.cpu, congrArg (· + 1) halike.retired, halike.interval, halike.decode⟩

theorem parallel_stepInstr (h : l.world.AlikeOutside S i v) (hp : p.Alike q) (hrip : p.cpu.Reaches p.cpu.rip)
    (hcode : p.FetchesOutside S)
    (hdata : ∀ instr, (p.refetch (unwatched .toCaller i) l.world).1 = .ok instr →
      ∀ x ∈ (p.execute (unwatched .toCaller i).recording limit instr l).2.2.2.reads, ¬ S x) :
    Parallel S i (p.stepInstr (unwatched .toCaller i) limit l.world) (q.stepInstr (unwatched .toCaller i) limit v) := by
  have hfetch := refetch_outside h hp hrip hcode (d := .toCaller)
  cases hout : (p.refetch (unwatched .toCaller i) l.world).1 with
  | error fault =>
    rw [hout] at hfetch
    rw [stepInstr_of_error hout, stepInstr_of_error hfetch, hp.cpu]
    exact parallel_handFault h hp fault p.cpu.rip
  | ok instr =>
    rw [hout] at hfetch
    rw [stepInstr_of_ok hout, stepInstr_of_ok hfetch]
    exact parallel_perform h hp (hdata instr hout)

/-! ## A step -/

/-- How a processor without a cache stands on the other board, beside one that is at a point. Before a record its events
are served already. -/
inductive Level (S : Nat → Prop) (i limit : Nat) (p : Processor) (w : Board γ δ) (q : Processor) (v : Board γ δ) :
    Point → Prop
  | boundary (alike : p.Alike q) (boards : w.AlikeOutside S i v) : Level S i limit p w q v .boundary
  | record {index left generation : Nat} {branch : Option Nat} (v' : Board γ δ) (passed : Passed i v v')
      (alike : p.Alike q) (boards : w.AlikeOutside S i v') (budget : p.retired < limit) (awake : p.cpu.halted = false) :
      Level S i limit p w q v (.record index left generation branch)

/-- A processor at a point stands beside itself. -/
theorem Level.self (h : Level S i limit p w q v point) : Abreast (unwatched .toCaller i) limit p w p w point := by
  cases h with
  | boundary => exact .boundary (.refl p) (.refl w)
  | record v' passed alike boards budget awake =>
    have hpending := passed.pending
    rw [boards.events] at hpending
    exact .record p w ((passed_of_pending hpending).serves p) (.refl p) (.refl w) budget awake

theorem Abreast.level {q' : Processor} (h : Abreast (unwatched .toCaller i) limit p w q v point) (hq : q.Alike q')
    (hv : v.AlikeOutside S i v') : Level S i limit p w q' v' point := by
  cases h with
  | boundary alike boards => exact .boundary (alike.trans hq) (hv.of_matches boards.symm (.refl v'))
  | record q₁ v₁ served alike boards budget awake =>
    have hserve := parallel_serve hv hq
    rw [served] at hserve
    rcases hout : serve (unwatched .toCaller i) q' v' with ⟨exit, q₁', v₁'⟩
    rw [hout] at hserve
    obtain ⟨rfl, -, hboards⟩ := hserve
    obtain ⟨-, rfl⟩ := passed_of_serve served
    exact .record v₁' (passed_of_serve hout).1 (alike.trans hq) (hboards.of_matches boards.symm (.refl v₁')) budget awake

/-- So does one behind events that let the processor go on. -/
theorem entered_of_refetch (h : p.Sound (Regime.identity γ δ .unmapped) w) (hpassed : Passed i w w₁)
    (hawake : p.cpu.halted = false) (hbudget : p.retired < limit) {instr : Instr}
    (hfetch : (p.refetch (unwatched .toCaller i) w₁).1 = .ok instr) :
    ∃ next p' w', p.step (unwatched .toCaller i) limit .boundary w = (.goto next, p', w') ∧ p'.retired = p.retired := by
  have hreset := h.relinked p.linker.reset
  have hserve := hpassed.serves { p with linker := p.linker.reset }
  have hmem : w₁.mem = w.mem := by
    obtain rfl | ⟨e, rfl⟩ := hpassed.only
    · rfl
    · rfl
  have hsound := (sound_serve (g := .none) (i := i) (Delivery.tame_toCaller _) hreset
    (by rw [show serve (socket .none .toCaller i) _ w = _ from hserve, hmem])).2
  rw [show serve (socket .none .toCaller i) _ w = _ from hserve] at hsound
  exact goto_of_refetch hsound hserve hawake hbudget hfetch

/-- From a record, what its instruction read is listed. -/
theorem ledger_step {index left generation : Nat} {branch : Option Nat}
    (h : p.Sound (Regime.identity γ δ .unmapped) l.world)
    (hready : p.Ready l.world (.record index left generation branch))
    (hv : Visits (unwatched .toCaller i).recording limit p₀ l₀ (.record index left generation branch) p l) {instr : Instr}
    (hfetch : (p.refetch (unwatched .toCaller i) l.world).1 = .ok instr) :
    (p.step (unwatched .toCaller i).recording limit (.record index left generation branch) l).2.2 =
      (p.execute (unwatched .toCaller i).recording limit instr l).2.2.2 := by
  obtain ⟨-, t, k, n, hon⟩ := hready
  obtain ⟨record, hrecord, hfetch'⟩ := hon.refetch (d := .toCaller) (i := i) Guard.quiet_none h
  cases hfetch.symm.trans hfetch'
  have hexecutes : Executes (unwatched .toCaller i).recording limit p₀ l₀ (.record index left generation branch) p l
      record.instr { p with resume := false } l :=
    ⟨hv, ⟨index, left, generation, branch, record, rfl, hrecord, rfl⟩,
      stopsAt_of_no (fun _ _ => rfl) (fun _ _ _ _ => rfl) _ _ p l⟩
  have hperformed := hexecutes.performed
  rw [show p.execute (unwatched .toCaller i).recording limit record.instr l =
    ((execute (unwatched .toCaller i).recording limit record.instr { p with resume := false } l).1,
      (execute (unwatched .toCaller i).recording limit record.instr { p with resume := false } l).2.1,
      (p.execute (unwatched .toCaller i).recording limit record.instr l).2.2.1,
      (execute (unwatched .toCaller i).recording limit record.instr { p with resume := false } l).2.2.2) from rfl]
  generalize p.step (unwatched .toCaller i).recording limit (.record index left generation branch) l = out
    at hperformed ⊢
  cases hperformed with
  | faulted fault hit p' l' executed => rw [executed]; rfl
  | struck flow p' l' executed => rw [executed]
  | through flow p' l' executed next p'' => rw [executed]

/-- From a boundary both do the same without a cache, unless there is an instruction to execute. -/
theorem parallel_boundary (h : p.Sound (Regime.identity γ δ .unmapped) w) (hp : p.Alike q) (hw : w.AlikeOutside S i v)
    (hcode : p.cpu.halted = false → p.retired < limit → p.FetchesOutside S)
    (hnone : ∀ next, (p.step (unwatched .toCaller i) limit .boundary w).1 = .goto next →
      (p.step (unwatched .toCaller i) limit .boundary w).2.1.retired ≠ p.retired) :
    Parallel S i (p.stepPlain (unwatched .toCaller i) limit w) (q.stepPlain (unwatched .toCaller i) limit v) := by
  have hserve := parallel_serve hw hp
  unfold stepPlain
  rcases hout : serve (unwatched .toCaller i) p w with ⟨exit, p₁, w₁⟩
  rcases hout' : serve (unwatched .toCaller i) q v with ⟨exit', q₁, v₁⟩
  rw [hout, hout'] at hserve
  obtain ⟨houtcome, hprocs, hboards⟩ := hserve
  obtain rfl : exit' = exit := houtcome
  cases exit' with
  | some exit => exact ⟨rfl, hprocs, hboards⟩
  | none =>
    obtain ⟨hpassed, rfl⟩ := passed_of_serve hout
    dsimp only at hprocs hboards ⊢
    rw [hprocs.cpu, hprocs.retired]
    split
    case isTrue => exact ⟨rfl, hprocs, hboards⟩
    case isFalse hawake =>
      rw [Bool.not_eq_true] at hawake
      split
      case isTrue => exact ⟨rfl, hprocs, hboards⟩
      case isFalse hbudget =>
        have hbudget := Nat.not_le.1 hbudget
        refine parallel_stepInstr (l := { world := w₁ }) hboards hprocs h.cpu.2.reaches (hcode hawake hbudget) ?_
        intro instr hfetch
        obtain ⟨next, p', w', hstep, hretired⟩ := entered_of_refetch h hpassed hawake hbudget hfetch
        rw [hstep] at hnone
        exact absurd hretired (hnone next rfl)

/-- Without a cache both do the same, unless the one with a cache only came to a record. -/
theorem parallel_stepPlain (h : p.Sound (Regime.identity γ δ .unmapped) l.world) (hready : p.Ready l.world point)
    (hlevel : Level S i limit p l.world q v point) (hv : Visits (unwatched .toCaller i).recording limit p₀ l₀ point p l)
    (hcode : p.cpu.halted = false → p.retired < limit → p.FetchesOutside S)
    (hdata : ∀ x ∈ (p.step (unwatched .toCaller i).recording limit point l).2.2.reads, ¬ S x)
    (hmoved : ∀ next, (p.step (unwatched .toCaller i) limit point l.world).1 = .goto next →
      (p.step (unwatched .toCaller i) limit point l.world).2.1.retired ≠ p.retired) :
    Parallel S i (p.stepPlain (unwatched .toCaller i) limit l.world) (q.stepPlain (unwatched .toCaller i) limit v) := by
  cases hlevel with
  | boundary alike boards => exact parallel_boundary h alike boards hcode hmoved
  | record v' passed alike boards budget awake =>
    have hpending := passed.pending
    rw [boards.events] at hpending
    rw [stepPlain_of_served ((passed_of_pending hpending).serves p) awake budget,
      stepPlain_of_served (passed.serves q) (by rw [alike.cpu]; exact awake) (by rw [alike.retired]; exact budget)]
    refine parallel_stepInstr boards alike h.cpu.2.reaches (hcode awake budget) ?_
    intro instr hfetch
    rw [← ledger_step h hready hv hfetch]
    exact hdata

/-- The step `x` of a processor with a cache, and what one without does on the other board. Both leave, or the first came
to a record and the second waits, or both have gone on. -/
inductive Sidestep (S : Nat → Prop) (i limit : Nat) (point : Point) (p q : Processor) (v : Board γ δ)
    (x : Step × Processor × Board γ δ) : Prop
  | left (exit : Exit) (here : x.1 = .leave exit) (there : (q.stepPlain (unwatched .toCaller i) limit v).1 = .leave exit)
      (alike : x.2.1.Alike (q.stepPlain (unwatched .toCaller i) limit v).2.1)
      (boards : x.2.2.AlikeOutside S i (q.stepPlain (unwatched .toCaller i) limit v).2.2)
  | entered (next : Point) (here : x.1 = .goto next) (same : x.2.1.retired = p.retired)
      (nearer : stepsFrom (limit - p.retired) next < stepsFrom (limit - p.retired) point)
      (level : Level S i limit x.2.1 x.2.2 q v next)
  | moved (next : Point) (here : x.1 = .goto next)
      (there : (q.stepPlain (unwatched .toCaller i) limit v).1 = .goto .boundary)
      (less : limit - x.2.1.retired < limit - p.retired)
      (level : Level S i limit x.2.1 x.2.2 (q.stepPlain (unwatched .toCaller i) limit v).2.1
        (q.stepPlain (unwatched .toCaller i) limit v).2.2 next)

theorem sidestep (h : p.Sound (Regime.identity γ δ .unmapped) l.world) (hready : p.Ready l.world point)
    (hlevel : Level S i limit p l.world q v point) (hv : Visits (unwatched .toCaller i).recording limit p₀ l₀ point p l)
    (hcode : p.cpu.halted = false → p.retired < limit → p.FetchesOutside S)
    (hdata : ∀ x ∈ (p.step (unwatched .toCaller i).recording limit point l).2.2.reads, ¬ S x)
    (hlag : (p.step (unwatched .toCaller i) limit point l.world).2.2.mem.ram.stamps.lag = l.world.mem.ram.stamps.lag) :
    Sidestep S i limit point p q v (p.step (unwatched .toCaller i) limit point l.world) := by
  have hplain := parallel_stepPlain h hready hlevel hv hcode hdata
  cases keeping_step Delivery.blind_toCaller (Delivery.tame_toCaller _) h hready hlevel.self hlag with
  | left exit here there alike boards =>
    have hparallel := hplain fun next hgoto => by cases here.symm.trans hgoto
    exact .left exit here (hparallel.outcome.trans there) (alike.trans hparallel.procs)
      (hparallel.boards.of_matches boards.symm (.refl _))
  | entered next here same nearer abreast =>
    cases hlevel with
    | boundary alike boards => exact .entered next here same nearer (abreast.level alike boards)
    | record => exact absurd nearer (Nat.not_lt.2 (le_stepsFrom _ next))
  | moved next here there less abreast =>
    have hparallel := hplain fun next hgoto hretired => by
      rw [hretired] at less
      exact absurd less (Nat.lt_irrefl _)
    exact .moved next here (hparallel.outcome.trans there) less (abreast.level hparallel.procs hparallel.boards)

/-! ## Runs -/

/-- What was read is listed in the end. -/
theorem reads_runSteps {ω : Type} {s : Socket ω} {x : Nat} {l : Ledger ω} (hx : x ∈ l.reads) (limit n : Nat)
    (point : Point) (p : Processor) : x ∈ (runSteps s.recording limit n point p l).2.2.reads :=
  runSteps_induction (Q := fun _ l => x ∈ l.reads) (fun point p _ => (s.keeps_reads x).step limit point p) n point p l hx

/-- The processor with a cache runs on the one board, and the one without on the other. -/
theorem parallel_runSteps (n m : Nat) (h : p.Sound (Regime.identity γ δ .unmapped) l.world)
    (hready : p.Ready l.world point) (hlevel : Level S i limit p l.world q v point)
    (hv : Visits (unwatched .toCaller i).recording limit p₀ l₀ point p l)
    (hcode : ∀ point' p' l', Visits (unwatched .toCaller i).recording limit p₀ l₀ point' p' l' →
      p'.cpu.halted = false → p'.retired < limit → p'.FetchesOutside S)
    (hdata : ∀ x ∈ (runSteps (unwatched .toCaller i).recording limit n point p l).2.2.reads, ¬ S x)
    (hn : stepsFrom (limit - p.retired) point ≤ n) (hm : limit - p.retired < m)
    (hlag : (runSteps (unwatched .toCaller i) limit n point p l.world).2.2.mem.ram.stamps.lag =
      l.world.mem.ram.stamps.lag) :
    Parallel S i (runSteps (unwatched .toCaller i) limit n point p l.world)
      (runInstrs (unwatched .toCaller i) limit m q v) := by
  have htame := Delivery.tame_toCaller (Regime.identity γ δ .unmapped)
  induction n generalizing point p q l v m with
  | zero =>
    have hpos := le_stepsFrom (limit - p.retired) point
    cases hlevel with
    | boundary => exact absurd hn (Nat.not_succ_le_zero _)
    | record v' passed alike boards budget awake => omega
  | succ n ih =>
    obtain ⟨m, rfl⟩ : ∃ k, m = k + 1 := ⟨m - 1, by omega⟩
    have hshown := step_shown (unwatched (γ := γ) (δ := δ) .toCaller i).shows_recording limit point p l
    have hside := sidestep h hready hlevel hv (hcode point p l hv)
    have hstepped := stepped_step (i := i) Guard.quiet_none htame h limit hready
    unfold runSteps at hdata hlag ⊢
    generalize hstep : p.step (unwatched .toCaller i).recording limit point l = out at hshown hdata hside
    obtain ⟨step, p₁, l₁⟩ := out
    have hshown : p.step (unwatched .toCaller i) limit point l.world = (step, p₁, l₁.world) := hshown
    rw [show p.step (socket .none .toCaller i) limit point l.world = _ from hshown] at hstepped
    rw [hshown] at hlag hside ⊢
    cases step with
    | leave exit =>
      cases hside hdata hlag with
      | entered _ here => cases here
      | moved _ here => cases here
      | left _ here there alike boards =>
        cases here
        rw [runInstrs_of_leave there]
        exact ⟨rfl, alike, boards⟩
    | goto next =>
      have hlag₁ := lag_of_runSteps Guard.quiet_none Guard.quiet_none htame hshown hlag
      have hclear : ∀ x ∈ l₁.reads, ¬ S x := fun x hx => hdata x (reads_runSteps hx limit n next p₁)
      obtain ⟨-, hsound, hready'⟩ := hstepped hlag₁
      dsimp only at hdata hlag
      cases hside hclear hlag₁ with
      | left _ here => cases here
      | entered _ here same nearer level =>
        cases here
        dsimp only at same
        exact ih (m + 1) hsound (hready' _ rfl) level (hv.goto hstep) hdata (by rw [same]; omega) (by rw [same]; exact hm)
          (hlag.trans hlag₁.symm)
      | moved _ here there less level =>
        cases here
        dsimp only at less
        rw [runInstrs_of_goto there]
        refine ih m hsound (hready' _ rfl) level (hv.goto hstep) hdata ?_ (by omega) (hlag.trans hlag₁.symm)
        have hat := stepsFrom_le (limit - p₁.retired) next
        have hfrom := le_stepsFrom (limit - p.retired) point
        omega

/-- Two processors that cannot be told apart run alike, each on its own board and with its own cache, if nothing of the
set is read by the first or lies where it fetches. -/
theorem parallel_run (budget : Nat) (hp : p.Sound (Regime.identity γ δ .unmapped) w)
    (hq : q.Sound (Regime.identity γ δ .unmapped) v) (halike : p.Alike q) (hw : w.AlikeOutside S i v)
    (hcode : ∀ point p' w', Visits (unwatched .toCaller i) (p.limitFor budget) p w point p' w' →
      p'.cpu.halted = false → p'.retired < p.limitFor budget → p'.FetchesOutside S)
    (hdata : ∀ x ∈ (p.touched (unwatched .toCaller i) budget w).reads, ¬ S x)
    (hlag : (p.run (unwatched .toCaller i) budget w).2.2.mem.ram.stamps.lag = w.mem.ram.stamps.lag)
    (hlag' : (q.run (unwatched .toCaller i) budget v).2.2.mem.ram.stamps.lag = v.mem.ram.stamps.lag) :
    Parallel S i (p.run (unwatched .toCaller i) budget w) (q.run (unwatched .toCaller i) budget v) := by
  have hlimit : q.limitFor budget = p.limitFor budget := by
    unfold limitFor
    rw [halike.retired]
  have hbudget : p.limitFor budget - p.retired ≤ budget := by
    unfold limitFor
    omega
  have hn := stepsFrom_le (p.limitFor budget - p.retired) .boundary
  have hshows := (unwatched (γ := γ) (δ := δ) .toCaller i).shows_recording
  unfold touched at hdata
  rw [run_eq] at hdata
  -- the first processor runs as the second does without a cache
  have hsteps : Parallel S i (runSteps (unwatched .toCaller i) (p.limitFor budget) (2 * budget + 1) .boundary p w)
      (runInstrs (unwatched .toCaller i) (p.limitFor budget) (budget + 1) q v) :=
    parallel_runSteps (l := { world := w }) (2 * budget + 1) (budget + 1) hp trivial (.boundary halike hw) .start
      (fun point p' l' hv => hcode point p' l'.world ((visits_shown hshows).2 ⟨l', rfl, hv⟩)) hdata (by omega) (by omega)
      (by rwa [run_eq] at hlag)
  -- and the second one runs as it does without a cache
  obtain ⟨houtcome, hprocs, hboards⟩ := agree_run Delivery.blind_toCaller (Delivery.tame_toCaller _) budget hq (.refl q)
    (.refl v) hlag'
  rw [runPlain_eq, hlimit] at houtcome hprocs hboards
  rw [run_eq (unwatched .toCaller i) budget p w]
  refine ⟨?_, hsteps.procs.trans hprocs.symm, hsteps.boards.of_matches (.refl _) hboards.symm⟩
  rw [← houtcome, hsteps.outcome]

end Processor

end TraceCore
