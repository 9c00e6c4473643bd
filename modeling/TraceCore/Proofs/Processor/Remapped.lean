/-
Processors on one board whose memory is mapped, unmapped and stored into while they run flat code. An
instruction in one page is always the one that is mapped there. One that goes on in a second page is
the one that was, in the frame where it was decoded: nothing looks whether the second page is still
mapped to that frame, or at all.
-/
import TraceCore.Proofs.Processor.Mapped

namespace TraceCore

/-! ## The regime of flat code -/

/-- Flat code. A trace in one page fits every window, since all windows end with their page. -/
def Regime.flat (γ δ : Type) : Regime γ δ where
  course := Board.Passes
  cpu := Cpu.Flat
  mem _ := True
  trace _ _ t := t.tail = none → t.byteLen ≤ toPageEnd t.addr
  isCourse := Board.course_passes
  passes := id
  stays _ _ := trivial
  orderly := by
    intro c hc
    refine ⟨fun hb => ?_, ?_⟩
    · rcases hc with h | ⟨h, -⟩
      · rw [hb] at h; cases h
      · rw [hb] at h; cases h
    · rcases hc with h | ⟨-, hbase, -⟩
      · exact Or.inl (Or.inl h)
      · exact Or.inr (by rw [hbase]; rfl)
  moves hc h _ := h.flat hc
  goesOn h _ _ := h
  refresh := by
    intro c m t t' stamps h hrefresh htail
    obtain ⟨headStamp, tailStamp, rfl⟩ := Trace.refresh_eq hrefresh
    exact h (by simpa using htail)
  fresh := by
    intro c w guard d site t hc _ hrip hmode hview hall haddr hmode' hfresh htail
    have hle := (Board.fetchView_le hview).2.1
    rw [haddr]
    cases hfresh with
    | run _ fits => omega
    | joined t' s n _ old tail' addr mode fits bytes =>
      -- the trace that the run meets ends in the same page, `n` bytes closer to its end
      have hold := hall s t' old tail'
      rw [addr, (pageOf_add (show n < toPageEnd site.addr by unfold maxInstrLen at fits; omega)).2.2.1] at hold
      unfold maxInstrLen at fits
      omega
    | split window offset second tail => rw [tail] at htail; cases htail
  room := by
    intro c m t n hc _ h htail hview
    rw [(MappedRam.fetchView_flat hc hview).2.1]
    exact h htail

/-! ## Instructions that are executed -/

namespace MappedRam

/-- What a processor of flat code makes of the bytes at its instruction pointer. If the instruction ends
in their page, the mappings show it. If it goes on in the next page, it was completed from some frame,
and the mappings show it just if they have the next page where the same instruction is completed. -/
def Fetches (m : MappedRam) (c : Cpu) (i : Instr) : Prop :=
  ∃ addr, m.translate (c.codeAddress c.rip) .execute c.cpl = .ok addr ∧
    (i.len ≤ toPageEnd addr → m.Shows c i) ∧
    (toPageEnd addr < i.len → ∃ frame, pageOffset frame = 0 ∧
      decodeInstr (m.ram.slice addr (toPageEnd addr) ++ m.ram.slice frame maxInstrLen) c.fetchMode = .complete i ∧
      (m.Shows c i ↔ ∃ addr',
        m.translate (c.codeAddress (c.rip + UInt64.ofNat (toPageEnd addr))) .execute c.cpl = .ok addr' ∧
          decodeInstr (m.ram.slice addr (toPageEnd addr) ++ m.ram.slice addr' maxInstrLen) c.fetchMode = .complete i))

end MappedRam

namespace Processor

variable {γ δ : Type} {g : Guard (Board γ δ)} {d : Delivery (Board γ δ)} {i : Nat} {p : Processor} {w : Board γ δ}

theorem OnTrace.fetches (h : p.Sound (Regime.flat γ δ) w) {index left k n : Nat} {t : Trace}
    (ht : p.OnTrace w index left t k n) :
    ∃ record, p.cache.pool[index]? = some record ∧ w.mem.Fetches p.cpu record.instr := by
  obtain ⟨record, addr, hrecord, hview, hi⟩ := ht.instr h
  obtain ⟨htranslate, rfl, -⟩ := MappedRam.fetchView_flat h.cpu hview
  refine ⟨record, hrecord, addr, htranslate, fun hle => ?_, fun hlt => ?_⟩
  · rcases hi with ⟨hdecode, -⟩ | ⟨second, -, -, -, hcross, -⟩
    · exact MappedRam.shows_of_decode h.cpu hview hdecode hle
    · omega
  · rcases hi with ⟨-, hle⟩ | ⟨second, -, -, -, -, hdecode⟩
    · omega
    · have hmax := (len_of_decodeInstr hdecode).2.1
      refine ⟨second.start, ?_, hdecode, MappedRam.shows_iff_of_crosses h.cpu hview hlt hmax⟩
      rw [pageOffset_eq, Snapshot.start, UInt64.toNat_mul]
      show second.page.toNat * 4096 % 2 ^ 64 % 4096 = 0
      omega

/-! ## Faults instead of instructions -/

/-- At a boundary the processor goes on to fetch: no event keeps it, it is awake, and budget is left. -/
def GoesOn {ω : Type} (s : Socket ω) (limit : Nat) (p : Processor) (w : ω) (p₁ : Processor) (w₁ : ω) : Prop :=
  serve s { p with linker := p.linker.reset } w = (none, p₁, w₁) ∧ p₁.cpu.halted = false ∧ p₁.retired < limit

/-- Looking for the trace gave a fault, and that is handed over instead of running an instruction. -/
def Faults {ω : Type} (s : Socket ω) (limit : Nat) (p : Processor) (w : ω) (p₁ : Processor) (w₁ : ω) (fault : Fault) :
    Prop :=
  ∃ p₂ w₂, p₁.findTrace s w₁ = (.error fault, p₂, w₂) ∧
    p.step s limit .boundary w = handFault s fault p₁.cpu.rip p₂ w₂

theorem GoesOn.faults_iff {ω : Type} {s : Socket ω} {limit : Nat} {p p₁ : Processor} {w w₁ : ω} {fault : Fault}
    (h : p.GoesOn s limit w p₁ w₁) : p.Faults s limit w p₁ w₁ fault ↔ (p₁.findTrace s w₁).1 = .error fault := by
  obtain ⟨hserve, hrun, hleft⟩ := h
  constructor
  · rintro ⟨p₂, w₂, hfind, -⟩
    rw [hfind]
  · intro hfault
    generalize hfind : p₁.findTrace s w₁ = out at hfault
    obtain ⟨r, p₂, w₂⟩ := out
    obtain rfl : r = .error fault := hfault
    refine ⟨p₂, w₂, hfind, ?_⟩
    unfold step stepBoundary
    dsimp only
    rw [hserve]
    dsimp only
    rw [hrun, if_neg Bool.false_ne_true, if_neg (Nat.not_le.2 hleft), hfind]

/-- Where nothing can be fetched, there is no trace, whatever the cache holds. -/
theorem findTrace_of_error {R : Regime γ δ} (hg : g.Quiet) (h : p.Sound R w) {e : FetchFault}
    (hview : w.mem.fetchView p.cpu p.cpu.rip = .error e) :
    (p.findTrace (Board.socket g d i) w).1 = .error (.fetch e) := by
  unfold findTrace
  rcases enterWindow_cases (d := d) (i := i) hg h.window (fun o => h.view) with ⟨e', w', hout, -, he⟩ |
    ⟨o, window, w', -, -, -, hok⟩
  · rw [hview] at he
    cases he
    rw [hout]
  · rw [hview] at hok
    cases hok

/-- Where an instruction needs a second window and there is none, it takes a trace from before to miss
that. -/
theorem findTrace_of_next {R : Regime γ δ} (hg : g.Quiet) (h : p.Sound R w) {addr : UInt64} {e : FetchFault}
    (hview : w.mem.fetchView p.cpu p.cpu.rip = .ok (addr, toPageEnd addr)) (hlt : toPageEnd addr < maxInstrLen)
    (hin : addr.toNat + toPageEnd addr ≤ w.mem.ram.bytes.size)
    (hshort : decodeInstr (w.mem.ram.slice addr (toPageEnd addr)) p.cpu.fetchMode = .short)
    (hnext : w.mem.fetchView p.cpu (p.cpu.rip + UInt64.ofNat (toPageEnd addr)) = .error e) :
    (p.findTrace (Board.socket g d i) w).1 = .error (.fetch e) ↔
      (p.cache.lookup w.mem.ram.stamps addr p.cpu.fetchMode).1 = none := by
  unfold findTrace
  rcases enterWindow_cases (d := d) (i := i) hg h.window (fun o => h.view) with ⟨e', w', -, -, he⟩ |
    ⟨o, window, w', hout, hmem, -, hok⟩
  · rw [hview] at he
    cases he
  · rw [hview, Except.ok.injEq, Prod.mk.injEq] at hok
    obtain ⟨haddr, hrem⟩ := hok
    rw [hout]
    dsimp only
    rw [← haddr, ← hrem, h.decode]
    have hopen : (Board.nextWindow g p.cpu (p.cpu.rip + UInt64.ofNat (toPageEnd addr)) w').1 = .error (.fetch e) := by
      rw [← hmem] at hnext
      unfold Board.nextWindow
      dsimp only
      rw [(Board.openWindow_eq_error g).2 hnext]
      rfl
    rw [← hmem] at hin hshort ⊢
    exact TraceCache.ensure_of_short ⟨addr, p.cpu.fetchMode, p.cpu.rip, toPageEnd addr⟩
      (h.of_mem hmem).coherent hin (Nat.le_refl _) hlt hshort hopen

end Processor

/-! ## Histories -/

/-- Any number of processors on one board. -/
structure CodeBoard (γ δ : Type) where
  procs : Nat → Processor
  board : Board γ δ

namespace CodeBoard

variable {γ δ : Type} {g : Guard (Board γ δ)} {d : Delivery (Board γ δ)} {s : CodeBoard γ δ}

inductive Op (γ δ : Type) where
  | run (k budget : Nat) (guard : Guard (Board γ δ)) (delivery : Delivery (Board γ δ))
  | map (linear : UInt64) (mapping : Mapping)
  | unmap (linear : UInt64)
  /-- A store that no processor makes. -/
  | store (addr : UInt64) (src : List UInt8)
  /-- Events are raised, guard and delivery are told. -/
  | tell (f : Board γ δ → Board γ δ)
  | assign (k : Nat) (cpu : Cpu)
  | drop (k : Nat)

/-- What an operation may rely on. A processor that has a window open does not come to other segments,
another mode or another privilege level. -/
def Op.Fair (s : CodeBoard γ δ) : Op γ δ → Prop
  | .run _ _ guard delivery => guard.Quiet ∧ delivery.Tame (Regime.flat γ δ)
  | .tell f => ∀ w, (f w).mem = w.mem
  | .assign k cpu => cpu.Flat ∧ ((s.procs k).cpu.SameContext cpu ∨ (s.procs k).window.size = 0)
  | _ => True

/-- Processor `k` and the board are replaced. -/
def put (s : CodeBoard γ δ) (k : Nat) (p : Processor) (board : Board γ δ) : CodeBoard γ δ :=
  ⟨fun j => if j = k then p else s.procs j, board⟩

def step (s : CodeBoard γ δ) : Op γ δ → CodeBoard γ δ
  | .run k budget guard delivery =>
    let out := (s.procs k).run (Board.socket guard delivery k) budget s.board
    s.put k out.2.1 out.2.2
  | .map linear mapping => { s with board.mem := s.board.mem.map linear mapping }
  | .unmap linear => { s with board.mem := s.board.mem.unmap linear }
  | .store addr src => { s with board := (Board.bus.write addr src s.board).2 }
  | .tell f => { s with board := f s.board }
  | .assign k cpu => s.put k { s.procs k with cpu } s.board
  | .drop k => s.put k (s.procs k).dropTraces s.board

theorem mem_map (s : CodeBoard γ δ) (linear : UInt64) (mapping : Mapping) :
    (s.step (.map linear mapping)).board.mem = s.board.mem.map linear mapping := rfl

theorem mem_store (s : CodeBoard γ δ) (addr : UInt64) (src : List UInt8) :
    (s.step (.store addr src)).board.mem = (s.board.mem.write addr src).2 := rfl

inductive Reached : CodeBoard γ δ → Prop
  | start (configs : Nat → CoreConfig) (cpus : Nat → Cpu) (s : CodeBoard γ δ) (size : UInt64)
      (new : ∀ k, Processor.new k (configs k) (cpus k) = .ok (s.procs k)) (flat : ∀ k, (cpus k).Flat)
      (mem : MappedRam.ofSize size = .ok s.board.mem) : Reached s
  | step {s : CodeBoard γ δ} (op : Op γ δ) (before : Reached s) (fair : op.Fair s) : Reached (s.step op)

/-- As long as no stamp came round, all processors are sound. -/
structure Inv (s : CodeBoard γ δ) : Prop where
  counted : s.board.Counted
  tracked : s.board.mem.ram.Tracked
  sound : s.board.mem.ram.stamps.lag = 0 → ∀ k, (s.procs k).Sound (Regime.flat γ δ) s.board

/-- Processor `k` goes from one sound state to another; the others are as sound as before. -/
theorem Inv.put (h : s.Inv) (k : Nat) {p : Processor} {board : Board γ δ} (hboard : s.board.Passes board)
    (hp : board.mem.ram.stamps.lag = s.board.mem.ram.stamps.lag → (s.procs k).Sound (Regime.flat γ δ) s.board →
      p.Sound (Regime.flat γ δ) board) : (s.put k p board).Inv := by
  refine ⟨h.counted.passes hboard, hboard.tracked h.tracked, fun hlag j => ?_⟩
  have hlag : board.mem.ram.stamps.lag = 0 := hlag
  obtain ⟨n, hn⟩ := h.counted
  have hle := hboard.lag_le
  have hzero : s.board.mem.ram.stamps.lag = 0 := by omega
  have hsame : board.mem.ram.stamps.lag = s.board.mem.ram.stamps.lag := by omega
  unfold CodeBoard.put
  dsimp only
  split
  case isTrue => exact hp hsame (h.sound hzero k)
  case isFalse => exact (h.sound hzero j).goesOn hboard hsame

/-- Only the board changes. -/
theorem Inv.passes (h : s.Inv) {board : Board γ δ} (hboard : s.board.Passes board) : Inv { s with board } := by
  have hput := h.put 0 hboard fun hlag h₀ => h₀.goesOn hboard hlag
  have hsame : s.put 0 (s.procs 0) board = { s with board } := by
    unfold CodeBoard.put
    congr 1
    funext j
    split
    case isTrue hj => rw [hj]
    case isFalse => rfl
  rwa [hsame] at hput

theorem inv_step (h : s.Inv) (op : Op γ δ) (hfair : op.Fair s) : (s.step op).Inv := by
  cases op with
  | run k budget guard delivery =>
    exact h.put k (Processor.course_run Board.course_passes hfair.1 hfair.2.keeps budget _ _) fun hlag hk =>
      (Processor.sound_run hfair.1 hfair.2 budget hk hlag).2
  | map linear mapping => exact h.passes (Board.passes_remapped rfl (Nat.le_refl _))
  | unmap linear => exact h.passes (Board.passes_remapped rfl (Nat.le_refl _))
  | store addr src => exact h.passes (Board.passes_write addr src s.board)
  | tell f => exact h.passes (Board.passes_quiet (hfair s.board))
  | drop k => exact h.put k (Board.passes_quiet rfl) fun _ hk => hk.dropTraces
  | assign k cpu =>
    refine h.put k (Board.passes_quiet rfl) fun _ hk => ?_
    rcases hfair.2 with hsame | hclosed
    · exact hk.assigned hsame hfair.1
    · exact ⟨hk.decode, hfair.1, trivial, hk.tracked, hk.coherent, Or.inl hclosed, hk.traces⟩

theorem inv_of_reached (h : s.Reached) : s.Inv := by
  induction h with
  | start configs cpus s size new flat mem =>
    obtain ⟨htracked, n, hstamps⟩ := Ram.tracked_ofSize (MappedRam.ram_ofSize mem)
    have hlag : s.board.mem.ram.stamps.lag = 0 := by
      rw [hstamps]
      exact StampTable.lag_ofPages n
    exact ⟨⟨0, by rw [hlag]; rfl⟩, htracked, fun _ k => Processor.sound_new (new k) (flat k) trivial htracked⟩
  | step op _ fair ih => exact inv_step ih op fair

/-- Wherever a processor is in a run, it is sound and ready. -/
theorem Inv.visited (h : s.Inv) (hg : g.Quiet) (hd : d.Tame (Regime.flat γ δ)) {k limit : Nat} {point : Point}
    {p : Processor} {w : Board γ δ} (hv : Processor.Visits (Board.socket g d k) limit (s.procs k) s.board point p w) :
    w.Counted ∧ (w.mem.ram.stamps.lag = 0 → p.Sound (Regime.flat γ δ) w ∧ p.Ready w point) := by
  have hpass := Processor.course_of_visits hg hd hv
  obtain ⟨n, hn⟩ := h.counted
  have hle := hpass.lag_le
  refine ⟨h.counted.passes hpass, fun hlag => ?_⟩
  exact (Processor.sound_of_visits hg hd (h.sound (by omega) k) hv (by omega)).2

/-- Every instruction that is executed comes from where the mappings have it now, as far as it lies in one
page. Where the page at the instruction pointer is not mapped for execution, the page fault is handed
over. Where only the next page is not, and the instruction needs it, the page fault is handed over just
if no trace of the instruction is left. -/
theorem fetches_of_reached (h : s.Reached) (hg : g.Quiet) (hd : d.Tame (Regime.flat γ δ)) {k limit : Nat}
    {point : Point}
    {p : Processor} {w : Board γ δ} (hv : Processor.Visits (Board.socket g d k) limit (s.procs k) s.board point p w)
    (hfew : w.mem.ram.stamps.generation < 2 ^ 32) :
    (∀ index left generation branch, point = .record index left generation branch →
      ∃ record, p.cache.pool[index]? = some record ∧ w.mem.Fetches p.cpu record.instr) ∧
    ∀ p₁ w₁, point = .boundary → p.GoesOn (Board.socket g d k) limit w p₁ w₁ →
      w₁.mem.ram.stamps.generation < 2 ^ 32 → p₁.cpu.Addressable p₁.cpu.rip →
        (∀ pf, w₁.mem.translate (p₁.cpu.codeAddress p₁.cpu.rip) .execute p₁.cpu.cpl = .error pf →
          p.Faults (Board.socket g d k) limit w p₁ w₁ (.fetch (.page pf))) ∧
        ∀ addr pf, w₁.mem.translate (p₁.cpu.codeAddress p₁.cpu.rip) .execute p₁.cpu.cpl = .ok addr →
          addr.toNat < w₁.mem.ram.bytes.size → toPageEnd addr < maxInstrLen →
          decodeInstr (w₁.mem.ram.slice addr (toPageEnd addr)) p₁.cpu.fetchMode = .short →
          p₁.cpu.Addressable (p₁.cpu.rip + UInt64.ofNat (toPageEnd addr)) →
          w₁.mem.translate (p₁.cpu.codeAddress (p₁.cpu.rip + UInt64.ofNat (toPageEnd addr))) .execute p₁.cpu.cpl =
            .error pf →
          (p.Faults (Board.socket g d k) limit w p₁ w₁ (.fetch (.page pf)) ↔
            (p₁.cache.lookup w₁.mem.ram.stamps addr p₁.cpu.fetchMode).1 = none) := by
  obtain ⟨hcounted, hvisited⟩ := (inv_of_reached h).visited hg hd hv
  obtain ⟨hsound, hready⟩ := hvisited (hcounted.lag_eq hfew)
  refine ⟨fun index left generation branch hpoint => ?_, fun p₁ w₁ hpoint hgo hfew₁ hrip => ?_⟩
  · subst hpoint
    obtain ⟨-, t, j, n, hon⟩ := hready
    exact hon.fetches hsound
  · -- what is pending may be delivered before the fetch
    have hreset : Processor.Sound (Regime.flat γ δ) { p with linker := p.linker.reset } w :=
      ⟨hsound.decode, hsound.cpu, trivial, hsound.tracked, hsound.coherent, hsound.window, hsound.traces⟩
    have hpass := (Processor.onward_serve (g := g) (d := d) (i := k) Board.course_passes hd.keeps
      { p with linker := p.linker.reset } w).world
    have hserved := Processor.sound_serve (g := g) (i := k) hd hreset
    rw [hgo.1] at hpass hserved
    have hsound₁ : p₁.Sound (Regime.flat γ δ) w₁ :=
      (hserved (by rw [(hcounted.passes hpass).lag_eq hfew₁, hcounted.lag_eq hfew])).2
    refine ⟨fun pf htranslate => ?_, fun addr pf htranslate hin hlt hshort hnext hfault => ?_⟩
    · exact hgo.faults_iff.2
        (Processor.findTrace_of_error hg hsound₁ (MappedRam.fetchView_of_fault hsound₁.cpu hrip htranslate))
    · have hview := MappedRam.fetchView_of_translate hsound₁.cpu hrip htranslate hin
      exact hgo.faults_iff.trans (Processor.findTrace_of_next hg hsound₁ hview hlt
        (MappedRam.fetchView_flat hsound₁.cpu hview).2.2 hshort
        (MappedRam.fetchView_of_fault hsound₁.cpu hnext hfault))

/-- Processors of flat code on a page of zeros. -/
def blank : CodeBoard Unit Unit :=
  ⟨fun k =>
    { id := k, config := { traceSlots := 1, recordPool := 2, maxTraceLen := 1 }, decode := decodeInstr
      cpu := .new .protectedMode, window := .empty, cache := .new { traceSlots := 1, recordPool := 2, maxTraceLen := 1 }
      linker := .new { traceSlots := 1, recordPool := 2, maxTraceLen := 1 }, retired := 0, resume := false },
    ⟨{ ram := .zeroPage }, (), (), #[{}]⟩⟩

/-- With `nop` stored at the start of the page. -/
def oneNop : CodeBoard Unit Unit := blank.step (.store 0 [0x90])

/-- And with a mapping, though of another page. -/
def unmapped : CodeBoard Unit Unit := oneNop.step (.map 0x1000 { frame := 0 })

theorem reached_oneNop : oneNop.Reached := by
  have hnew : MappedRam.ofSize 4096 = .ok blank.board.mem := by
    rw [MappedRam.ofSize, Ram.ofSize_zeroPage]
    rfl
  exact .step _ (.start (fun _ => { traceSlots := 1, recordPool := 2, maxTraceLen := 1 }) (fun _ => .new .protectedMode)
    blank 4096 (fun _ => rfl) (fun _ => Or.inr ⟨rfl, rfl, rfl⟩) hnew) trivial

/-- The processor and the board once it is before the `nop`. -/
def beforeNop : Processor × Board Unit Unit :=
  ((oneNop.procs 0).step (Board.socket .none .toCaller 0) 1 .boundary oneNop.board).2

theorem visits_beforeNop : Processor.Visits (Board.socket .none .toCaller 0) 1 (oneNop.procs 0) oneNop.board
    (.record 0 0 0 none) beforeNop.1 beforeNop.2 := by
  refine .goto .start ?_
  have hpoint : ((oneNop.procs 0).step (Board.socket .none .toCaller 0) 1 .boundary oneNop.board).1 =
      .goto (.record 0 0 0 none) := by decide +kernel
  unfold beforeNop
  rw [← hpoint]

theorem reached_unmapped : unmapped.Reached := .step _ reached_oneNop trivial

theorem goesOn_unmapped : Processor.GoesOn (Board.socket .none .toCaller 0) 1 (unmapped.procs 0) unmapped.board
    (unmapped.procs 0) unmapped.board :=
  ⟨Processor.serve_of_quiet (by decide +kernel) _, by decide +kernel, by decide +kernel⟩

theorem few_unmapped : unmapped.board.mem.ram.stamps.generation < 2 ^ 32 := by decide +kernel

theorem translate_unmapped : unmapped.board.mem.translate 0 .execute 0 = .error (.of 0 false .execute 0) := by
  unfold unmapped oneNop
  rw [mem_map, mem_store, MappedRam.translate_map, MappedRam.mappings_write, if_neg (by decide)]
  exact if_neg nofun

/-- The `nop` is executed where it is mapped, and where it is not, its page fault is handed over. -/
theorem fetches_oneNop :
    (∃ record, beforeNop.1.cache.pool[0]? = some record ∧ beforeNop.2.mem.Fetches beforeNop.1.cpu record.instr) ∧
    (unmapped.procs 0).Faults (Board.socket .none .toCaller 0) 1 unmapped.board (unmapped.procs 0) unmapped.board
      (.fetch (.page (.of 0 false .execute 0))) := by
  have htame : Delivery.toCaller.Tame (Regime.flat Unit Unit) := Delivery.tame_toCaller _
  refine ⟨?_, ?_⟩
  · exact (fetches_of_reached reached_oneNop Guard.quiet_none htame visits_beforeNop (by decide +kernel)).1 0 0 0 none
      rfl
  · have hstart : Processor.Visits (Board.socket .none .toCaller 0) 1 (unmapped.procs 0) unmapped.board .boundary
        (unmapped.procs 0) unmapped.board := .start
    have hfetch := fetches_of_reached reached_unmapped Guard.quiet_none htame hstart few_unmapped
    exact (hfetch.2 _ _ rfl goesOn_unmapped few_unmapped nofun).1 _ translate_unmapped

end CodeBoard

end TraceCore
