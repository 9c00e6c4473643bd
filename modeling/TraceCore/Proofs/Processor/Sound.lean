/-
The invariant of a processor on a board, and what a single step keeps of it. At a record the processor
stands on a current trace, at the place that its instruction pointer is fetched from; the records
behind lie in the same window.
-/
import TraceCore.Proofs.Processor.Regime

namespace TraceCore

variable {γ δ : Type}

namespace Processor

/-- The instruction at the instruction pointer, fetched and decoded anew. -/
def refetch {ω : Type} (s : Socket ω) (p : Processor) (w : ω) : Except Fault Instr × ω :=
  match openWindow s.bus s.guard p.cpu p.cpu.rip w with
  | (.error e, w) => (.error (.fetch e), w)
  | (.ok window, w) =>
    let site : Site :=
      { addr := window.address window.entry, mode := p.cpu.fetchMode, rip := p.cpu.rip
        remaining := window.remaining window.entry }
    let next (rip : UInt64) (w : ω) : Except Fault FetchWindow × ω :=
      let (r, w) := openWindow s.bus s.guard p.cpu rip w
      (r.mapError .fetch, w)
    decodeAt s.bus p.decode site next w

/-- The cache holds what memory holds, and the window has instruction pointers where the processor
fetches them from. -/
structure Sound (R : Regime γ δ) (p : Processor) (w : Board γ δ) : Prop where
  decode : p.decode = decodeInstr
  cpu : R.cpu p.cpu
  mem : R.mem w.mem
  tracked : w.mem.ram.Tracked
  coherent : p.cache.Coherent w.mem.ram
  window : p.window.size = 0 ∨ p.window.OpenedFor p.cpu w
  traces : p.cache.All (R.trace p.cpu w.mem)

/-- The processor is before record `k` of the current trace `t`, with `n` bytes to the end of its
window. -/
structure OnTrace (p : Processor) (w : Board γ δ) (index left : Nat) (t : Trace) (k n : Nat) : Prop where
  found : ∃ slot, p.cache.trace? slot = some t
  current : t.Current w.mem.ram
  mode : t.mode = p.cpu.fetchMode
  index : index = t.start + k
  left : k + left + 1 = t.len
  view : w.mem.fetchView p.cpu p.cpu.rip = .ok (t.addr + UInt64.ofNat (Ram.bytesOf ((p.cache.instrs t).take k)), n)
  fits : t.tail = none → Ram.bytesOf ((p.cache.instrs t).drop k) ≤ n

/-- Where the dispatch loop may be. -/
def Ready (p : Processor) (w : Board γ δ) : Point → Prop
  | .boundary => True
  | .record index left generation _ =>
    generation = w.mem.ram.stamps.generation ∧ ∃ t k n, p.OnTrace w index left t k n

/-- Only the state, the world and the window may differ, and the window only by being closed. -/
structure Steady (p p' : Processor) : Prop where
  decode : p'.decode = p.decode
  cache : p'.cache = p.cache
  window : p'.window = p.window ∨ p'.window = p.window.close
  context : p.cpu.SameContext p'.cpu

theorem Steady.refl (p : Processor) : p.Steady p := ⟨rfl, rfl, Or.inl rfl, .refl _⟩

variable {R : Regime γ δ} {g : Guard (Board γ δ)} {d : Delivery (Board γ δ)} {i : Nat} {p p' : Processor}
    {w w' : Board γ δ}

theorem Sound.steady (h : p.Sound R w) (hp : p.Steady p') (hcpu : R.cpu p'.cpu) (hw : R.course w w')
    (hlag : w'.mem.ram.stamps.lag = w.mem.ram.stamps.lag) : p'.Sound R w' := by
  have hpass := R.passes hw
  refine ⟨hp.decode.trans h.decode, hcpu, R.stays hw h.mem, hpass.tracked h.tracked, ?_, ?_, ?_⟩
  · rw [hp.cache]
    exact h.coherent.later h.tracked (hpass.still h.tracked hlag)
  · rcases hp.window with hwin | hwin
    · rw [hwin]
      exact h.window.imp_right fun ho => (ho.moves hpass.moves).congr hp.context.sameFetch
    · rw [hwin]
      exact Or.inl rfl
  · rw [hp.cache]
    exact fun s t ht => R.goesOn (h.traces s t ht) hp.context hw

/-- Only the memory of the board counts. -/
theorem Sound.of_mem (h : p.Sound R w) (hmem : w'.mem = w.mem) : p.Sound R w' :=
  h.steady (.refl p) h.cpu (R.isCourse.quiet hmem) (by rw [hmem])

theorem OnTrace.of_mem {index left k n : Nat} {t : Trace} (h : p.OnTrace w index left t k n) (hmem : w'.mem = w.mem) :
    p.OnTrace w' index left t k n :=
  ⟨h.found, by rw [hmem]; exact h.current, h.mode, h.index, h.left, by rw [hmem]; exact h.view, h.fits⟩

/-- The open window has the instruction pointer where it is fetched from. -/
theorem Sound.view (h : p.Sound R w) {o : Nat} (ho : p.offsetOf Board.bus p.cpu.rip w = some o) :
    w.mem.fetchView p.cpu p.cpu.rip = .ok (p.window.address o, p.window.remaining o) := by
  obtain ⟨hopened, hview⟩ := fetchView_of_offsetOf h.window ho
  refine hview.2 ?_
  rcases (R.orderly h.cpu).pointer with hr | hbase
  · exact hr
  · by_contra hr
    obtain ⟨guard, rip, w₀, -, hopen, -⟩ := hopened
    obtain ⟨linear, addr, hat, -⟩ := (Board.openWindow_eq_ok guard).1 hopen
    have hlt := (FetchWindow.offset?_eq_some.1 (offsetOf_eq_some.1 ho).2).1
    exact (remaining_lt_of_not_reaches hat hlt hr).1 hbase

/-! ## Finding a trace -/

/-- The open window serves, or a new one is opened, or there is none. -/
theorem enterWindow_cases (hg : g.Quiet) (hwindow : p.window.size = 0 ∨ p.window.OpenedFor p.cpu w)
    (hview : ∀ o, p.offsetOf Board.bus p.cpu.rip w = some o →
      w.mem.fetchView p.cpu p.cpu.rip = .ok (p.window.address o, p.window.remaining o)) :
    (∃ e w', p.enterWindow (Board.socket g d i) w = (.error e, p, w') ∧ w'.mem = w.mem ∧
      w.mem.fetchView p.cpu p.cpu.rip = .error e) ∨
      ∃ o window w', p.enterWindow (Board.socket g d i) w = (.ok o, { p with window }, w') ∧ w'.mem = w.mem ∧
        (window.size = 0 ∨ window.OpenedFor p.cpu w) ∧
        w.mem.fetchView p.cpu p.cpu.rip = .ok (window.address o, window.remaining o) := by
  unfold enterWindow
  split
  case h_1 o ho => exact Or.inr ⟨o, p.window, w, rfl, rfl, hwindow, hview o ho⟩
  case h_2 =>
    have hworld := Board.mem_openWindow hg p.cpu p.cpu.rip w
    rcases hopen : openWindow Board.bus g p.cpu p.cpu.rip w with ⟨r, w'⟩
    rw [hopen] at hworld
    rw [show openWindow (Board.socket g d i).bus (Board.socket g d i).guard p.cpu p.cpu.rip w = _ from hopen]
    cases r with
    | error e => exact Or.inl ⟨e, w', rfl, hworld, (Board.openWindow_eq_error g).1 (by rw [hopen])⟩
    | ok window =>
      have hok : (openWindow Board.bus g p.cpu p.cpu.rip w).1 = .ok window := by rw [hopen]
      exact Or.inr ⟨window.entry, window, w', rfl, hworld, Or.inr ⟨g, p.cpu.rip, w, hg, hok, .refl _⟩,
        Board.fetchView_of_openWindow hok⟩

/-- A processor after it looked for the trace at its instruction pointer. -/
structure Found (R : Regime γ δ) (g : Guard (Board γ δ)) (d : Delivery (Board γ δ)) (i : Nat) (p : Processor)
    (w : Board γ δ) (r : Except Fault Nat) (p' : Processor) (w' : Board γ δ) : Prop where
  world : w.Registered w'
  only : ∃ window cache, p' = { p with window, cache }
  sound : p'.Sound R w'
  /-- It fails only as fetching and decoding anew does. -/
  failed : ∀ f, r = .error f → (p.refetch (Board.socket g d i) w).1 = .error f
  entered : ∀ slot, r = .ok slot → ∃ t n, p'.cache.trace? slot = some t ∧ t.Current w'.mem.ram ∧
    t.mode = p.cpu.fetchMode ∧ w.mem.fetchView p.cpu p.cpu.rip = .ok (t.addr, n)

theorem refetch_error {e : FetchFault} (h : w.mem.fetchView p.cpu p.cpu.rip = .error e) :
    (p.refetch (Board.socket g d i) w).1 = .error (.fetch e) := by
  have hopen := (Board.openWindow_eq_error g).2 h
  unfold refetch
  rcases ho : openWindow Board.bus g p.cpu p.cpu.rip w with ⟨r, w'⟩
  rw [ho] at hopen
  rw [show openWindow (Board.socket g d i).bus (Board.socket g d i).guard p.cpu p.cpu.rip w = _ from ho]
  cases hopen
  rfl

/-- Where an instruction can be fetched, it is decoded from there. -/
theorem refetch_ok (hg : g.Quiet) {addr : UInt64} {n : Nat} (h : w.mem.fetchView p.cpu p.cpu.rip = .ok (addr, n)) :
    (p.refetch (Board.socket g d i) w).1 =
      (decodeAt Board.bus p.decode ⟨addr, p.cpu.fetchMode, p.cpu.rip, n⟩ (Board.nextWindow g p.cpu) w).1 := by
  have hworld := Board.mem_openWindow hg p.cpu p.cpu.rip w
  unfold refetch
  rcases ho : openWindow Board.bus g p.cpu p.cpu.rip w with ⟨r, w'⟩
  rw [ho] at hworld
  rw [show openWindow (Board.socket g d i).bus (Board.socket g d i).guard p.cpu p.cpu.rip w = _ from ho]
  cases r with
  | error e =>
    rw [(Board.openWindow_eq_error g).1 (by rw [ho])] at h
    cases h
  | ok window =>
    have hview := Board.fetchView_of_openWindow
      (show (openWindow Board.bus g p.cpu p.cpu.rip w).1 = .ok window by rw [ho])
    rw [h] at hview
    cases hview
    exact Board.decodeAt_congr hg hg (.of_eq hworld) _ _

/-- Looking for a trace is to enter the window and to ask the cache there. -/
theorem findTrace_cases (hg : g.Quiet) (hwindow : p.window.size = 0 ∨ p.window.OpenedFor p.cpu w)
    (hview : ∀ o, p.offsetOf Board.bus p.cpu.rip w = some o →
      w.mem.fetchView p.cpu p.cpu.rip = .ok (p.window.address o, p.window.remaining o))
    (hcont : p.cpu.Continues p.cpu.rip) :
    (∃ e w₁, p.findTrace (Board.socket g d i) w = (.error (.fetch e), p, w₁) ∧ w₁.mem = w.mem ∧
      w.mem.fetchView p.cpu p.cpu.rip = .error e) ∨
      ∃ site window w₁ r cache w', p.findTrace (Board.socket g d i) w = (r, { p with window, cache }, w') ∧
        p.cache.ensure Board.bus p.decode site (Board.nextWindow g p.cpu) w₁ = (r, cache, w') ∧ w₁.mem = w.mem ∧
        site.rip = p.cpu.rip ∧ site.mode = p.cpu.fetchMode ∧ (window.size = 0 ∨ window.OpenedFor p.cpu w) ∧
        w.mem.fetchView p.cpu p.cpu.rip = .ok (site.addr, site.remaining) ∧
        TraceCache.Continues site (Board.nextWindow g p.cpu) w₁ ∧
        (p.refetch (Board.socket g d i) w).1 =
          (decodeAt Board.bus p.decode site (Board.nextWindow g p.cpu) w₁).1 := by
  unfold findTrace
  rcases enterWindow_cases (d := d) (i := i) hg hwindow hview with ⟨e, w₁, hout, hmem, he⟩ |
    ⟨o, window, w₁, hout, hmem, hopened, hok⟩
  · exact Or.inl ⟨e, w₁, by rw [hout], hmem, he⟩
  · have hrefetch := refetch_ok (d := d) (i := i) hg hok
    rw [← Board.decodeAt_congr hg hg (.of_eq hmem)] at hrefetch
    refine Or.inr ⟨⟨window.address o, p.cpu.fetchMode, p.cpu.rip, window.remaining o⟩, window, w₁, _, _, _, ?_, rfl,
      hmem, rfl, rfl, hopened, hok, ?_, hrefetch⟩
    · rw [hout]
      rfl
    · rw [← hmem] at hok
      exact Board.continues_nextWindow hg _ hok hcont

theorem found_findTrace (hg : g.Quiet) (h : p.Sound R w) :
    p.Found R g d i w (p.findTrace (Board.socket g d i) w).1 (p.findTrace (Board.socket g d i) w).2.1
      (p.findTrace (Board.socket g d i) w).2.2 := by
  rcases findTrace_cases (d := d) (i := i) hg h.window (fun o => h.view) (R.orderly h.cpu).continues with
    ⟨e, w₁, hout, hmem, hview⟩ |
    ⟨site, window, w₁, r, c', w', hout, hensure, hmem, hrip, hmode, hopened, hview, hcont, hrefetch⟩
  · rw [hout]
    refine ⟨.of_mem hmem, ⟨p.window, p.cache, rfl⟩, h.of_mem hmem, fun f hf => ?_, nofun⟩
    cases hf
    exact refetch_error hview
  · rw [hout]
    have h₁ := h.of_mem hmem
    have he := TraceCache.ensured_ensure h₁.coherent h₁.tracked hcont
    rw [← h.decode] at he
    have hnext : ∀ rip w', R.course w₁ w' → R.course w₁ (Board.nextWindow g p.cpu rip w').2 := fun rip w' hw' =>
      R.isCourse.trans hw' (R.isCourse.quiet (Board.mem_openWindow hg p.cpu rip w'))
    have hcourse := TraceCache.ensure_keeps (Q := R.course w₁)
      (fun page mask w' hw' => R.isCourse.trans hw' (R.isCourse.register page mask w')) p.decode site hnext p.cache w₁
      (R.isCourse.quiet rfl)
    rw [hensure] at he
    rw [show p.cache.ensure Board.bus p.decode site (Board.nextWindow g p.cpu) w₁ = _ from hensure] at hcourse
    dsimp only at he hcourse ⊢
    have hpass := he.world.passes
    refine ⟨.trans (.of_mem hmem) he.world, ⟨window, c', rfl⟩,
      ⟨h.decode, h.cpu, R.stays hcourse h₁.mem, hpass.tracked h₁.tracked, he.coherent, ?_, ?_⟩, fun f hf => ?_,
      fun slot hslot => ?_⟩
    · exact hopened.imp_right fun ho => ho.moves (by rw [← hmem]; exact hpass.moves)
    · have hall : c'.All (R.trace p.cpu w₁.mem) := by
        refine he.all _ (fun t t' ht ht' => R.refresh ht ht') (fun c t hc haddr hm hfresh => ?_) h₁.traces
        exact R.fresh h.cpu h₁.mem hrip hmode (by rw [hmem]; exact hview) hc haddr hm hfresh
      exact fun s t ht => R.goesOn (hall s t ht) (.refl _) hcourse
    · rw [hrefetch, h.decode]
      exact he.failed f hf
    · obtain ⟨-, t, ht, haddr, hm, hcur⟩ := he.found slot hslot
      exact ⟨t, site.remaining, ht, hcur, hm.trans hmode, by rw [hview, haddr]⟩

theorem bytesOf_instrs {c : TraceCache} {t : Trace} {slot : Nat} (h : c.Coherent w.mem.ram)
    (ht : c.trace? slot = some t) :
    Ram.bytesOf (c.instrs t) = t.byteLen := (h.sound slot t ht).holds.bytes.symm

/-- A trace is entered at its first record. -/
theorem enterTrace_eq {slot : Nat} {t : Trace} (ht : p.cache.trace? slot = some t) (hlen : 0 < t.len) :
    p.enterTrace (Board.socket g d i) slot w = .record t.start (t.len - 1) w.mem.ram.stamps.generation none := by
  unfold enterTrace
  rw [ht]
  dsimp only
  rw [if_neg (Nat.ne_of_gt hlen)]
  rfl

/-- A current trace is entered at its first record. -/
theorem enterTrace_spec (h : p.Sound R w) {slot n : Nat} {t : Trace} (ht : p.cache.trace? slot = some t)
    (hcur : t.Current w.mem.ram) (hmode : t.mode = p.cpu.fetchMode)
    (hview : w.mem.fetchView p.cpu p.cpu.rip = .ok (t.addr, n)) :
    p.enterTrace (Board.socket g d i) slot w = .record t.start (t.len - 1) w.mem.ram.stamps.generation none ∧
      p.OnTrace w t.start (t.len - 1) t 0 n := by
  have hlen := (h.coherent.sound slot t ht).nonempty
  refine ⟨enterTrace_eq ht hlen, ⟨slot, ht⟩, hcur, hmode, rfl, by omega, ?_, fun htail => ?_⟩
  · rw [hview]
    simp
  · rw [List.drop_zero, bytesOf_instrs h.coherent ht]
    exact R.room h.cpu h.mem (h.traces slot t ht) htail hview

/-! ## Running one record -/

/-- How an instruction leaves the processor. -/
structure Executed (i : Instr) (p : Processor) (x : Except Fault Flow) (p' : Processor) : Prop where
  only : ∃ cpu retired, p' = { p with cpu, retired }
  context : p.cpu.SameContext p'.cpu
  retired : p.retired ≤ p'.retired
  progress : x = .ok .giveWay → p.retired < p'.retired
  halted : x ≠ .ok .halt → p'.cpu.halted = p.cpu.halted
  rip : p'.cpu.rip = p.cpu.rip ∨ ∃ target, p'.cpu.rip = target &&& p.cpu.ipMask
  behind : x = .ok .next → p'.cpu.rip = (p.cpu.rip + UInt64.ofNat i.len) &&& p.cpu.ipMask
  jumps : ∀ taken, x = .ok (.branch taken) → ∃ cond rel, i.op = .jump cond rel

theorem executed_execute {ω : Type} (s : Socket ω) (limit : Nat) (i : Instr) (p : Processor) (w : ω) :
    Executed i p (p.execute s limit i w).1 (p.execute s limit i w).2.2.1 := by
  have hran := Exec.ran_instr s { rip := p.cpu.rip, limit, interval := p.config.repeatInterval } i
    { cpu := p.cpu.setRip (p.cpu.rip + UInt64.ofNat i.len), world := w, retired := p.retired }
  unfold execute
  change Executed i p (Exec.eval (Exec.instr s _ i) _).1 { p with
    cpu := (Exec.eval (Exec.instr s _ i) _).2.cpu, retired := (Exec.eval (Exec.instr s _ i) _).2.retired }
  generalize Exec.eval (Exec.instr s { rip := p.cpu.rip, limit, interval := p.config.repeatInterval } i)
    { cpu := p.cpu.setRip (p.cpu.rip + UInt64.ofNat i.len), world := w, retired := p.retired } = out at hran ⊢
  obtain ⟨x, r⟩ := out
  obtain ⟨hcontext, hretired, hhalted, hrip, hprogress, hjumps⟩ := hran
  dsimp only at hcontext hretired hhalted hrip hprogress hjumps ⊢
  refine ⟨⟨r.cpu, r.retired, rfl⟩, hcontext, hretired, hprogress, hhalted, ?_, fun hx => ?_, hjumps⟩
  · have hmasked : r.cpu.rip = (p.cpu.rip + UInt64.ofNat i.len) &&& p.cpu.ipMask →
        r.cpu.rip = p.cpu.rip ∨ ∃ target, r.cpu.rip = target &&& p.cpu.ipMask := fun h => Or.inr ⟨_, h⟩
    cases x with
    | error e => exact hmasked hrip
    | ok flow =>
      cases flow with
      | next => exact hmasked hrip
      | halt => exact hmasked hrip
      | giveWay => exact Or.inl hrip
      | branch taken =>
        rcases hrip with hrip | ⟨target, hrip⟩
        · exact hmasked hrip
        · exact Or.inr ⟨target, hrip⟩
  · subst hx
    exact hrip

/-- An instruction that ends no trace has the next one behind it. -/
theorem Executed.eq_next {instr : Instr} {flow : Flow} (h : Executed instr p (.ok flow) p') {bytes : List UInt8}
    {mode : FetchMode} (hdecode : decodeInstr bytes mode = .complete instr) (hends : instr.ends = false)
    (hhalt : flow ≠ .halt) (hgive : flow ≠ .giveWay) : flow = .next := by
  cases flow with
  | next => rfl
  | halt => exact absurd rfl hhalt
  | giveWay => exact absurd rfl hgive
  | branch taken =>
    obtain ⟨cond, rel, hop⟩ := h.jumps taken rfl
    exact absurd hop (endsOnJump_of_decodeInstr hdecode hends cond rel)

theorem course_execute (R : Regime γ δ) (hg : g.Quiet) (limit : Nat) (instr : Instr) (p : Processor) (w : Board γ δ) :
    R.course w (p.execute (Board.socket g d i) limit instr w).2.2.2 :=
  (onward_execute R.isCourse hg limit instr p w).world

/-- No instruction changes a mapping. -/
theorem remaps_execute (hg : g.Quiet) (limit : Nat) (instr : Instr) (p : Processor) (w : Board γ δ) :
    (p.execute (Board.socket g d i) limit instr w).2.2.2.mem.remaps = w.mem.remaps := by
  have hkeeps : Exec.Keeps (Board.socket g d i) fun w' => w'.mem.remaps = w.mem.remaps := by
    refine ⟨fun _ _ _ _ h => h, fun _ _ _ h => h, fun _ _ _ h => h, fun addr len w' h => ?_⟩
    rw [show (Board.socket g d i).guard.watches addr len .write w' = g.watches addr len .write w' from rfl, hg.watches]
    exact h
  exact Exec.instr_keeps hkeeps _ _ _ rfl

/-- The processor stands before a record that its trace has. -/
theorem OnTrace.record {index left k n : Nat} {t : Trace} (ht : p.OnTrace w index left t k n)
    (h : p.cache.Coherent w.mem.ram) :
    ∃ record, p.cache.pool[index]? = some record ∧ (p.cache.instrs t)[k]? = some record.instr := by
  obtain ⟨slot, hslot⟩ := ht.found
  have hleft := ht.left
  rw [ht.index]
  exact TraceCache.getElem?_instrs (h.sound slot t hslot).inPool (by omega)

/-- Its instruction is what memory holds, in this page or across its end. -/
theorem OnTrace.shape {index left k n : Nat} {t : Trace} (ht : p.OnTrace w index left t k n)
    (h : p.cache.Coherent w.mem.ram) :
    t.tail = none ∧ w.mem.ram.Decodes t.mode t.addr (p.cache.instrs t) ∨
      ∃ i second, p.cache.instrs t = [i] ∧ k = 0 ∧ left = 0 ∧ t.Straddles w.mem.ram i second := by
  obtain ⟨slot, hslot⟩ := ht.found
  have hsound := h.sound slot t hslot
  obtain ⟨-, hs | ⟨i, second, his, hs⟩⟩ := hsound.holds
  · exact Or.inl ⟨hs.tail, hs.decodes ht.current⟩
  · have hlen := TraceCache.length_instrs hsound.inPool
    have hleft := ht.left
    rw [his, List.length_singleton] at hlen
    exact Or.inr ⟨i, second, his, by omega, by omega, hs⟩

/-- The instruction that the processor stands before is the one at the instruction pointer, in this page
or across its end to where the trace goes on. -/
theorem OnTrace.instr {index left k n : Nat} {t : Trace} (ht : p.OnTrace w index left t k n) (h : p.Sound R w) :
    ∃ record addr, p.cache.pool[index]? = some record ∧ w.mem.fetchView p.cpu p.cpu.rip = .ok (addr, n) ∧
      (w.mem.ram.decode p.cpu.fetchMode addr = .complete record.instr ∧ record.instr.len ≤ n ∨
        ∃ second, t.tail = some second ∧ addr = t.addr ∧ t.byteLen = record.instr.len ∧
          toPageEnd addr < record.instr.len ∧
          decodeInstr (w.mem.ram.slice addr (toPageEnd addr) ++ w.mem.ram.slice second.start maxInstrLen)
            p.cpu.fetchMode = .complete record.instr) := by
  obtain ⟨record, hrecord, hk⟩ := ht.record h.coherent
  refine ⟨record, _, hrecord, ht.view, ?_⟩
  rw [← ht.mode]
  rcases ht.shape h.coherent with ⟨htail, hdecodes⟩ | ⟨i, second, his, rfl, -, hs⟩
  · have hdrop : (p.cache.instrs t).drop k = record.instr :: (p.cache.instrs t).drop (k + 1) :=
      List.drop_eq_getElem?_toList_append.trans (by rw [hk]; rfl)
    have hfrom := hdecodes.drop k
    have hfits := ht.fits htail
    rw [hdrop] at hfrom hfits
    rw [Ram.bytesOf_cons] at hfits
    exact Or.inl ⟨hfrom.1, by omega⟩
  · obtain ⟨slot, hslot⟩ := ht.found
    have hbytes := bytesOf_instrs h.coherent hslot
    rw [his] at hk hbytes
    cases hk
    rw [List.take_zero, Ram.bytesOf_nil, show t.addr + UInt64.ofNat 0 = t.addr from UInt64.add_zero _]
    exact Or.inr ⟨second, hs.tail, rfl, by rw [← hbytes]; simp, hs.crosses, hs.decodes ht.current⟩

/-- Behind a record that is not the last, the next one is fetched from the same window. -/
theorem OnTrace.advance {index left k n : Nat} {t : Trace} {record : Record} (h : p.Sound R w)
    (ht : p.OnTrace w index (left + 1) t k n) (hrecord : p.cache.pool[index]? = some record) {flow : Flow}
    (he : Executed record.instr p (.ok flow) p') (hhalt : flow ≠ .halt) (hgive : flow ≠ .giveWay) (hw : w.Passes w')
    (hlag : w'.mem.ram.stamps.lag = w.mem.ram.stamps.lag)
    (hgen : w'.mem.ram.stamps.generation = w.mem.ram.stamps.generation) (hremaps : w'.mem.remaps = w.mem.remaps) :
    p'.OnTrace w' (index + 1) left t (k + 1) (n - record.instr.len) ∧ flow = .next := by
  obtain ⟨record', hrecord', hk⟩ := ht.record h.coherent
  rw [hrecord] at hrecord'
  cases hrecord'
  obtain ⟨cpu, retired, hp'⟩ := he.only
  have hcache : p'.cache = p.cache := by rw [hp']
  have hleft := ht.left
  obtain ⟨slot, hslot⟩ := ht.found
  have hsound := h.coherent.sound slot t hslot
  rcases ht.shape h.coherent with ⟨htail, hdecodes⟩ | ⟨_, _, _, _, hzero, _⟩
  case inr => omega
  have hlen := TraceCache.length_instrs hsound.inPool
  have hdrop : (p.cache.instrs t).drop k = record.instr :: (p.cache.instrs t).drop (k + 1) :=
    List.drop_eq_getElem?_toList_append.trans (by rw [hk]; rfl)
  have htake : (p.cache.instrs t).take (k + 1) = (p.cache.instrs t).take k ++ [record.instr] := by
    rw [List.take_add_one, hk]
    rfl
  have hfrom := hdecodes.drop k
  rw [hdrop] at hfrom
  obtain ⟨hi, hends, hrest⟩ := hfrom
  -- the rest of the trace has bytes, so this instruction does not reach the end of the window
  obtain ⟨j, js, hjs⟩ : ∃ j js, (p.cache.instrs t).drop (k + 1) = j :: js := by
    cases hcases : (p.cache.instrs t).drop (k + 1) with
    | nil =>
      have := List.drop_eq_nil_iff.1 hcases
      omega
    | cons j js => exact ⟨j, js, rfl⟩
  have hfits := ht.fits htail
  rw [hjs] at hrest hends
  rw [hdrop, Ram.bytesOf_cons, hjs, Ram.bytesOf_cons] at hfits
  have hpos := (Ram.len_of_decode hrest.1).1
  obtain rfl := he.eq_next hi (hends (List.cons_ne_nil _ _)) hhalt hgive
  refine ⟨⟨⟨slot, by rw [hcache]; exact hslot⟩, ht.current.later (hw.still h.tracked hlag) hgen, ?_, ?_, by omega, ?_,
    ?_⟩, rfl⟩
  · rw [he.context.fetchMode]; exact ht.mode
  · have := ht.index
    omega
  · rw [MappedRam.fetchView_congr hw.moves.size (hw.moves.same hremaps), he.context.sameFetch.fetchView,
      he.behind rfl, hcache, htake, Ram.bytesOf_append, Ram.bytesOf_cons, Ram.bytesOf_nil, Nat.add_zero,
      UInt64.ofNat_add, ← UInt64.add_assoc]
    exact MappedRam.fetchView_next (R.orderly h.cpu).short ht.view (by omega)
  · intro _
    rw [hcache, hjs, Ram.bytesOf_cons]
    omega

/-! ## The steps -/

theorem sound_serve (hd : d.Tame R) (h : p.Sound R w)
    (hlag : (serve (Board.socket g d i) p w).2.2.mem.ram.stamps.lag = w.mem.ram.stamps.lag) :
    p.Steady (serve (Board.socket g d i) p w).2.1 ∧
      (serve (Board.socket g d i) p w).2.1.Sound R (serve (Board.socket g d i) p w).2.2 := by
  have hcourse := (onward_serve (g := g) (i := i) R.isCourse hd.keeps p w).world
  have hserved := served_serve (Board.socket g d i) p w
  generalize serve (Board.socket g d i) p w = out at hlag hcourse hserved ⊢
  have hgo : ∀ {p' : Processor} {w' : Board γ δ}, p.Steady p' → R.cpu p'.cpu → R.course w w' →
      w'.mem.ram.stamps.lag = w.mem.ram.stamps.lag → p.Steady p' ∧ p'.Sound R w' :=
    fun hp hcpu hw hl => ⟨hp, h.steady hp hcpu hw hl⟩
  have hevents := hd.events i p.cpu (heard (Board.socket g d i) w) h.cpu
  have hcpu : ∀ {handling : Handling} {cpu : Cpu} {w' : Board γ δ},
      d.events (Board.line i) p.cpu (heard (Board.socket g d i) w) = (handling, cpu, w') →
        p.Steady { p with cpu } ∧ R.cpu cpu := by
    intro handling cpu w' answer
    rw [answer] at hevents
    exact ⟨⟨rfl, rfl, Or.inl rfl, hevents.1⟩, hevents.2⟩
  cases hserved with
  | quiet => exact hgo (.refl p) h.cpu hcourse hlag
  | stopped => exact hgo (.refl p) h.cpu hcourse hlag
  | passed => exact hgo (.refl p) h.cpu hcourse hlag
  | resumed cpu w' answer => exact hgo (hcpu answer).1 (hcpu answer).2 hcourse hlag
  | exited cpu w' answer => exact hgo (hcpu answer).1 (hcpu answer).2 hcourse hlag

theorem sound_handFault (hd : d.Tame R) (fault : Fault) (rip : UInt64) (h : p.Sound R w)
    (hrip : R.cpu { p.cpu with rip })
    (hlag : (handFault (Board.socket g d i) fault rip p w).2.2.mem.ram.stamps.lag = w.mem.ram.stamps.lag) :
    p.Steady (handFault (Board.socket g d i) fault rip p w).2.1 ∧
      (handFault (Board.socket g d i) fault rip p w).2.1.Sound R (handFault (Board.socket g d i) fault rip p w).2.2 ∧
        ∀ point, (handFault (Board.socket g d i) fault rip p w).1 = .goto point → point = .boundary := by
  have hcourse := (onward_handFault (g := g) (i := i) hd.keeps fault rip p w).world
  have hhanded := handed_handFault (Board.socket g d i) fault rip p w
  generalize handFault (Board.socket g d i) fault rip p w = out at hlag hcourse hhanded ⊢
  have hfault := hd.fault fault rip p.cpu w h.cpu
  have hcpu : ∀ {answered : FaultAnswer} {cpu : Cpu} {w' : Board γ δ}, d.fault fault rip p.cpu w = (answered, cpu, w') →
      p.cpu.SameContext cpu ∧ R.cpu cpu ∧ R.cpu { cpu with rip } := by
    intro answered cpu w' answer
    rw [answer] at hfault
    exact ⟨hfault.1, hfault.2, R.moves hrip hfault.1 (Or.inl rfl)⟩
  cases hhanded with
  | retried window closed cpu w' answer =>
    obtain ⟨hsame, -, hback⟩ := hcpu answer
    have hp : p.Steady { p with retired := p.retired + 1, window, cpu := { cpu with rip } } := ⟨rfl, rfl, closed, hsame⟩
    exact ⟨hp, h.steady hp hback hcourse hlag, fun point hpoint => by cases hpoint; rfl⟩
  | delivered window closed cpu w' answer =>
    obtain ⟨hsame, hgone, -⟩ := hcpu answer
    have hp : p.Steady { p with retired := p.retired + 1, window, cpu } := ⟨rfl, rfl, closed, hsame⟩
    exact ⟨hp, h.steady hp hgone hcourse hlag, fun point hpoint => by cases hpoint; rfl⟩
  | escalated window closed cpu w' answer =>
    obtain ⟨hsame, -, hback⟩ := hcpu answer
    have hp : p.Steady { p with retired := p.retired + 1, window, cpu := { cpu with rip } } := ⟨rfl, rfl, closed, hsame⟩
    exact ⟨hp, h.steady hp hback hcourse hlag, nofun⟩

/-- Behind the last record, a taken branch may lead straight onto another trace. -/
theorem follow_spec (h : p.Sound R w) (limit : Nat) (branch : Option Nat) :
    (p.follow (Board.socket g d i) limit branch w).2.Sound R w ∧
      (p.follow (Board.socket g d i) limit branch w).2.Ready w (p.follow (Board.socket g d i) limit branch w).1 := by
  unfold follow
  split
  case h_1 => exact ⟨h, trivial⟩
  case h_2 index =>
    split
    case h_1 => exact ⟨h, trivial⟩
    case h_2 o ho =>
      have hview := h.view ho
      have hchained := TraceCache.chained_chain h.coherent p.linker index (p.window.address o) p.cpu.fetchMode
        (!((Board.socket g d i).line.events w).any && p.retired < limit)
      dsimp only
      rw [show (Board.socket g d i).bus.stamps w = w.mem.ram.stamps from rfl]
      generalize p.linker.chain p.cache w.mem.ram.stamps index (p.window.address o) p.cpu.fetchMode
        (!((Board.socket g d i).line.events w).any && p.retired < limit) = out at hchained ⊢
      obtain ⟨slot, linker, cache⟩ := out
      dsimp only at hchained ⊢
      have hsound : Sound R { p with linker, cache } w := by
        refine ⟨h.decode, h.cpu, h.mem, h.tracked, hchained.coherent, h.window, fun s t ht => ?_⟩
        obtain ⟨t₀, ht₀, rfl | hrefresh⟩ := hchained.traces s t ht
        · exact h.traces s t ht₀
        · exact R.refresh (h.traces s t₀ ht₀) hrefresh
      cases slot with
      | none => exact ⟨hsound, trivial⟩
      | some slot =>
        obtain ⟨t, ht, haddr, hmode, hcur⟩ := hchained.found slot rfl
        rw [← haddr] at hview
        obtain ⟨henter, hon⟩ := enterTrace_spec (d := d) (i := i) hsound ht hcur hmode hview
        dsimp only
        rw [henter]
        exact ⟨hsound, rfl, t, 0, _, hon⟩

/-- Asking the guard leaves memory alone. -/
theorem stopsAt_spec (hg : g.Quiet) (rip : UInt64) (len : Nat) (p : Processor) (w : Board γ δ) :
    ∃ stop resume w', p.stopsAt (Board.socket g d i) rip len w = (stop, { p with resume }, w') ∧ w'.mem = w.mem := by
  unfold stopsAt
  split
  case isTrue => exact ⟨false, false, w, rfl, rfl⟩
  case isFalse =>
    rw [show (Board.socket g d i).guard = g from rfl]
    have hstop := hg.stopsBefore rip w
    generalize g.stopsBefore rip w = out at hstop ⊢
    obtain ⟨stop, w₁⟩ := out
    dsimp only at hstop ⊢
    split
    case isTrue => exact ⟨true, p.resume, w₁, rfl, hstop⟩
    case isFalse =>
      split
      case isTrue => exact ⟨_, p.resume, _, rfl, (hg.watches ..).trans hstop⟩
      case isFalse => exact ⟨false, p.resume, w₁, rfl, hstop⟩

theorem sound_execute (hg : g.Quiet) (h : p.Sound R w) (limit : Nat) (instr : Instr)
    (hlag : (p.execute (Board.socket g d i) limit instr w).2.2.2.mem.ram.stamps.lag = w.mem.ram.stamps.lag) :
    (p.execute (Board.socket g d i) limit instr w).2.2.1.Sound R (p.execute (Board.socket g d i) limit instr w).2.2.2 ∧
      p.Steady (p.execute (Board.socket g d i) limit instr w).2.2.1 := by
  have hcourse := course_execute (d := d) (i := i) R hg limit instr p w
  have he := executed_execute (Board.socket g d i) limit instr p w
  generalize p.execute (Board.socket g d i) limit instr w = out at hlag hcourse he ⊢
  obtain ⟨x, hit, p', w'⟩ := out
  obtain ⟨cpu, retired, hp'⟩ := he.only
  dsimp only at hp' hlag ⊢
  have hsteady : p.Steady p' := ⟨by rw [hp'], by rw [hp'], by rw [hp']; exact Or.inl rfl, he.context⟩
  exact ⟨h.steady hsteady (R.moves h.cpu he.context he.rip) hcourse hlag, hsteady⟩

theorem Sound.resumed (h : p.Sound R w) (resume : Bool) : Sound R { p with resume } w :=
  ⟨h.decode, h.cpu, h.mem, h.tracked, h.coherent, h.window, h.traces⟩

theorem Sound.counted (h : p.Sound R w) (retired : Nat) : Sound R { p with retired } w :=
  ⟨h.decode, h.cpu, h.mem, h.tracked, h.coherent, h.window, h.traces⟩

theorem Sound.relinked (h : p.Sound R w) (linker : Linker) : Sound R { p with linker } w :=
  ⟨h.decode, h.cpu, h.mem, h.tracked, h.coherent, h.window, h.traces⟩

/-- What is left of the processor after a step. -/
structure Stepped (R : Regime γ δ) (p : Processor) (next : Step) (p' : Processor) (w' : Board γ δ) : Prop where
  context : p.cpu.SameContext p'.cpu
  sound : p'.Sound R w'
  ready : ∀ point, next = .goto point → p'.Ready w' point

theorem stepped_stepBoundary (hg : g.Quiet) (hd : d.Tame R) (h : p.Sound R w) (limit : Nat)
    (hlag : (p.stepBoundary (Board.socket g d i) limit w).2.2.mem.ram.stamps.lag = w.mem.ram.stamps.lag) :
    p.Stepped R (p.stepBoundary (Board.socket g d i) limit w).1 (p.stepBoundary (Board.socket g d i) limit w).2.1
      (p.stepBoundary (Board.socket g d i) limit w).2.2 := by
  have hreset := h.relinked p.linker.reset
  have hserve := (onward_serve (g := g) (i := i) R.isCourse hd.keeps { p with linker := p.linker.reset } w).world
  have hserved := sound_serve (g := g) (i := i) hd hreset
  unfold stepBoundary at hlag ⊢
  generalize serve (Board.socket g d i) { p with linker := p.linker.reset } w = out at hlag hserve hserved ⊢
  obtain ⟨e, p₁, w₁⟩ := out
  cases e with
  | some exit =>
    obtain ⟨hsteady, hsound⟩ := hserved hlag
    exact ⟨hsteady.context, hsound, nofun⟩
  | none =>
    dsimp only at hlag hserve hserved ⊢
    split at hlag
    case isTrue hhalted =>
      obtain ⟨hsteady, hsound⟩ := hserved hlag
      rw [if_pos hhalted]
      exact ⟨hsteady.context, hsound, nofun⟩
    case isFalse hrun =>
      rw [if_neg hrun]
      split at hlag
      case isTrue hspent =>
        obtain ⟨hsteady, hsound⟩ := hserved hlag
        rw [if_pos hspent]
        exact ⟨hsteady.context, hsound, nofun⟩
      case isFalse hleft =>
        rw [if_neg hleft]
        have hfind := (onward_findTrace (d := d) (i := i) R.isCourse hg p₁ w₁).world
        have hfound : p₁.Sound R w₁ → _ := found_findTrace (d := d) (i := i) hg
        generalize p₁.findTrace (Board.socket g d i) w₁ = out at hlag hfind hfound ⊢
        obtain ⟨r, p₂, w₂⟩ := out
        cases r with
        | error fault =>
          have hhand := (onward_handFault (g := g) (i := i) hd.keeps fault p₁.cpu.rip p₂ w₂).world
          dsimp only at hfind hfound ⊢
          have hle := R.lag_le hserve
          have hle' := R.lag_le hfind
          have hle'' := R.lag_le hhand
          replace hlag : (handFault (Board.socket g d i) fault p₁.cpu.rip p₂ w₂).2.2.mem.ram.stamps.lag =
            w.mem.ram.stamps.lag := hlag
          obtain ⟨hsteady, hsound⟩ := hserved (by omega)
          have hf := hfound hsound
          obtain ⟨window, cache, hp₂⟩ := hf.only
          have hcpu : p₂.cpu = p₁.cpu := by rw [hp₂]
          obtain ⟨hsteady', hsound', hpoint⟩ := sound_handFault (g := g) (i := i) hd fault p₁.cpu.rip hf.sound
            (by rw [hcpu]; exact hsound.cpu) (by omega)
          refine ⟨(hsteady.context.trans ?_).trans hsteady'.context, hsound', fun point hp => ?_⟩
          · rw [hcpu]; exact .refl _
          · rw [hpoint point hp]; exact trivial
        | ok slot =>
          dsimp only at hlag hfind hfound ⊢
          have hle := R.lag_le hserve
          have hle' := R.lag_le hfind
          obtain ⟨hsteady, hsound⟩ := hserved (by omega)
          have hf := hfound hsound
          obtain ⟨window, cache, hp₂⟩ := hf.only
          have hcpu : p₂.cpu = p₁.cpu := by rw [hp₂]
          obtain ⟨t, n, ht, hcur, hmode, hview⟩ := hf.entered slot rfl
          have hview' : w₂.mem.fetchView p₂.cpu p₂.cpu.rip = .ok (t.addr, n) := by
            obtain ⟨table, hmem⟩ := hf.world.same
            rw [hcpu, hmem, MappedRam.fetchView_congr rfl rfl]
            exact hview
          obtain ⟨henter, hon⟩ := enterTrace_spec (d := d) (i := i) hf.sound ht hcur (by rw [hcpu]; exact hmode) hview'
          refine ⟨hsteady.context.trans (by rw [hcpu]; exact .refl _), hf.sound, fun point hp => ?_⟩
          cases hp
          rw [henter]
          exact ⟨rfl, t, 0, n, hon⟩

/-- No event, and no store into cached code, since the trace was entered. -/
theorem mustLeave_eq_false {s : Socket (Board γ δ)} (hs : s.bus = Board.bus) {limit generation : Nat}
    (h : p.mustLeave s limit generation w = false) :
    (s.line.events w).any = false ∧ p.retired < limit ∧ w.mem.ram.stamps.generation = generation := by
  unfold mustLeave at h
  rw [hs] at h
  simp only [Bool.or_eq_false_iff, decide_eq_false_iff_not, Nat.not_le, bne_eq_false_iff_eq] at h
  exact ⟨h.1.1, h.1.2, h.2⟩

theorem stepped_stepRecord (hg : g.Quiet) (hd : d.Tame R) (h : p.Sound R w) {limit index left generation : Nat}
    {branch : Option Nat}
    (hready : p.Ready w (.record index left generation branch))
    (hlag : (p.stepRecord (Board.socket g d i) limit index left generation branch w).2.2.mem.ram.stamps.lag =
      w.mem.ram.stamps.lag) :
    p.Stepped R (p.stepRecord (Board.socket g d i) limit index left generation branch w).1
      (p.stepRecord (Board.socket g d i) limit index left generation branch w).2.1
      (p.stepRecord (Board.socket g d i) limit index left generation branch w).2.2 := by
  obtain ⟨hgen, t, k, n, hon⟩ := hready
  obtain ⟨record, hrecord, -⟩ := hon.record h.coherent
  obtain ⟨stop, resume, w₁, hstop, hmem⟩ := stopsAt_spec (d := d) (i := i) hg p.cpu.rip record.instr.len p w
  unfold stepRecord at hlag ⊢
  rw [hrecord] at hlag ⊢
  dsimp only at hlag ⊢
  rw [hstop] at hlag ⊢
  have h := (h.resumed resume).of_mem hmem
  have hon : OnTrace { p with resume } w₁ index left t k n := by
    refine OnTrace.of_mem (w := w) ?_ hmem
    exact ⟨hon.found, hon.current, hon.mode, hon.index, hon.left, hon.view, hon.fits⟩
  rw [← hmem] at hlag hgen
  cases stop
  case true => exact ⟨.refl _, h, nofun⟩
  dsimp only at hlag ⊢
  have hcourse := course_execute (d := d) (i := i) R hg limit record.instr { p with resume } w₁
  have hremaps := remaps_execute (d := d) (i := i) hg limit record.instr { p with resume } w₁
  have hran := executed_execute (Board.socket g d i) limit record.instr { p with resume } w₁
  have hexec := sound_execute (d := d) (i := i) hg h limit record.instr
  generalize execute (Board.socket g d i) limit record.instr { p with resume } w₁ = out
    at hlag hcourse hremaps hran hexec ⊢
  obtain ⟨x, hit, p₂, w₂⟩ := out
  have hle := R.lag_le hcourse
  dsimp only at hle hcourse hremaps hran hexec
  cases x with
  | error fault =>
    replace hlag : (handFault (Board.socket g d i) fault p.cpu.rip p₂ w₂).2.2.mem.ram.stamps.lag =
      w₁.mem.ram.stamps.lag := hlag
    have hle' := R.lag_le (onward_handFault (g := g) (i := i) hd.keeps fault p.cpu.rip p₂ w₂).world
    obtain ⟨hsound, hsteady⟩ := hexec (by omega)
    have hback : R.cpu { p₂.cpu with rip := p.cpu.rip } := R.moves h.cpu hran.context (Or.inl rfl)
    obtain ⟨hsteady', hsound', hpoint⟩ := sound_handFault (g := g) (i := i) hd fault p.cpu.rip hsound hback (by omega)
    refine ⟨hran.context.trans hsteady'.context, hsound', fun point hp => ?_⟩
    rw [hpoint point hp]
    trivial
  | ok flow =>
    dsimp only at hlag ⊢
    -- whether the instruction is counted here or was by its iterations
    have hcounted : ∃ retired, (if flow = .giveWay then p₂ else { p₂ with retired := p₂.retired + 1 }) =
        { p₂ with retired } := by
      split
      · exact ⟨p₂.retired, rfl⟩
      · exact ⟨p₂.retired + 1, rfl⟩
    obtain ⟨retired, hcounted⟩ := hcounted
    rw [hcounted] at hlag ⊢
    have hpart : w₂.mem.ram.stamps.lag = w₁.mem.ram.stamps.lag → Sound R { p₂ with retired } w₂ ∧
        p.cpu.SameContext p₂.cpu := fun hl => ⟨(hexec hl).1.counted retired, hran.context⟩
    split at hlag
    case isTrue hhit =>
      obtain ⟨hsound, hcontext⟩ := hpart hlag
      rw [if_pos hhit]
      exact ⟨hcontext, hsound, nofun⟩
    case isFalse hhit =>
      rw [if_neg hhit]
      split at hlag
      case isTrue hleave =>
        obtain ⟨hsound, hcontext⟩ := hpart hlag
        rw [if_pos hleave]
        exact ⟨hcontext, hsound, fun point hp => by cases hp; trivial⟩
      case isFalse hstay =>
        rw [if_neg hstay]
        simp only [not_or, Bool.not_eq_true] at hstay
        obtain ⟨hhalt, hgive, hmust⟩ := hstay
        obtain ⟨-, -, hsame⟩ := mustLeave_eq_false rfl hmust
        cases left with
        | succ left =>
          obtain ⟨hsound, hcontext⟩ := hpart hlag
          refine ⟨hcontext, hsound, fun point hp => ?_⟩
          cases hp
          have hran' : Executed record.instr { p with resume } (.ok flow) p₂ := hran
          obtain ⟨hon', -⟩ := hon.advance h hrecord hran' hhalt hgive (R.passes hcourse) hlag (hsame.trans hgen) hremaps
          refine ⟨hsame.symm, t, k + 1, _, hon'.found, hon'.current, hon'.mode, hon'.index, hon'.left, hon'.view,
            hon'.fits⟩
        | zero =>
          dsimp only at hlag ⊢
          obtain ⟨hsound, hcontext⟩ := hpart hlag
          have hfollow : ∀ branch, p.Stepped R
            (.goto (follow (Board.socket g d i) limit branch { p₂ with retired } w₂).1)
              (follow (Board.socket g d i) limit branch { p₂ with retired } w₂).2 w₂ := by
            intro branch
            obtain ⟨linker, cache, honly⟩ := follow_only (Board.socket g d i) limit branch { p₂ with retired } w₂
            obtain ⟨hsound', hready⟩ := follow_spec (d := d) (i := i) hsound limit branch
            refine ⟨?_, hsound', fun point hp => ?_⟩
            · rw [honly]
              exact hcontext
            · cases hp
              exact hready
          exact hfollow _

/-- What holds of a processor at a point of the dispatch loop, holds of it behind the next step, if no
stamp came round. -/
theorem stepped_step (hg : g.Quiet) (hd : d.Tame R) (h : p.Sound R w) (limit : Nat) {point : Point}
    (hready : p.Ready w point)
    (hlag : (p.step (Board.socket g d i) limit point w).2.2.mem.ram.stamps.lag = w.mem.ram.stamps.lag) :
    p.Stepped R (p.step (Board.socket g d i) limit point w).1 (p.step (Board.socket g d i) limit point w).2.1
      (p.step (Board.socket g d i) limit point w).2.2 := by
  cases point with
  | boundary => exact stepped_stepBoundary hg hd h limit hlag
  | record index left generation branch => exact stepped_stepRecord hg hd h hready hlag

theorem course_step (hg : g.Quiet) (hd : d.Tame R) (limit : Nat) (point : Point) (p : Processor) (w : Board γ δ) :
    R.course w (p.step (Board.socket g d i) limit point w).2.2 :=
  (onward_step R.isCourse hg hd.keeps limit point p w).world

end Processor

end TraceCore
