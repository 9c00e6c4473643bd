/-
Walking along a trace in 16-bit and 32-bit code. The processor enters a trace at an instruction pointer, and is behind
as many of its bytes as the records so far have; but its instruction pointer comes round where the code size ends, and
the trace does not. That is kept by every step, under any code segment and for mappings of any kind.
-/
import TraceCore.Proofs.Processor.Laid

namespace TraceCore

variable {γ δ : Type} {K : Kind}

/-- The delivery leaves the running code as it is, and mappings of their kind. -/
structure Delivery.StaysIn (delivery : Delivery (Board γ δ)) (K : Kind) : Prop where
  keeps : delivery.Keeps (Board.Under K)
  events : ∀ i cpu w, cpu.Segmented →
    cpu.SameCode (delivery.events (Board.line i) cpu w).2.1 ∧ (delivery.events (Board.line i) cpu w).2.1.Segmented
  fault : ∀ fault rip cpu w, cpu.Segmented →
    cpu.SameCode (delivery.fault fault rip cpu w).2.1 ∧ (delivery.fault fault rip cpu w).2.1.Segmented

theorem Delivery.staysIn_toCaller (K : Kind) : (Delivery.toCaller : Delivery (Board γ δ)).StaysIn K := by
  refine ⟨Delivery.keeps_toCaller (Board.course_under K), fun i cpu w h => ?_, fun fault rip cpu w h => ⟨.refl _, h⟩⟩
  have hsame : cpu.SameCode ((Delivery.toCaller : Delivery (Board γ δ)).events (Board.line i) cpu w).2.1 ∧
      ((Delivery.toCaller : Delivery (Board γ δ)).events (Board.line i) cpu w).2.1.rip = cpu.rip := by
    unfold Delivery.toCaller
    dsimp only
    split
    · exact ⟨.refl _, rfl⟩
    · exact ⟨.refl _, rfl⟩
  exact ⟨hsame.1, h.moves hsame.1 (Or.inl hsame.2)⟩

/-- Where an instruction pointer came round already, it comes to the same behind a step. -/
theorem Cpu.and_ipMask_add (c : Cpu) (rip n : UInt64) :
    ((rip &&& c.ipMask) + n) &&& c.ipMask = (rip + n) &&& c.ipMask := by
  have hdvd : 2 ^ c.codeSize.bits ∣ 2 ^ 64 := Nat.pow_dvd_pow 2 (by cases c.codeSize <;> decide)
  apply UInt64.toNat_inj.1
  rw [toNat_and_ipMask, toNat_and_ipMask, UInt64.toNat_add, UInt64.toNat_add, toNat_and_ipMask,
    Nat.mod_mod_of_dvd _ hdvd, Nat.mod_mod_of_dvd _ hdvd, Nat.mod_add_mod]

/-- Bytes of the trace in front of record `k`. -/
def TraceCache.bytesBefore (c : TraceCache) (t : Trace) (k : Nat) : Nat := Ram.bytesOf ((c.instrs t).take k)

/-- An instruction of the trace and those in front of it are bytes of the trace. -/
theorem TraceCache.bytesBefore_add_le {c : TraceCache} {ram : Ram} {t : Trace} {k : Nat} {instr : Instr}
    (h : t.Holds ram (c.instrs t)) (hk : (c.instrs t)[k]? = some instr) :
    c.bytesBefore t k + instr.len ≤ t.byteLen := by
  have hsplit := congrArg Ram.bytesOf (List.take_append_drop k (c.instrs t))
  rw [List.drop_eq_getElem?_toList_append, hk, Option.toList_some, Ram.bytesOf_append, Ram.bytesOf_append,
    Ram.bytesOf_cons, Ram.bytesOf_nil] at hsplit
  rw [h.bytes]
  unfold TraceCache.bytesBefore
  omega

namespace Processor

/-- The cache holds what memory holds, each trace was fetched within the code segment, and the window has instruction
pointers where the processor fetches them from. What the cache holds is known as long as no stamp came round. -/
structure InOrder (K : Kind) (p : Processor) (w : Board γ δ) : Prop where
  decode : p.decode = decodeInstr
  code : p.cpu.Segmented
  kind : K w.mem.mappings
  tracked : w.mem.ram.Tracked
  counted : w.Counted
  window : p.window.size = 0 ∨ p.window.OpenedFor p.cpu w
  cache : w.mem.ram.stamps.lag = 0 → p.cache.Coherent w.mem.ram ∧ p.cache.All (Trace.Laid K p.cpu w.mem)

/-- The processor is before record `k` of the current trace `t`, which it entered at `entry`. -/
structure Traverses (p : Processor) (w : Board γ δ) (index left : Nat) (t : Trace) (k : Nat) (entry : UInt64) :
    Prop where
  found : ∃ slot, p.cache.trace? slot = some t
  current : t.Current w.mem.ram
  mode : t.mode = p.cpu.fetchMode
  index : index = t.start + k
  left : k + left + 1 = t.len
  reaches : p.cpu.Reaches entry
  view : ∃ n, w.mem.fetchView p.cpu entry = .ok (t.addr, n)
  pointer : p.cpu.rip =
    if k = 0 then entry else (entry + UInt64.ofNat (p.cache.bytesBefore t k)) &&& p.cpu.ipMask

/-- Where the dispatch loop may be. -/
def Standing (p : Processor) (w : Board γ δ) : Point → Prop
  | .boundary => True
  | .record index left generation _ => w.mem.ram.stamps.lag = 0 →
    generation = w.mem.ram.stamps.generation ∧ ∃ t k entry, p.Traverses w index left t k entry

/-- Nothing but the state changed, and the window may have been closed. -/
structure Unmoved (p p' : Processor) : Prop where
  decode : p'.decode = p.decode
  cache : p'.cache = p.cache
  window : p'.window = p.window ∨ p'.window = p.window.close
  code : p.cpu.SameCode p'.cpu

variable {g : Guard (Board γ δ)} {d : Delivery (Board γ δ)} {i : Nat} {p p' : Processor} {w w' : Board γ δ}

theorem Unmoved.refl (p : Processor) : p.Unmoved p := ⟨rfl, rfl, Or.inl rfl, .refl _⟩

theorem InOrder.goesOn (h : p.InOrder K w) (hp : p.Unmoved p') (hcode : p'.cpu.Segmented) (hw : w.Under K w') :
    p'.InOrder K w' := by
  have hpass := hw.1
  refine ⟨hp.decode.trans h.decode, hcode, hw.2 h.kind, hpass.tracked h.tracked, h.counted.passes hpass, ?_,
    fun hlag => ?_⟩
  · rcases hp.window with hwin | hwin
    · rw [hwin]
      exact h.window.imp_right fun ho => (ho.moves hpass.moves).congr hp.code.sameFetch
    · rw [hwin]
      exact Or.inl rfl
  · have hzero : w.mem.ram.stamps.lag = 0 := by
      obtain ⟨k, hk⟩ := h.counted
      have := hpass.lag_le
      omega
    obtain ⟨hcoherent, hlaid⟩ := h.cache hzero
    rw [hp.cache]
    exact ⟨hcoherent.later h.tracked (hpass.still h.tracked (hlag.trans hzero.symm)),
      fun s t ht => (hlaid s t ht).congr hp.code hpass.moves.size⟩

/-- Only the memory of the board counts. -/
theorem InOrder.of_mem (h : p.InOrder K w) (hmem : w'.mem = w.mem) : p.InOrder K w' :=
  h.goesOn (.refl p) h.code ((Board.course_under K).quiet hmem)

theorem InOrder.reset (h : p.InOrder K w) : InOrder K { p with linker := p.linker.reset } w :=
  h.goesOn ⟨rfl, rfl, Or.inl rfl, .refl _⟩ h.code ((Board.course_under K).quiet rfl)

theorem Traverses.congr {index left k : Nat} {t : Trace} {entry : UInt64} (h : p.Traverses w index left t k entry)
    (hcache : p'.cache = p.cache) (hcpu : p'.cpu = p.cpu) (hmem : w'.mem = w.mem) :
    p'.Traverses w' index left t k entry := by
  obtain ⟨hfound, hcurrent, hmode, hindex, hleft, hreaches, hview, hpointer⟩ := h
  rw [← hcache] at hfound hpointer
  rw [← hcpu] at hmode hreaches hview hpointer
  rw [← hmem] at hcurrent hview
  exact ⟨hfound, hcurrent, hmode, hindex, hleft, hreaches, hview, hpointer⟩

/-! ## Boundaries -/

theorem inOrder_serve (hd : d.StaysIn K) (h : p.InOrder K w) :
    (serve (Board.socket g d i) p w).2.1.InOrder K (serve (Board.socket g d i) p w).2.2 := by
  have hcourse := (onward_serve (g := g) (i := i) (Board.course_under K) hd.keeps p w).world
  have hserved := served_serve (Board.socket g d i) p w
  have hevents := hd.events i p.cpu (heard (Board.socket g d i) w) h.code
  have hcpu : ∀ {handling : Handling} {cpu : Cpu} {w' : Board γ δ},
      d.events (Board.line i) p.cpu (heard (Board.socket g d i) w) = (handling, cpu, w') →
        p.cpu.SameCode cpu ∧ cpu.Segmented := by
    intro handling cpu w' answer
    rw [answer] at hevents
    exact hevents
  generalize serve (Board.socket g d i) p w = out at hcourse hserved ⊢
  cases hserved with
  | quiet => exact h
  | stopped => exact h.goesOn (.refl p) h.code hcourse
  | passed => exact h.goesOn (.refl p) h.code hcourse
  | resumed cpu w' answer => exact h.goesOn ⟨rfl, rfl, Or.inl rfl, (hcpu answer).1⟩ (hcpu answer).2 hcourse
  | exited cpu w' answer => exact h.goesOn ⟨rfl, rfl, Or.inl rfl, (hcpu answer).1⟩ (hcpu answer).2 hcourse

theorem inOrder_handFault (hd : d.StaysIn K) (fault : Fault) {rip : UInt64} (hrip : rip.toNat < 2 ^ 32)
    (h : p.InOrder K w) : (handFault (Board.socket g d i) fault rip p w).2.1.InOrder K
      (handFault (Board.socket g d i) fault rip p w).2.2 := by
  have hcourse := (onward_handFault (g := g) (i := i) hd.keeps fault rip p w).world
  have hhanded := handed_handFault (Board.socket g d i) fault rip p w
  have hfault := hd.fault fault rip p.cpu w h.code
  have hcpu : ∀ {answered : FaultAnswer} {cpu : Cpu} {w' : Board γ δ},
      d.fault fault rip p.cpu w = (answered, cpu, w') → p.cpu.SameCode cpu ∧ cpu.Segmented := by
    intro answered cpu w' answer
    rw [answer] at hfault
    exact hfault
  generalize handFault (Board.socket g d i) fault rip p w = out at hcourse hhanded ⊢
  cases hhanded with
  | retried window closed cpu w' answer =>
    exact h.goesOn ⟨rfl, rfl, closed, (hcpu answer).1⟩ ⟨(hcpu answer).2.code, hrip⟩ hcourse
  | delivered window closed cpu w' answer =>
    exact h.goesOn ⟨rfl, rfl, closed, (hcpu answer).1⟩ (hcpu answer).2 hcourse
  | escalated window closed cpu w' answer =>
    exact h.goesOn ⟨rfl, rfl, closed, (hcpu answer).1⟩ ⟨(hcpu answer).2.code, hrip⟩ hcourse

/-- The open window has the instruction pointer where it is fetched from. -/
theorem InOrder.view (h : p.InOrder K w) {o : Nat} (ho : p.offsetOf Board.bus p.cpu.rip w = some o) :
    w.mem.fetchView p.cpu p.cpu.rip = .ok (p.window.address o, p.window.remaining o) :=
  (fetchView_of_offsetOf h.window ho).2.2 h.code.reaches

/-- A processor after it looked for the trace at its instruction pointer. -/
structure Sought (K : Kind) (g : Guard (Board γ δ)) (d : Delivery (Board γ δ)) (i : Nat) (p : Processor) (w : Board γ δ)
    (r : Except Fault Nat) (p' : Processor) (w' : Board γ δ) : Prop where
  world : w.Registered w'
  only : ∃ window cache, p' = { p with window, cache }
  inOrder : p'.InOrder K w'
  /-- It fails where fetching and decoding anew does, unless a trace from before is current. -/
  failed : w.mem.ram.stamps.lag = 0 → ∀ f, r = .error f ↔ (p.refetch (Board.socket g d i) w).1 = .error f ∧
    ∀ addr n, w.mem.fetchView p.cpu p.cpu.rip = .ok (addr, n) →
      (p.cache.lookup w.mem.ram.stamps addr p.cpu.fetchMode).1 = none
  entered : w.mem.ram.stamps.lag = 0 → ∀ slot, r = .ok slot → ∃ t n, p'.cache.trace? slot = some t ∧
    t.Current w'.mem.ram ∧ t.mode = p.cpu.fetchMode ∧ w.mem.fetchView p.cpu p.cpu.rip = .ok (t.addr, n)

theorem sought_findTrace (hg : g.Quiet) (h : p.InOrder K w) :
    p.Sought K g d i w (p.findTrace (Board.socket g d i) w).1 (p.findTrace (Board.socket g d i) w).2.1
      (p.findTrace (Board.socket g d i) w).2.2 := by
  rcases findTrace_cases (d := d) (i := i) hg h.window (fun o => h.view) h.code.reaches.continues with
    ⟨e, w₁, hout, hmem, hview⟩ |
    ⟨site, window, w₁, r, c', w', hout, hensure, hmem, hrip, hmode, hopened, hview, hcont, hrefetch⟩
  · rw [hout]
    refine ⟨.of_mem hmem, ⟨p.window, p.cache, rfl⟩, h.of_mem hmem, fun _ f => ?_, nofun⟩
    rw [refetch_error hview, hview, Except.error.injEq, Except.error.injEq]
    exact ⟨fun hf => ⟨hf, nofun⟩, And.left⟩
  · rw [hout]
    have h₁ := h.of_mem hmem
    have hensured := fun hlag => TraceCache.ensured_ensure (h₁.cache hlag).1 h₁.tracked hcont
    rw [← h.decode, hensure] at hensured
    have hnext : ∀ rip w', w₁.Registered w' → w₁.Registered (Board.nextWindow g p.cpu rip w').2 := fun rip w' hw' =>
      hw'.trans (.of_mem (Board.mem_openWindow hg p.cpu rip w'))
    have hregistered := TraceCache.ensure_keeps (Q := w₁.Registered)
      (fun page mask w' hw' => hw'.trans (Board.registered_register w' page mask)) p.decode site hnext p.cache w₁
      (.refl w₁)
    have hfailed := fun hlag => TraceCache.ensure_eq_error Board.bus p.decode site (Board.nextWindow g p.cpu)
      (h₁.cache hlag).1.room w₁
    rw [show p.cache.ensure Board.bus p.decode site (Board.nextWindow g p.cpu) w₁ = _ from hensure]
      at hregistered hfailed
    dsimp only at hensured hregistered hfailed ⊢
    have hworld := Board.Registered.trans (.of_mem hmem) hregistered
    have hpass := hregistered.passes
    have hmaps : w'.mem.mappings = w₁.mem.mappings := by
      obtain ⟨table, hsame⟩ := hregistered.same
      rw [hsame]
      rfl
    refine ⟨hworld, ⟨window, c', rfl⟩, ⟨h.decode, h.code, by rw [hmaps, hmem]; exact h.kind, hpass.tracked h₁.tracked,
      h₁.counted.passes hpass, ?_, fun hlag => ?_⟩, fun hlag f => ?_, fun hlag slot hslot => ?_⟩
    · exact hopened.imp_right fun ho => ho.moves hworld.passes.moves
    · have hlag₁ := hregistered.lag.symm.trans hlag
      have hall : c'.All (Trace.Laid K p.cpu w₁.mem) := by
        refine (hensured hlag₁).all _ (fun t t' ht ht' => ht.refresh ht') (fun c t hc haddr _ hfresh => ?_)
          (h₁.cache hlag₁).2
        exact Trace.Laid.fresh h.code h₁.kind hrip (by rw [hmem]; exact hview) hc haddr hfresh
      exact ⟨(hensured hlag₁).coherent, fun s t ht => (hall s t ht).congr (.refl _) hpass.moves.size⟩
    · rw [hfailed (by rw [hmem]; exact hlag), hrefetch, hmode, hview, and_comm, ← hmem]
      exact and_congr_right fun _ => ⟨fun hnone addr n hv => by cases hv; exact hnone, fun hnone => hnone _ _ rfl⟩
    · obtain ⟨-, t, ht, haddr, hm, hcur⟩ := (hensured (by rw [hmem]; exact hlag)).found slot hslot
      exact ⟨t, site.remaining, ht, hcur, hm.trans hmode, by rw [hview, haddr]⟩

/-! ## Records -/

/-- A current trace is entered at its first record. -/
theorem traverses_enterTrace (h : p.InOrder K w) (hlag : w.mem.ram.stamps.lag = 0) {slot n : Nat} {t : Trace}
    (ht : p.cache.trace? slot = some t) (hcur : t.Current w.mem.ram) (hmode : t.mode = p.cpu.fetchMode)
    (hview : w.mem.fetchView p.cpu p.cpu.rip = .ok (t.addr, n)) :
    p.enterTrace (Board.socket g d i) slot w = .record t.start (t.len - 1) w.mem.ram.stamps.generation none ∧
      p.Traverses w t.start (t.len - 1) t 0 p.cpu.rip := by
  have hlen := ((h.cache hlag).1.sound slot t ht).nonempty
  exact ⟨enterTrace_eq ht hlen, ⟨slot, ht⟩, hcur, hmode, rfl, by omega, h.code.reaches, ⟨n, hview⟩, (if_pos rfl).symm⟩

/-- So is a trace that was looked for and found. -/
theorem Sought.traverses {r : Except Fault Nat} (h : p.Sought K g d i w r p' w') (hlag : w.mem.ram.stamps.lag = 0)
    {slot : Nat} (hr : r = .ok slot) : ∃ t, p'.enterTrace (Board.socket g d i) slot w' =
        .record t.start (t.len - 1) w'.mem.ram.stamps.generation none ∧
      p'.Traverses w' t.start (t.len - 1) t 0 p.cpu.rip := by
  obtain ⟨t, n, ht, hcur, hmode, hview⟩ := h.entered hlag slot hr
  obtain ⟨window, cache, rfl⟩ := h.only
  obtain ⟨table, hsame⟩ := h.world.same
  have hview' : w'.mem.fetchView p.cpu p.cpu.rip = .ok (t.addr, n) := by
    rw [hsame, MappedRam.fetchView_congr rfl rfl]
    exact hview
  exact ⟨t, traverses_enterTrace h.inOrder (h.world.lag.trans hlag) ht hcur hmode hview'⟩

/-- As long as nothing is known of the cache, nothing is claimed of the place. -/
theorem standing_of_lag (hlag : w.mem.ram.stamps.lag ≠ 0) (point : Point) : p.Standing w point := by
  cases point with
  | boundary => trivial
  | record => exact fun hzero => absurd hzero hlag

/-- Behind the last record, a taken branch may lead straight onto another trace. -/
theorem standing_follow (h : p.InOrder K w) (limit : Nat) (branch : Option Nat) :
    (p.follow (Board.socket g d i) limit branch w).2.InOrder K w ∧
      (p.follow (Board.socket g d i) limit branch w).2.Standing w
        (p.follow (Board.socket g d i) limit branch w).1 := by
  unfold follow
  split
  case h_1 => exact ⟨h, trivial⟩
  case h_2 index =>
    split
    case h_1 => exact ⟨h, trivial⟩
    case h_2 o ho =>
      have hview := h.view ho
      have hchained := fun hlag => TraceCache.chained_chain (h.cache hlag).1 p.linker index (p.window.address o)
        p.cpu.fetchMode (!((Board.socket g d i).line.events w).any && p.retired < limit)
      dsimp only
      rw [show (Board.socket g d i).bus.stamps w = w.mem.ram.stamps from rfl]
      generalize p.linker.chain p.cache w.mem.ram.stamps index (p.window.address o) p.cpu.fetchMode
        (!((Board.socket g d i).line.events w).any && p.retired < limit) = out at hchained ⊢
      obtain ⟨slot, linker, cache⟩ := out
      dsimp only at hchained ⊢
      have hinOrder : InOrder K { p with linker, cache } w := by
        refine ⟨h.decode, h.code, h.kind, h.tracked, h.counted, h.window, fun hlag => ⟨(hchained hlag).coherent, ?_⟩⟩
        intro s t ht
        obtain ⟨t₀, ht₀, rfl | hrefresh⟩ := (hchained hlag).traces s t ht
        · exact (h.cache hlag).2 s t ht₀
        · exact ((h.cache hlag).2 s t₀ ht₀).refresh hrefresh
      cases slot with
      | none => exact ⟨hinOrder, trivial⟩
      | some slot =>
        refine ⟨hinOrder, ?_⟩
        by_cases hlag : w.mem.ram.stamps.lag = 0
        · obtain ⟨t, ht, haddr, hmode, hcur⟩ := (hchained hlag).found slot rfl
          rw [← haddr] at hview
          obtain ⟨henter, hwalks⟩ := traverses_enterTrace (d := d) (i := i) hinOrder hlag ht hcur hmode hview
          dsimp only
          rw [henter]
          exact fun _ => ⟨rfl, t, 0, _, hwalks⟩
        · exact standing_of_lag hlag _

theorem inOrder_stopsAt (hg : g.Quiet) (h : p.InOrder K w) (rip : UInt64) (len : Nat) :
    ∃ stop resume w', p.stopsAt (Board.socket g d i) rip len w = (stop, { p with resume }, w') ∧ w'.mem = w.mem ∧
      InOrder K { p with resume } w' := by
  obtain ⟨stop, resume, w', hstop, hmem⟩ := stopsAt_spec (d := d) (i := i) hg rip len p w
  exact ⟨stop, resume, w', hstop, hmem,
    h.goesOn ⟨rfl, rfl, Or.inl rfl, .refl _⟩ h.code ((Board.course_under K).quiet hmem)⟩

theorem inOrder_execute (hg : g.Quiet) (h : p.InOrder K w) (limit : Nat) (instr : Instr) :
    (p.execute (Board.socket g d i) limit instr w).2.2.1.InOrder K
      (p.execute (Board.socket g d i) limit instr w).2.2.2 := by
  have hcourse := (onward_execute (d := d) (i := i) (Board.course_under K) hg limit instr p w).world
  have he := executed_execute (Board.socket g d i) limit instr p w
  generalize p.execute (Board.socket g d i) limit instr w = out at hcourse he ⊢
  obtain ⟨x, hit, p', w'⟩ := out
  obtain ⟨cpu, retired, hp'⟩ := he.only
  have hcode := he.context.sameCode
  dsimp only at hp' hcourse hcode ⊢
  exact h.goesOn ⟨by rw [hp'], by rw [hp'], by rw [hp']; exact Or.inl rfl, hcode⟩ (h.code.moves hcode he.rip) hcourse

theorem InOrder.counted_flow (h : p.InOrder K w) (flow : Flow) : (p.counted flow).InOrder K w := by
  unfold Processor.counted
  split
  case isTrue => exact h
  case isFalse => exact h.goesOn ⟨rfl, rfl, Or.inl rfl, .refl _⟩ h.code ((Board.course_under K).quiet rfl)

/-- The processor stands before a record that its trace has. -/
theorem Traverses.record {index left k : Nat} {t : Trace} {entry : UInt64} (ht : p.Traverses w index left t k entry)
    (h : p.cache.Coherent w.mem.ram) :
    ∃ record, p.cache.pool[index]? = some record ∧ (p.cache.instrs t)[k]? = some record.instr := by
  obtain ⟨slot, hslot⟩ := ht.found
  have hleft := ht.left
  rw [ht.index]
  exact TraceCache.getElem?_instrs (h.sound slot t hslot).inPool (by omega)

/-- Memory has the record that the processor stands before, within the code segment, at an instruction pointer where it
was fetched. Without aliases that is as far behind the entry of the trace as the record is. -/
theorem Traverses.offers {index left k : Nat} {t : Trace} {entry : UInt64} (ht : p.Traverses w index left t k entry)
    (h : p.InOrder K w) (hlag : w.mem.ram.stamps.lag = 0) :
    ∃ record, p.cache.pool[index]? = some record ∧ ∃ mappings rip, K mappings ∧ p.cpu.Reaches rip ∧
      (w.mem.under mappings).Offers { p.cpu with rip } record.instr ∧
      (K.Unaliased → rip.toNat = entry.toNat + p.cache.bytesBefore t k) := by
  obtain ⟨hcoherent, hlaid⟩ := h.cache hlag
  obtain ⟨record, hrecord, hk⟩ := ht.record hcoherent
  obtain ⟨slot, hslot⟩ := ht.found
  obtain ⟨n₀, hview⟩ := ht.view
  have hl := hlaid slot t hslot
  have hholds := (hcoherent.sound slot t hslot).holds
  have hb := TraceCache.bytesBefore_add_le hholds hk
  obtain ⟨hbytes, hs | ⟨i, second, his, hs⟩⟩ := hholds
  · have hfrom := (hs.decodes ht.current).drop k
    rw [List.drop_eq_getElem?_toList_append, hk, ht.mode] at hfrom
    have hi := hfrom.1
    obtain ⟨hpos, hmax, -⟩ := Ram.len_of_decode hi
    obtain ⟨mappings, rip, n, hK, hr, hv, hle⟩ := hl.straight hs.tail (p.cache.bytesBefore t k) (by omega)
    exact ⟨record, hrecord, mappings, rip, hK, hr, .inside _ n hv (by omega) hi, fun hun =>
      hl.pointer hun h.code hs.tail h.kind ht.reaches hview _ (by omega) mappings rip n hK hr hv⟩
  · -- a trace that goes on in a second page has one instruction
    obtain rfl : k = 0 := by
      have hlt := (List.getElem?_eq_some_iff.1 hk).1
      rw [his, List.length_singleton] at hlt
      omega
    rw [his] at hk
    cases hk
    obtain ⟨mappings, rip, n, hK, hr, hr', hv, hv', hle⟩ := hl.split second hs.tail
    rw [hbytes, his, Ram.bytesOf_cons, Ram.bytesOf_nil] at hle
    have hi := hs.decodes ht.current
    rw [ht.mode] at hi
    exact ⟨record, hrecord, mappings, rip, hK, hr, .across _ _ _ n hv hs.crosses hr' hv' hle hi, fun hun =>
      congrArg UInt64.toNat (MappedRam.pointer_unique hun h.kind hK h.code ht.reaches hr hview hv)⟩

/-- There is the instruction pointer too, up to where the code size ends. -/
theorem Traverses.rip_eq {index left k : Nat} {t : Trace} {entry rip : UInt64} (ht : p.Traverses w index left t k entry)
    (hrip : rip.toNat = entry.toNat + p.cache.bytesBefore t k) :
    p.cpu.rip = if k = 0 then rip else rip &&& p.cpu.ipMask := by
  have hsame : rip = entry + UInt64.ofNat (p.cache.bytesBefore t k) := by
    apply UInt64.toNat_inj.1
    rw [Ram.toNat_add_ofNat (by have := rip.toNat_lt; omega), hrip]
  have hpointer := ht.pointer
  rw [← hsame] at hpointer
  rw [hpointer]
  split
  case isTrue hfirst =>
    rw [hsame, hfirst]
    exact (UInt64.add_zero entry).symm
  case isFalse => rfl

/-- Behind a record that is not the last, the processor is before the next one, wherever its instruction pointer came
round to. -/
theorem Traverses.advance {index left k : Nat} {t : Trace} {entry : UInt64} {record : Record} {flow : Flow}
    (h : p.InOrder K w) (ht : p.Traverses w index (left + 1) t k entry) (hlag : w.mem.ram.stamps.lag = 0)
    (hrecord : p.cache.pool[index]? = some record) (he : Executed record.instr p (.ok flow) p') (hhalt : flow ≠ .halt)
    (hgive : flow ≠ .giveWay) (hw : w.Passes w') (hlag' : w'.mem.ram.stamps.lag = 0)
    (hgen : w'.mem.ram.stamps.generation = w.mem.ram.stamps.generation) (hremaps : w'.mem.remaps = w.mem.remaps) :
    p'.Traverses w' (index + 1) left t (k + 1) entry := by
  have hcoherent := (h.cache hlag).1
  obtain ⟨record', hrecord', hk⟩ := ht.record hcoherent
  rw [hrecord] at hrecord'
  cases hrecord'
  obtain ⟨cpu, retired, hp'⟩ := he.only
  have hcache : p'.cache = p.cache := by rw [hp']
  obtain ⟨slot, hslot⟩ := ht.found
  have hsound := hcoherent.sound slot t hslot
  have hlen := TraceCache.length_instrs hsound.inPool
  have hleft := ht.left
  -- more records follow, so this one does not branch
  have hflow : flow = .next := by
    obtain ⟨-, hs | ⟨i, second, his, -⟩⟩ := hsound.holds
    case inr =>
      rw [his, List.length_singleton] at hlen
      omega
    have hfrom := (hs.decodes ht.current).drop k
    rw [List.drop_eq_getElem?_toList_append, hk] at hfrom
    obtain ⟨hi, hends, -⟩ := hfrom
    have hmore : (p.cache.instrs t).drop (k + 1) ≠ [] := fun hnil => by
      have := List.drop_eq_nil_iff.1 hnil
      omega
    exact he.eq_next hi (hends hmore) hhalt hgive
  subst hflow
  refine ⟨⟨slot, by rw [hcache]; exact hslot⟩, ht.current.later (hw.still h.tracked (hlag'.trans hlag.symm)) hgen,
    by rw [he.context.fetchMode]; exact ht.mode, by have := ht.index; omega, by omega, he.context.reaches.2 ht.reaches,
    ?_, ?_⟩
  · obtain ⟨n, hview⟩ := ht.view
    refine ⟨n, ?_⟩
    rw [MappedRam.fetchView_congr hw.moves.size (hw.moves.same hremaps), he.context.sameFetch.fetchView]
    exact hview
  · have hbefore : p'.cache.bytesBefore t (k + 1) = p.cache.bytesBefore t k + record.instr.len := by
      unfold TraceCache.bytesBefore
      rw [hcache, List.take_add_one, hk, Option.toList_some, Ram.bytesOf_append, Ram.bytesOf_cons, Ram.bytesOf_nil,
        Nat.add_zero]
    rw [if_neg (Nat.succ_ne_zero k), he.behind rfl, he.context.ipMask, hbefore, ht.pointer, UInt64.ofNat_add,
      ← UInt64.add_assoc]
    by_cases hfirst : k = 0
    · rw [if_pos hfirst, hfirst, TraceCache.bytesBefore, List.take_zero, Ram.bytesOf_nil]
      rw [show entry + UInt64.ofNat 0 = entry from UInt64.add_zero _]
    · rw [if_neg hfirst, Cpu.and_ipMask_add]

/-! ## Steps -/

/-- A step from a boundary: the processor stays in order, and it stands where it goes. -/
theorem standing_stepBoundary (hg : g.Quiet) (hd : d.StaysIn K) (h : p.InOrder K w) (limit : Nat) :
    (p.stepBoundary (Board.socket g d i) limit w).2.1.InOrder K (p.stepBoundary (Board.socket g d i) limit w).2.2 ∧
      ∀ next, (p.stepBoundary (Board.socket g d i) limit w).1 = .goto next →
        (p.stepBoundary (Board.socket g d i) limit w).2.1.Standing
          (p.stepBoundary (Board.socket g d i) limit w).2.2 next := by
  have hserve := inOrder_serve (g := g) (i := i) hd h.reset
  have hbounded := bounded_stepBoundary (Board.socket g d i) limit p w
  generalize p.stepBoundary (Board.socket g d i) limit w = out at hbounded ⊢
  cases hbounded with
  | left exit p₁ w₁ served =>
    rw [served] at hserve
    exact ⟨hserve, nofun⟩
  | halted p₁ w₁ served asleep =>
    rw [served] at hserve
    exact ⟨hserve, nofun⟩
  | spent p₁ w₁ served awake budget =>
    rw [served] at hserve
    exact ⟨hserve, nofun⟩
  | searched p₁ w₁ served awake budget =>
    rw [served] at hserve
    have hserve : p₁.InOrder K w₁ := hserve
    have hsought := sought_findTrace (d := d) (i := i) hg hserve
    unfold searched
    generalize p₁.findTrace (Board.socket g d i) w₁ = out at hsought ⊢
    obtain ⟨r, p₂, w₂⟩ := out
    cases r with
    | error fault =>
      refine ⟨inOrder_handFault hd fault hserve.code.pointer hsought.inOrder, fun next hnext => ?_⟩
      rw [boundary_of_handFault hnext]
      trivial
    | ok slot =>
      refine ⟨hsought.inOrder, fun next hnext => ?_⟩
      cases hnext
      by_cases hlag : w₂.mem.ram.stamps.lag = 0
      · obtain ⟨t, henter, hwalks⟩ := hsought.traverses (hsought.world.lag.symm.trans hlag) rfl
        dsimp only
        rw [henter]
        exact fun _ => ⟨rfl, t, 0, _, hwalks⟩
      · exact standing_of_lag hlag _

/-- A step from a record. -/
theorem standing_stepRecord (hg : g.Quiet) (hd : d.StaysIn K) (h : p.InOrder K w) (limit index left generation : Nat)
    (branch : Option Nat) :
    (p.stepRecord (Board.socket g d i) limit index left generation branch w).2.1.InOrder K
      (p.stepRecord (Board.socket g d i) limit index left generation branch w).2.2 ∧
    (p.Standing w (.record index left generation branch) → ∀ next,
      (p.stepRecord (Board.socket g d i) limit index left generation branch w).1 = .goto next →
        (p.stepRecord (Board.socket g d i) limit index left generation branch w).2.1.Standing
          (p.stepRecord (Board.socket g d i) limit index left generation branch w).2.2 next) := by
  have hrecorded := recorded_stepRecord (Board.socket g d i) limit index left generation branch p w
  generalize hout : p.stepRecord (Board.socket g d i) limit index left generation branch w = out at hrecorded ⊢
  -- behind an instruction that did not fault
  have hran : ∀ {len : Nat} {instr : Instr} {p₁ p₂ : Processor} {w₁ w₂ : Board γ δ} {stop hit : Bool}
      {x : Except Fault Flow}, p.stopsAt (Board.socket g d i) p.cpu.rip len w = (stop, p₁, w₁) →
      p₁.execute (Board.socket g d i) limit instr w₁ = (x, hit, p₂, w₂) → p₂.InOrder K w₂ := by
    intro len instr p₁ p₂ w₁ w₂ stop hit x hstop hexecute
    obtain ⟨stop', resume, w', hstop', -, h₁⟩ := inOrder_stopsAt (d := d) (i := i) hg h p.cpu.rip len
    rw [hstop] at hstop'
    cases hstop'
    have h₂ := inOrder_execute (d := d) (i := i) hg h₁ limit instr
    rw [hexecute] at h₂
    exact h₂
  cases hrecorded with
  | missing nothing => exact ⟨h, fun _ next hnext => by cases hnext; trivial⟩
  | stopped record found p₁ w₁ stops =>
    obtain ⟨stop', resume, w', hstop', -, h₁⟩ := inOrder_stopsAt (d := d) (i := i) hg h p.cpu.rip record.instr.len
    rw [stops] at hstop'
    cases hstop'
    exact ⟨h₁, fun _ => nofun⟩
  | faulted record found p₁ w₁ passes fault hit p₂ w₂ executed =>
    refine ⟨inOrder_handFault hd fault h.code.pointer (hran passes executed), fun _ next hnext => ?_⟩
    rw [boundary_of_handFault hnext]
    trivial
  | struck record found p₁ w₁ passes flow p₂ w₂ executed =>
    exact ⟨(hran passes executed).counted_flow flow, fun _ => nofun⟩
  | left record found p₁ w₁ passes flow p₂ w₂ executed leaves =>
    exact ⟨(hran passes executed).counted_flow flow, fun _ next hnext => by cases hnext; trivial⟩
  | through record found p₁ w₁ passes flow p₂ w₂ executed last stays =>
    obtain ⟨hinOrder, hstanding⟩ := standing_follow (d := d) (i := i) (g := g)
      ((hran passes executed).counted_flow flow) limit (branched index branch flow)
    exact ⟨hinOrder, fun _ next hnext => by cases hnext; exact hstanding⟩
  | next record found p₁ w₁ passes flow p₂ w₂ executed n more stays =>
    refine ⟨(hran passes executed).counted_flow flow, fun hstanding next hnext => ?_⟩
    cases hnext
    intro hlag
    subst more
    have hhalt : flow ≠ .halt := by
      rintro rfl
      unfold stepRecord at hout
      rw [found] at hout
      dsimp only at hout
      rw [passes] at hout
      dsimp only at hout
      rw [executed] at hout
      cases hout
    obtain ⟨stop, resume, w', hstop, hmem, h₁⟩ := inOrder_stopsAt (d := d) (i := i) hg h p.cpu.rip record.instr.len
    rw [passes] at hstop
    cases hstop
    have hcourse := (onward_execute (d := d) (i := i) (Board.course_under K) hg limit record.instr { p with resume }
      w₁).world
    have hremaps := remaps_execute (d := d) (i := i) hg limit record.instr { p with resume } w₁
    have hexecuted := executed_execute (Board.socket g d i) limit record.instr { p with resume } w₁
    rw [executed] at hcourse hremaps hexecuted
    have hzero : w₁.mem.ram.stamps.lag = 0 := by
      have hlag : w₂.mem.ram.stamps.lag = 0 := hlag
      obtain ⟨k, hk⟩ := h₁.counted
      have hle : w₁.mem.ram.stamps.lag ≤ w₂.mem.ram.stamps.lag := hcourse.1.lag_le
      omega
    obtain ⟨hgen, t, k, entry, hwalks⟩ := hstanding (by rw [← hmem]; exact hzero)
    obtain ⟨-, -, hsame⟩ := mustLeave_eq_false rfl stays.2
    have hwalks₁ : Traverses { p with resume } w₁ index (n + 1) t k entry := hwalks.congr rfl rfl hmem
    have hnext := hwalks₁.advance h₁ hzero found hexecuted hhalt stays.1 hcourse.1 hlag
      (by rw [hmem, ← hgen]; exact hsame) hremaps
    have hcounted : (p₂.counted flow).cache = p₂.cache ∧ (p₂.counted flow).cpu = p₂.cpu := by
      unfold counted
      split <;> exact ⟨rfl, rfl⟩
    exact ⟨hsame.symm, t, k + 1, entry, hnext.congr hcounted.1 hcounted.2 rfl⟩

/-! ## Runs -/

theorem inOrder_step (hg : g.Quiet) (hd : d.StaysIn K) (h : p.InOrder K w) (limit : Nat) (point : Point) :
    (p.step (Board.socket g d i) limit point w).2.1.InOrder K (p.step (Board.socket g d i) limit point w).2.2 := by
  cases point with
  | boundary => exact (standing_stepBoundary hg hd h limit).1
  | record index left generation branch => exact (standing_stepRecord hg hd h limit index left generation branch).1

theorem inOrder_run (hg : g.Quiet) (hd : d.StaysIn K) (h : p.InOrder K w) (budget : Nat) :
    (p.run (Board.socket g d i) budget w).2.1.InOrder K (p.run (Board.socket g d i) budget w).2.2 :=
  run_induction (Q := InOrder K) budget p w (fun limit point _ _ h => inOrder_step hg hd h limit point) h

/-- Wherever the processor is in a run, it is in order and stands there. -/
theorem standing_of_visits (hg : g.Quiet) (hd : d.StaysIn K) (h : p.InOrder K w) {limit : Nat} {point : Point}
    (hv : Visits (Board.socket g d i) limit p w point p' w') : p'.InOrder K w' ∧ p'.Standing w' point := by
  induction hv with
  | start => exact ⟨h, trivial⟩
  | @goto point next p₁ p₂ w₁ w₂ before steps ih =>
    obtain ⟨hinOrder, hstanding⟩ := ih
    cases point with
    | boundary =>
      have hstep := standing_stepBoundary (i := i) hg hd hinOrder limit
      rw [show p₁.stepBoundary (Board.socket g d i) limit w₁ = _ from steps] at hstep
      exact ⟨hstep.1, hstep.2 next rfl⟩
    | record index left generation branch =>
      have hstep := standing_stepRecord (i := i) hg hd hinOrder limit index left generation branch
      rw [show p₁.stepRecord (Board.socket g d i) limit index left generation branch w₁ = _ from steps] at hstep
      exact ⟨hstep.1, hstep.2 hstanding next rfl⟩

/-! ## Histories -/

/-- A processor and its board in the course of a history under one code segment, with mappings of a kind. Others may
store, run and map in between. -/
inductive InSegment (K : Kind) : Processor → Board γ δ → Prop
  | start (id : Nat) (config : CoreConfig) (cpu : Cpu) (p : Processor) (w : Board γ δ)
      (new : Processor.new id config cpu = .ok p) (code : cpu.Segmented) (kind : K w.mem.mappings)
      (tracked : w.mem.ram.Tracked) (stamps : ∃ n, w.mem.ram.stamps = .ofPages n) : InSegment K p w
  | run (guard : Guard (Board γ δ)) (delivery : Delivery (Board γ δ)) (i budget : Nat) {p : Processor} {w : Board γ δ}
      (before : InSegment K p w) (quiet : guard.Quiet) (stays : delivery.StaysIn K) :
      InSegment K (p.run (Board.socket guard delivery i) budget w).2.1
        (p.run (Board.socket guard delivery i) budget w).2.2
  | board (w' : Board γ δ) {p : Processor} {w : Board γ δ} (before : InSegment K p w) (passes : w.Passes w')
      (kind : K w'.mem.mappings) : InSegment K p w'
  | assign (cpu : Cpu) {p : Processor} {w : Board γ δ} (before : InSegment K p w) (same : p.cpu.SameCode cpu)
      (code : cpu.Segmented) : InSegment K { p with cpu } w
  | drop {p : Processor} {w : Board γ δ} (before : InSegment K p w) : InSegment K p.dropTraces w
  | skip {p : Processor} {w : Board γ δ} (before : InSegment K p w) : InSegment K p.skipBreakpoint w
  | links (enabled : Bool) {p : Processor} {w : Board γ δ} (before : InSegment K p w) :
      InSegment K (p.allowLinks enabled) w

theorem inOrder_of_inSegment (h : InSegment K p w) : p.InOrder K w := by
  induction h with
  | start id config cpu p w new code kind tracked stamps =>
    have hlag : w.mem.ram.stamps.lag = 0 := by
      obtain ⟨n, hn⟩ := stamps
      rw [hn]
      exact StampTable.lag_ofPages n
    unfold Processor.new withDecoder at new
    cases hv : config.validate with
    | error e => rw [hv] at new; cases new
    | ok _ =>
      rw [hv] at new
      cases new
      refine ⟨rfl, code, kind, tracked, ⟨0, hlag⟩, Or.inl rfl, fun _ => ⟨TraceCache.coherent_new hv _, ?_⟩⟩
      intro slot t ht
      simp only [TraceCache.trace?, TraceCache.new, Array.getElem?_replicate] at ht
      split at ht <;> cases ht
  | run guard delivery i budget _ quiet stays ih => exact inOrder_run quiet stays ih budget
  | board w' _ passes kind ih => exact ih.goesOn (.refl _) ih.code ⟨passes, fun _ => kind⟩
  | assign cpu _ same code ih => exact ih.goesOn ⟨rfl, rfl, Or.inl rfl, same⟩ code ((Board.course_under K).quiet rfl)
  | drop _ ih =>
    refine ⟨ih.decode, ih.code, ih.kind, ih.tracked, ih.counted, Or.inl rfl, fun hlag =>
      ⟨TraceCache.coherent_flush (ih.cache hlag).1 _, fun slot t ht => ?_⟩⟩
    rw [show (dropTraces _).cache = TraceCache.flush _ from rfl, TraceCache.trace?_flush] at ht
    cases ht
  | skip _ ih => exact ih.goesOn ⟨rfl, rfl, Or.inl rfl, .refl _⟩ ih.code ((Board.course_under K).quiet rfl)
  | links _ _ ih => exact ih.goesOn ⟨rfl, rfl, Or.inl rfl, .refl _⟩ ih.code ((Board.course_under K).quiet rfl)

/-- A page of zeros with `src` stored into it. -/
def storedPage (addr : UInt64) (src : List UInt8) : Board Unit Unit :=
  (Board.bus.write addr src ⟨{ ram := .zeroPage }, (), (), #[{}]⟩).2

theorem mappings_storedPage (addr : UInt64) (src : List UInt8) : (storedPage addr src).mem.mappings = none := rfl

/-- A new processor may run there. -/
theorem inSegment_storedPage {config : CoreConfig} {cpu : Cpu} (new : Processor.new 0 config cpu = .ok p)
    (code : cpu.Segmented) (addr : UInt64) (src : List UInt8) : InSegment (· = none) p (storedPage addr src) := by
  refine .board _ (.start 0 config cpu p ⟨{ ram := .zeroPage }, (), (), #[{}]⟩ new code rfl ⟨?_, ?_⟩ ⟨1, rfl⟩)
    (Board.passes_write ..) (mappings_storedPage addr src)
  · simp [Ram.zeroPage, StampTable.ofPages, pageSize]
  · simp [Ram.zeroPage]

end Processor

end TraceCore
