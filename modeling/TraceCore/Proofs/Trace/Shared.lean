/-
Caches that share one memory. Each of them decodes from it and is told of nothing; stores go to the
memory and its stamp table. As long as no page sees 2^32 stores into cached code between two full
flushes, whatever a cache gives out is what memory holds.
-/
import TraceCore.Proofs.Fetch.View

namespace TraceCore

open TraceCache

/-! ## What a cache gives out -/

/-- The trace in the slot is what memory holds at `addr`: the instructions one behind the other, or
one of them that goes on at the start of a second page. Looking it up again gives the same slot. -/
structure TraceCache.Shows (c : TraceCache) (ram : Ram) (addr : UInt64) (mode : FetchMode) (slot : Nat) : Prop where
  shown : ∃ t, c.trace? slot = some t ∧ t.addr = addr ∧ t.mode = mode ∧ (c.instrs t).length = t.len ∧ 0 < t.len ∧
    (t.tail = .none ∧ ram.Decodes mode addr (c.instrs t) ∨
      ∃ i second, t.tail = some second ∧ c.instrs t = [i] ∧ toPageEnd addr < i.len ∧
        decodeInstr (ram.slice addr (toPageEnd addr) ++ ram.slice second.start maxInstrLen) mode = .complete i)
  again : (c.lookup ram.stamps addr mode).1 = some slot

namespace TraceCache

variable {c : TraceCache} {ram : Ram} {addr : UInt64} {mode : FetchMode} {slot : Nat}

theorem Coherent.shows (h : c.Coherent ram) (hslot : slot = c.slotOf addr mode) {t : Trace}
    (ht : c.trace? slot = some t) (haddr : t.addr = addr) (hmode : t.mode = mode) (hcur : t.Current ram) :
    c.Shows ram addr mode slot := by
  have hsound := h.sound slot t ht
  refine ⟨⟨t, ht, haddr, hmode, length_instrs hsound.inPool, hsound.nonempty, ?_⟩, ?_⟩
  · subst haddr hmode
    obtain ⟨-, hs | ⟨i, second, his, hs⟩⟩ := hsound.holds
    · exact Or.inl ⟨hs.tail, hs.decodes hcur⟩
    · exact Or.inr ⟨i, second, hs.tail, his, hs.crosses, hs.decodes hcur⟩
  · subst hslot
    exact lookup_of_current ht haddr hmode hcur

end TraceCache

/-! ## The system -/

/-- Caches without number over one memory, and for each page the count of stores that hit cached
code on it since everything was last forgotten. -/
structure SharedCode where
  caches : Nat → TraceCache
  board : Board Unit Unit
  hits : UInt64 → Nat

/-- The site that a window was opened for. -/
def FetchWindow.site (window : FetchWindow) (cpu : Cpu) (rip : UInt64) : Site :=
  { addr := window.address window.entry, mode := cpu.fetchMode, rip, remaining := window.remaining window.entry }

namespace SharedCode

/-- What can happen: a cache is asked for the trace at an instruction pointer or for one at an
address, memory is written through the bus or behind its back, a mapping changes, and one cache or
everything is emptied. -/
inductive Op where
  | fetch (k : Nat) (cpu : Cpu) (rip : UInt64)
  | lookup (k : Nat) (addr : UInt64) (mode : FetchMode)
  | store (addr : UInt64) (src : List UInt8)
  | notify (addr : UInt64) (len : Nat)
  | map (linear : UInt64) (mapping : Mapping)
  | unmap (linear : UInt64)
  | flush (k : Nat)
  | flushAll

def ram (s : SharedCode) : Ram := s.board.mem.ram

/-- The counts after a store of `len` bytes at `addr`. -/
def countHits (s : SharedCode) (addr : UInt64) (len : Nat) (p : UInt64) : Nat :=
  s.hits p + if (s.ram.stamps.page p).hit (chunksIn addr len p) then 1 else 0

/-- Cache `k` asks for the trace at `rip`. -/
def fetch (s : SharedCode) (k : Nat) (cpu : Cpu) (rip : UInt64) : Except Fault Nat × TraceCache × Board Unit Unit :=
  match (openWindow Board.bus .none cpu rip s.board).1 with
  | .error e => (.error (.fetch e), s.caches k, s.board)
  | .ok window => (s.caches k).ensure Board.bus decodeInstr (window.site cpu rip) (Board.nextWindow .none cpu) s.board

def step (s : SharedCode) : Op → SharedCode
  | .fetch k cpu rip =>
    let (_, c, board) := s.fetch k cpu rip
    { s with caches := Function.update s.caches k c, board }
  | .lookup k addr mode =>
    { s with caches := Function.update s.caches k ((s.caches k).lookup s.ram.stamps addr mode).2 }
  | .store addr src =>
    if s.ram.fits addr src.length then
      { s with board.mem := (s.board.mem.write addr src).2, hits := s.countHits addr src.length }
    else s
  | .notify addr len =>
    { s with board := Board.bus.mapStamps (·.store addr len) s.board, hits := s.countHits addr len }
  | .map linear mapping => { s with board.mem := s.board.mem.map linear mapping }
  | .unmap linear => { s with board.mem := s.board.mem.unmap linear }
  | .flush k => { s with caches := Function.update s.caches k (s.caches k).flush }
  | .flushAll =>
    { caches := fun k => (s.caches k).flush, board := Board.bus.mapStamps (·.reset) s.board, hits := fun _ => 0 }

/-- Instruction pointers at which nothing goes on in the middle of a page. -/
def Op.Continues : Op → Prop
  | .fetch _ cpu rip => cpu.Continues rip
  | _ => True

/-- The states that new caches over new memory come to, while no page counts 2^32 hits. -/
inductive Reached : SharedCode → Prop
  | start (configs : Nat → CoreConfig) (valid : ∀ k, (configs k).validate = .ok ()) (size : UInt64) (mem : MappedRam)
      (new : MappedRam.ofSize size = .ok mem) :
      Reached ⟨fun k => .new (configs k), ⟨mem, (), (), #[]⟩, fun _ => 0⟩
  | step {s : SharedCode} (op : Op) (before : Reached s) (continues : op.Continues)
      (few : ∀ p, (s.step op).hits p < 2 ^ 32) : Reached (s.step op)

/-! ## The invariant -/

/-- Every stamp is the count of hits on its page, and every cache is coherent. -/
structure Inv (s : SharedCode) : Prop where
  tracked : s.ram.Tracked
  counted : ∀ p st, s.ram.stamps.page? p = some st → st.stamp.toNat = s.hits p
  coherent : ∀ k, (s.caches k).Coherent s.ram

variable {s : SharedCode}

/-- While the counts are small, stamps do not come round. -/
theorem Inv.counted_store (h : s.Inv) (addr : UInt64) (len : Nat) (hfew : ∀ p, s.countHits addr len p < 2 ^ 32) :
    s.ram.stamps.Rises (s.ram.stamps.store addr len) ∧
      ∀ p st, (s.ram.stamps.store addr len).page? p = some st → st.stamp.toNat = s.countHits addr len p := by
  have key : ∀ p st st', s.ram.stamps.page? p = some st → (s.ram.stamps.store addr len).page? p = some st' →
      st'.stamp.toNat = s.countHits addr len p ∧ st.stamp.toNat = s.hits p := by
    intro p st st' hst hst'
    have hcount := h.counted p st hst
    have hp := hfew p
    rw [StampTable.page?_store _ _ _ (h.tracked.page_lt hst).2, hst, Option.map_some] at hst'
    cases hst'
    refine ⟨?_, hcount⟩
    unfold countHits at hp ⊢
    rw [StampTable.page, hst, Option.getD_some] at hp ⊢
    cases hit : st.hit (chunksIn addr len p) with
    | false =>
      rw [PageState.store_of_not_hit hit, hcount]
      rfl
    | true =>
      rw [hit, if_pos rfl] at hp
      rw [PageState.store_of_hit hit, if_pos rfl, ← hcount]
      show (st.stamp + 1).toNat = _
      rw [UInt32.toNat_add, show (1 : UInt32).toNat = 1 from rfl]
      omega
  refine ⟨fun p st st' hst hst' => ?_, fun p st' hst' => ?_⟩
  · obtain ⟨h1, h2⟩ := key p st st' hst hst'
    rw [h1, h2]
    exact Nat.le_add_right ..
  · cases hst : s.ram.stamps.page? p with
    | some st => exact (key p st st' hst hst').1
    | none =>
      rw [StampTable.page?_eq_none_iff] at hst
      rw [StampTable.page?_eq_none_iff.2 (by rw [StampTable.size_store]; exact hst)] at hst'
      cases hst'

/-- One cache changes, and memory at most by registrations. -/
theorem Inv.update (h : s.Inv) {k : Nat} {c : TraceCache} {board : Board Unit Unit} (hw : s.board.Registered board)
    (hc : c.Coherent board.mem.ram) : Inv { s with caches := Function.update s.caches k c, board } := by
  refine ⟨hw.later.tracked h.tracked, fun p st hst => ?_, fun j => ?_⟩
  · obtain ⟨st₀, hst₀⟩ := hw.later.page?_before hst
    rw [(hw.later.still hw.generation p st₀ st hst₀ hst).1]
    exact h.counted p st₀ hst₀
  · by_cases hj : j = k
    · subst hj
      show (Function.update s.caches j c j).Coherent board.mem.ram
      rw [Function.update_self]
      exact hc
    · simp only [Function.update_of_ne hj]
      exact (h.coherent j).later h.tracked hw.later

/-- All caches stay, and memory is written. -/
theorem Inv.written (h : s.Inv) {board : Board Unit Unit} {hits : UInt64 → Nat} (hl : s.ram.Later board.mem.ram)
    (hcount : ∀ p st, board.mem.ram.stamps.page? p = some st → st.stamp.toNat = hits p) :
    Inv { s with board, hits } :=
  ⟨hl.tracked h.tracked, hcount, fun k => (h.coherent k).later h.tracked hl⟩

theorem Inv.ensured (h : s.Inv) (k : Nat) {cpu : Cpu} {rip : UInt64} (hcont : cpu.Continues rip) {window : FetchWindow}
    (hopen : (openWindow Board.bus .none cpu rip s.board).1 = .ok window) :
    (s.caches k).Ensured s.board (window.site cpu rip) (Board.nextWindow .none cpu)
      ((s.caches k).ensure Board.bus decodeInstr (window.site cpu rip) (Board.nextWindow .none cpu) s.board).1
      ((s.caches k).ensure Board.bus decodeInstr (window.site cpu rip) (Board.nextWindow .none cpu) s.board).2.1
      ((s.caches k).ensure Board.bus decodeInstr (window.site cpu rip) (Board.nextWindow .none cpu) s.board).2.2 :=
  ensured_ensure (h.coherent k) h.tracked
    (Board.continues_nextWindow Guard.quiet_none (window.site cpu rip) (Board.fetchView_of_openWindow hopen) hcont)

theorem Inv.fetched (h : s.Inv) (k : Nat) {cpu : Cpu} {rip : UInt64} (hcont : cpu.Continues rip) :
    s.board.Registered (s.fetch k cpu rip).2.2 ∧ (s.fetch k cpu rip).2.1.Coherent (s.fetch k cpu rip).2.2.mem.ram := by
  unfold fetch
  split
  case h_1 => exact ⟨.refl _, h.coherent k⟩
  case h_2 hopen => exact ⟨(h.ensured k hcont hopen).world, (h.ensured k hcont hopen).coherent⟩

theorem inv_start {configs : Nat → CoreConfig} (hvalid : ∀ k, (configs k).validate = .ok ()) {size : UInt64}
    {mem : MappedRam} (hmem : MappedRam.ofSize size = .ok mem) :
    Inv ⟨fun k => .new (configs k), ⟨mem, (), (), #[]⟩, fun _ => 0⟩ := by
  obtain ⟨htracked, n, hstamps⟩ := Ram.tracked_ofSize (MappedRam.ram_ofSize hmem)
  refine ⟨htracked, fun p st hst => ?_, fun k => coherent_new (hvalid k) _⟩
  simp only [ram, hstamps, StampTable.ofPages, StampTable.page?, Array.getElem?_replicate] at hst
  split at hst
  · cases hst; rfl
  · cases hst

theorem inv_step (h : s.Inv) (op : Op) (hcont : op.Continues) (hfew : ∀ p, (s.step op).hits p < 2 ^ 32) :
    (s.step op).Inv := by
  cases op with
  | fetch k cpu rip =>
    obtain ⟨hworld, hcoherent⟩ := h.fetched k hcont
    exact h.update hworld hcoherent
  | lookup k addr mode => exact h.update (.refl _) (lookedUp_lookup (h.coherent k) addr mode).coherent
  | store addr src =>
    unfold step at hfew ⊢
    dsimp only at hfew ⊢
    split
    case isFalse => exact h
    case isTrue hfits =>
      rw [if_pos hfits] at hfew
      obtain ⟨hrise, hcount⟩ := h.counted_store addr src.length hfew
      have hram : (s.board.mem.write addr src).2.ram = s.ram.store addr src := by
        show (s.ram.write addr src).2 = _
        unfold Ram.write
        rw [if_pos hfits]
      refine h.written ?_ ?_
      · rw [hram]; exact Ram.later_store h.tracked addr src hrise
      · rw [hram]; exact hcount
  | notify addr len =>
    obtain ⟨hrise, hcount⟩ := h.counted_store addr len hfew
    exact h.written (Ram.later_notify h.tracked addr len hrise) hcount
  | map linear mapping => exact h.written (.refl _) h.counted
  | unmap linear => exact h.written (.refl _) h.counted
  | flush k => exact h.update (.refl _) (coherent_flush (h.coherent k) _)
  | flushAll =>
    refine ⟨⟨?_, h.tracked.addressable⟩, fun p st hst => ?_, fun k => coherent_flush (h.coherent k) _⟩
    · have := h.tracked.size
      simpa [step, ram, Board.bus, MappedRam.mapStamps, StampTable.reset] using this
    · simp only [step, ram, Board.bus, MappedRam.mapStamps, StampTable.reset, StampTable.page?,
        Array.getElem?_replicate] at hst
      split at hst
      · cases hst; rfl
      · cases hst

theorem inv_of_reached (h : s.Reached) : s.Inv := by
  induction h with
  | start configs hvalid size mem hmem => exact inv_start hvalid hmem
  | step op _ hcont hfew ih => exact inv_step ih op hcont hfew

/-! ## No stale code -/

/-- What a cache gives out is what memory holds at that moment, whether it was found or built. -/
theorem shows_of_reached (h : s.Reached) (k : Nat) :
    (∀ addr mode slot c, (s.caches k).lookup s.ram.stamps addr mode = (some slot, c) → c.Shows s.ram addr mode slot) ∧
      ∀ cpu rip slot c board, cpu.Continues rip → s.fetch k cpu rip = (.ok slot, c, board) →
        ∃ window, (openWindow Board.bus .none cpu rip s.board).1 = .ok window ∧
          c.Shows board.mem.ram (window.address window.entry) cpu.fetchMode slot := by
  have hinv := inv_of_reached h
  refine ⟨fun addr mode slot c hlook => ?_, fun cpu rip slot c board hcont hfetch => ?_⟩
  · have hl := lookedUp_lookup (hinv.coherent k) addr mode
    rw [hlook] at hl
    obtain ⟨hslot, t, ht, haddr, hmode, hcur⟩ := hl.found slot rfl
    refine hl.coherent.shows ?_ ht haddr hmode hcur
    rw [hslot, slotOf, slotOf, hl.size]
  · unfold fetch at hfetch
    split at hfetch
    case h_1 => cases hfetch
    case h_2 window hopen =>
      have he := hinv.ensured k hcont hopen
      rw [hfetch] at he
      obtain ⟨hslot, t, ht, haddr, hmode, hcur⟩ := he.found slot rfl
      refine ⟨window, hopen, he.coherent.shows ?_ ht haddr hmode hcur⟩
      rw [hslot, slotOf, slotOf, he.size]
      rfl

theorem countHits_le (s : SharedCode) (addr : UInt64) (len : Nat) (p : UInt64) :
    s.countHits addr len p ≤ s.hits p + 1 := by
  unfold countHits
  split <;> omega

/-- Small caches over one page of zeros. -/
def onePage : SharedCode :=
  ⟨fun _ => .new { traceSlots := 1, recordPool := 2, maxTraceLen := 1 },
    ⟨{ ram := .zeroPage }, (), (), #[]⟩, fun _ => 0⟩

/-- With `mov eax, 0x44332211` stored at the start of the page. -/
def oneMove : SharedCode := onePage.step (.store 0 [0xB8, 0x11, 0x22, 0x33, 0x44])

theorem reached_oneMove : oneMove.Reached := by
  have hnew : MappedRam.ofSize 4096 = .ok { ram := .zeroPage } := by
    rw [MappedRam.ofSize, Ram.ofSize_zeroPage]
    rfl
  have hstart : onePage.Reached :=
    .start (fun _ => { traceSlots := 1, recordPool := 2, maxTraceLen := 1 }) (fun _ => by decide) 4096 _ hnew
  refine .step _ hstart trivial fun p => ?_
  have hle : (onePage.step (.store 0 [0xB8, 0x11, 0x22, 0x33, 0x44])).hits p ≤ onePage.countHits 0 5 p := by
    unfold step
    dsimp only
    split
    · exact Nat.le_refl _
    · exact Nat.zero_le _
  exact lt_of_le_of_lt (le_trans hle (countHits_le onePage 0 5 p)) (show 0 + 1 < 2 ^ 32 by decide)

theorem fetch_eq (s : SharedCode) (k : Nat) (cpu : Cpu) (rip : UInt64) {slot : Nat}
    (h : (s.fetch k cpu rip).1 = .ok slot) :
    s.fetch k cpu rip = (.ok slot, (s.fetch k cpu rip).2.1, (s.fetch k cpu rip).2.2) := by
  rw [← h]

/-- A flat segment finds the instruction at address zero. -/
theorem shows_oneMove : ∃ c board, oneMove.fetch 0 (.new .protectedMode) 0 = (.ok 0, c, board) ∧
    ∃ window, (openWindow Board.bus .none (.new .protectedMode) 0 oneMove.board).1 = .ok window ∧
      c.Shows board.mem.ram (window.address window.entry) (Cpu.new .protectedMode).fetchMode 0 := by
  have hfound : (oneMove.fetch 0 (.new .protectedMode) 0).1 = .ok 0 := by decide +kernel
  have hfetch := fetch_eq _ _ _ _ hfound
  exact ⟨_, _, hfetch, (shows_of_reached reached_oneMove 0).2 _ _ _ _ _ (Or.inr (Or.inl (by simp [maxInstrLen])))
    hfetch⟩

/-- A segment that starts in the middle of a page. -/
def unaligned : Cpu := { Cpu.new .protectedMode with cs := { Segment.flat 8 with base := 2 } }

/-- The cache that built a trace where the instruction pointer comes round behind the second byte. -/
def roundCache : TraceCache := (oneMove.fetch 0 unaligned 0xFFFFFFFFFFFFFFFE).2.1

theorem isSome_roundCache : (roundCache.trace? 0).isSome = true := by decide +kernel

/-- Where the instruction pointer comes round behind the second byte of the page, the instruction goes
on in the middle of it. Whatever part of the instruction is in front, the start of the second page
does not complete it. -/
theorem split_inside_page : ∃ c board t i second, oneMove.Reached ∧
    oneMove.fetch 0 unaligned 0xFFFFFFFFFFFFFFFE = (.ok 0, c, board) ∧ c.trace? 0 = some t ∧ c.instrs t = [i] ∧
      t.tail = some second ∧ ∀ n, 0 < n → n < i.len →
        decodeInstr (board.mem.ram.slice t.addr n ++ board.mem.ram.slice second.start maxInstrLen) t.mode ≠
          .complete i := by
  have hfetch : (oneMove.fetch 0 unaligned 0xFFFFFFFFFFFFFFFE).1 = .ok 0 := by decide +kernel
  refine ⟨roundCache, _, (roundCache.trace? 0).get isSome_roundCache,
    { op := .moveImm ⟨0, false⟩ 0x44332211, len := 5 }, ⟨0, 0, 1⟩, reached_oneMove, fetch_eq _ _ _ _ hfetch,
    (Option.some_get isSome_roundCache).symm, by decide +kernel, by decide +kernel, fun n hpos hlt => ?_⟩
  have h : ∀ n < 5, 0 < n → decodeInstr
      ((oneMove.fetch 0 unaligned 0xFFFFFFFFFFFFFFFE).2.2.mem.ram.slice
          ((roundCache.trace? 0).get isSome_roundCache).addr n ++
        (oneMove.fetch 0 unaligned 0xFFFFFFFFFFFFFFFE).2.2.mem.ram.slice (Snapshot.start ⟨0, 0, 1⟩) maxInstrLen)
      ((roundCache.trace? 0).get isSome_roundCache).mode ≠
        .complete { op := .moveImm ⟨0, false⟩ 0x44332211, len := 5 } := by decide +kernel
  exact h n hlt hpos

end SharedCode

end TraceCore
