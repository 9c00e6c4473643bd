/-
What a processor's history has to keep so that its cache stays true: the instruction pointer moves as
the running code moves it, memory goes on without a stamp coming round, and a trace fits the window it
is run from. A regime says how the last is known.
-/
import TraceCore.Proofs.Processor.Onward

namespace TraceCore

/-! ## Instruction pointers -/

/-- Sixteen-bit code has no more than the instruction pointers that sixteen bits have; and the
instruction pointer is one of those, or it comes down to one at the start of a page. -/
structure Cpu.Orderly (c : Cpu) : Prop where
  short : c.codeSize = .b16 → c.cs.limit.toNat ≤ 0xFFFF
  pointer : c.Reaches c.rip ∨ pageOffset c.cs.base = 0

namespace Cpu

variable {c c' : Cpu} {rip target : UInt64}

theorem Orderly.continues (h : c.Orderly) : c.Continues c.rip := by
  rcases h.pointer with hr | hb
  · exact hr.continues
  · exact Or.inr (Or.inr hb)

theorem SameContext.reaches (h : c.SameContext c') : c'.Reaches rip ↔ c.Reaches rip := by
  unfold Reaches
  rw [h.codeSize]

theorem toNat_and_ipMask (c : Cpu) (rip : UInt64) : (rip &&& c.ipMask).toNat = rip.toNat % 2 ^ c.codeSize.bits :=
  c.codeSize.toNat_and_mask rip

/-- The running code can have every instruction pointer that it masks. -/
theorem reaches_ipMask (c : Cpu) (rip : UInt64) : c.Reaches (rip &&& c.ipMask) := by
  unfold Reaches
  rw [toNat_and_ipMask]
  cases c.codeSize with
  | b64 => exact Or.inl rfl
  | b32 => exact Or.inr (Nat.mod_lt _ (by decide))
  | b16 => exact Or.inr (Nat.lt_trans (Nat.mod_lt _ (by decide)) (by decide))

end Cpu

/-- Outside 64-bit code only 32 bits of an instruction pointer count. -/
theorem windowAt_low {cpu : Cpu} (hb : cpu.codeSize ≠ .b64) {rip rip' : UInt64}
    (h : rip'.toNat % 2 ^ 32 = rip.toNat % 2 ^ 32) :
    windowAt cpu rip' = windowAt cpu rip := by
  have heip : rip' &&& 0xFFFFFFFF = rip &&& 0xFFFFFFFF := by
    apply UInt64.toNat_inj.1
    rw [toNat_and_low, toNat_and_low, h]
  unfold windowAt
  rw [if_neg hb, if_neg hb, heip]

theorem MappedRam.fetchView_low {m : MappedRam} {cpu : Cpu} (hb : cpu.codeSize ≠ .b64) {rip rip' : UInt64}
    (h : rip'.toNat % 2 ^ 32 = rip.toNat % 2 ^ 32) : m.fetchView cpu rip' = m.fetchView cpu rip := by
  unfold fetchView
  rw [windowAt_low hb h]

/-- Behind an instruction that does not reach the end of the window, the running code goes on in it. -/
theorem MappedRam.fetchView_next {m : MappedRam} {c : Cpu} (hshort : c.codeSize = .b16 → c.cs.limit.toNat ≤ 0xFFFF)
    {rip addr : UInt64} {n k : Nat} (h : m.fetchView c rip = .ok (addr, n)) (hk : k < n) :
    m.fetchView c ((rip + UInt64.ofNat k) &&& c.ipMask) = .ok (addr + UInt64.ofNat k, n - k) := by
  by_cases hb : c.codeSize = .b64
  · have hmask : (rip + UInt64.ofNat k) &&& c.ipMask = rip + UInt64.ofNat k := by
      apply UInt64.toNat_inj.1
      rw [Cpu.toNat_and_ipMask, hb]
      exact Nat.mod_eq_of_lt (UInt64.toNat_lt _)
    rw [hmask]
    exact (Board.fetchView_add h (Or.inl hb) hk).1
  · have hlow := toNat_and_low rip
    have hreach : c.Reaches (rip &&& 0xFFFFFFFF) := Or.inr (by rw [hlow]; exact Nat.mod_lt _ (by decide))
    rw [← MappedRam.fetchView_low hb (show (rip &&& 0xFFFFFFFF).toNat % 2 ^ 32 = _ by rw [hlow, Nat.mod_mod])] at h
    obtain ⟨hview, hreach'⟩ := Board.fetchView_add h hreach hk
    have hkn : k < 2 ^ 12 := by
      have := (Board.fetchView_le h).2.1
      unfold toPageEnd pageSize at this
      omega
    have hsum : ((rip &&& 0xFFFFFFFF) + UInt64.ofNat k).toNat = rip.toNat % 2 ^ 32 + k := by
      rw [Ram.toNat_add_ofNat (by rw [hlow]; omega), hlow]
    have hlt : rip.toNat % 2 ^ 32 + k < 2 ^ 32 := by
      rcases hreach' with hr | hr
      · exact absurd hr hb
      · rw [← hsum]; exact hr
    have hfull : (rip + UInt64.ofNat k).toNat = (rip.toNat + k) % 2 ^ 64 := by
      rw [UInt64.toNat_add, UInt64.toNat_ofNat']
      omega
    have hmask : (rip + UInt64.ofNat k) &&& c.ipMask = (rip &&& 0xFFFFFFFF) + UInt64.ofNat k := by
      apply UInt64.toNat_inj.1
      rw [Cpu.toNat_and_ipMask, hsum, hfull]
      cases hcode : c.codeSize with
      | b64 => exact absurd hcode hb
      | b32 =>
        show _ % 2 ^ 32 = _
        omega
      | b16 =>
        -- the limit keeps the sum from reaching 2^16
        have hlimit := hshort hcode
        obtain ⟨linear, bias, size, hat, -⟩ := Board.fetchView_eq_ok.1 hview
        have hle := ((windowAt_segment hb).1 hat).1
        rw [hsum, Nat.mod_eq_of_lt hlt] at hle
        show _ % 2 ^ 16 = _
        omega
    rw [hmask]
    exact hview

/-! ## Memory -/

variable {γ δ : Type}

/-- Memory goes on from `w` to `w'`. Unless a stamp comes round on the way, what a snapshot said of it
holds on. -/
structure Board.Passes (w w' : Board γ δ) : Prop where
  moves : w.mem.Moves w'.mem
  tracked : w.mem.ram.Tracked → w'.mem.ram.Tracked
  later : ∃ k : Nat, w'.mem.ram.stamps.lag = w.mem.ram.stamps.lag + 2 ^ 32 * k ∧
    (k = 0 → w.mem.ram.Tracked → w.mem.ram.Later w'.mem.ram)

namespace Board

variable {w w' w'' : Board γ δ}

theorem Passes.of_later (hmoves : w.mem.Moves w'.mem) (hlag : w'.mem.ram.stamps.lag = w.mem.ram.stamps.lag)
    (hlater : w.mem.ram.Later w'.mem.ram) : w.Passes w' :=
  ⟨hmoves, hlater.tracked, 0, by rw [hlag]; omega, fun _ _ => hlater⟩

theorem Passes.trans (h : w.Passes w') (h' : w'.Passes w'') : w.Passes w'' := by
  obtain ⟨k, hlag, hlater⟩ := h.later
  obtain ⟨k', hlag', hlater'⟩ := h'.later
  refine ⟨h.moves.trans h'.moves, fun ht => h'.tracked (h.tracked ht), k + k',
    by rw [hlag', hlag]; omega, fun hk ht => ?_⟩
  exact (hlater (by omega) ht).trans (hlater' (by omega) (h.tracked ht))

/-- The lag only grows. -/
theorem Passes.lag_le (h : w.Passes w') : w.mem.ram.stamps.lag ≤ w'.mem.ram.stamps.lag := by
  obtain ⟨k, hlag, -⟩ := h.later
  omega

/-- Where the lag is what it was, no stamp came round. -/
theorem Passes.still (h : w.Passes w') (ht : w.mem.ram.Tracked) (hlag : w'.mem.ram.stamps.lag = w.mem.ram.stamps.lag) :
    w.mem.ram.Later w'.mem.ram := by
  obtain ⟨k, hk, hlater⟩ := h.later
  exact hlater (by omega) ht

theorem passes_write (addr : UInt64) (src : List UInt8) (w : Board γ δ) : w.Passes (bus.write addr src w).2 := by
  have hmoves := w.mem.moves_write addr src
  have hram : (bus.write addr src w).2.mem.ram = (w.mem.ram.write addr src).2 := rfl
  unfold Ram.write at hram
  split at hram
  case isFalse => exact .of_later hmoves (by rw [hram]) (by rw [hram]; exact .refl _)
  case isTrue =>
    obtain ⟨k, hlag, hrise⟩ := w.mem.ram.stamps.lag_store addr src.length
    refine ⟨hmoves, fun ht => ?_, k, by rw [hram]; exact hlag, fun hk ht => ?_⟩
    · rw [hram]
      refine ⟨?_, ?_⟩
      · show (overwrite _ _ _).size = pageSize * (w.mem.ram.stamps.store addr src.length).pages.size
        rw [size_overwrite, StampTable.size_store, ht.size]
      · show (overwrite _ _ _).size < _
        rw [size_overwrite]
        exact ht.addressable
    · rw [hram]
      exact Ram.later_store ht addr src (hrise hk)

theorem Registered.passes (h : w.Registered w') : w.Passes w' := by
  refine .of_later ?_ h.lag h.later
  obtain ⟨t, ht⟩ := h.same
  rw [ht]
  exact ⟨Nat.le_refl _, rfl, fun _ => rfl⟩

theorem passes_quiet (h : w'.mem = w.mem) : w.Passes w' :=
  .of_later (by rw [h]; exact .refl _) (by rw [h]) (by rw [h]; exact .refl _)

/-- A mapping changes. -/
theorem passes_remapped {mem : MappedRam} (hram : mem.ram = w.mem.ram) (hremaps : w.mem.remaps + 1 ≤ mem.remaps) :
    w.Passes { w with mem } := by
  refine .of_later ⟨by dsimp only; omega, by rw [hram], fun h => absurd h (by dsimp only; omega)⟩ (by rw [hram]) ?_
  rw [hram]
  exact .refl _

theorem course_passes : Course (Passes : Board γ δ → Board γ δ → Prop) where
  trans := .trans
  moves := Passes.moves
  quiet := passes_quiet
  write := passes_write
  register p mask w := (registered_register w p mask).passes

end Board

/-! ## Regimes -/

/-- How boards go on throughout a history, and what holds all the while of a processor, of memory and of
every trace in a cache. -/
structure Regime (γ δ : Type) where
  course : Board γ δ → Board γ δ → Prop
  cpu : Cpu → Prop
  mem : MappedRam → Prop
  trace : Cpu → MappedRam → Trace → Prop
  isCourse : Board.Course course
  passes : ∀ {w w'}, course w w' → w.Passes w'
  stays : ∀ {w w'}, course w w' → mem w.mem → mem w'.mem
  orderly : ∀ {c}, cpu c → c.Orderly
  moves : ∀ {c c'}, cpu c → c.SameContext c' → (c'.rip = c.rip ∨ ∃ target, c'.rip = target &&& c.ipMask) → cpu c'
  goesOn : ∀ {c c' w w' t}, trace c w.mem t → c.SameContext c' → course w w' → trace c' w'.mem t
  refresh : ∀ {c m t t' stamps}, trace c m t → t.refresh stamps = some t' → trace c m t'
  fresh : ∀ {c} {w : Board γ δ} {guard : Guard (Board γ δ)} {d : TraceCache} {site : Site} {t}, cpu c → mem w.mem →
    site.rip = c.rip → site.mode = c.fetchMode → w.mem.fetchView c c.rip = .ok (site.addr, site.remaining) →
      d.All (trace c w.mem) → t.addr = site.addr → t.mode = site.mode →
        d.Fresh w site (Board.nextWindow guard c) t → trace c w.mem t
  /-- The trace does not leave the window that it is entered from. -/
  room : ∀ {c m t n}, cpu c → mem m → trace c m t → t.tail = none → m.fetchView c c.rip = .ok (t.addr, n) →
    t.byteLen ≤ n

theorem Regime.lag_le (R : Regime γ δ) {w w' : Board γ δ} (h : R.course w w') :
    w.mem.ram.stamps.lag ≤ w'.mem.ram.stamps.lag := (R.passes h).lag_le

/-- The delivery leaves the processor's context as it is, and sends it only where the regime admits. -/
structure Delivery.Tame {γ δ : Type} (delivery : Delivery (Board γ δ)) (R : Regime γ δ) : Prop where
  keeps : delivery.Keeps R.course
  events : ∀ i cpu w, R.cpu cpu →
    cpu.SameContext (delivery.events (Board.line i) cpu w).2.1 ∧ R.cpu (delivery.events (Board.line i) cpu w).2.1
  fault : ∀ fault rip cpu w, R.cpu cpu →
    cpu.SameContext (delivery.fault fault rip cpu w).2.1 ∧ R.cpu (delivery.fault fault rip cpu w).2.1

theorem Delivery.tame_toCaller {γ δ : Type} (R : Regime γ δ) : Delivery.toCaller.Tame R := by
  refine ⟨Delivery.keeps_toCaller R.isCourse, fun i cpu w h => ?_, fun fault rip cpu w h => ⟨.refl _, h⟩⟩
  have hsame : cpu.SameContext ((Delivery.toCaller : Delivery (Board γ δ)).events (Board.line i) cpu w).2.1 ∧
      ((Delivery.toCaller : Delivery (Board γ δ)).events (Board.line i) cpu w).2.1.rip = cpu.rip := by
    unfold Delivery.toCaller
    dsimp only
    split
    · exact ⟨⟨rfl, rfl, rfl, rfl, rfl⟩, rfl⟩
    · exact ⟨.refl _, rfl⟩
  exact ⟨hsame.1, R.moves h hsame.1 (Or.inl hsame.2)⟩

end TraceCore
