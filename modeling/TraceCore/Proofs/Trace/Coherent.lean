/-
The invariant of a trace cache beside memory that is written: as long as a trace is current, its
records are what memory holds at its address, and a live link leads to a current trace. It survives
every store, and the cache's own operations keep it.
-/
import TraceCore.Proofs.Trace.Decodes
import TraceCore.Trace.Linker

namespace TraceCore

/-! ## Configurations -/

/-- What the numbers of a configuration that is not refused keep to. -/
structure CoreConfig.Bounds (config : CoreConfig) : Prop where
  slots : 0 < config.traceSlots
  room : 0 < config.maxTraceLen
  room_le : config.maxTraceLen ≤ maxTraceLenLimit
  pool : config.maxTraceLen + 1 ≤ config.recordPool
  pool_lt : config.recordPool < UInt32.size
  interval : 0 < config.repeatInterval

theorem CoreConfig.bounds_of_validate {config : CoreConfig} (h : config.validate = .ok ()) : config.Bounds := by
  unfold validate at h
  split at h
  case isTrue => cases h
  case isFalse hslots =>
    split at h
    case isTrue => cases h
    case isFalse hroom =>
      split at h
      case isTrue => cases h
      case isFalse hpool =>
        split at h
        case isTrue => cases h
        case isFalse hinterval =>
          refine ⟨Nat.pos_of_ne_zero fun h0 => hslots ?_, by omega, by omega, by omega, by omega, by omega⟩
          rw [h0]
          rfl

/-! ## Traces -/

/-- First address of the snapshot's page. -/
def Snapshot.start (snap : Snapshot) : UInt64 := snap.page * 4096

namespace Trace

/-- None of the trace's bytes was written since it was decoded. -/
def Current (t : Trace) (ram : Ram) : Prop := ∀ snap ∈ t.coverage, ram.current snap

/-- A trace in one page. -/
structure Straight (t : Trace) (ram : Ram) (is : List Instr) : Prop where
  tail : t.tail = none
  guards : ram.Guards t.head t.addr t.byteLen
  decodes : t.Current ram → ram.Decodes t.mode t.addr is

/-- A trace of one instruction that goes on at the start of a second page. -/
structure Straddles (t : Trace) (ram : Ram) (i : Instr) (second : Snapshot) : Prop where
  tail : t.tail = some second
  crosses : toPageEnd t.addr < i.len
  guards : ram.Guards t.head t.addr (toPageEnd t.addr)
  guards' : ram.Guards second second.start (i.len - toPageEnd t.addr)
  decodes : t.Current ram →
    decodeInstr (ram.slice t.addr (toPageEnd t.addr) ++ ram.slice second.start maxInstrLen) t.mode = .complete i

/-- The records `is` of the trace are what memory holds, unless it was written since. -/
structure Holds (t : Trace) (ram : Ram) (is : List Instr) : Prop where
  bytes : t.byteLen = Ram.bytesOf is
  shape : t.Straight ram is ∨ ∃ i second, is = [i] ∧ t.Straddles ram i second

variable {t : Trace} {ram ram' : Ram} {is : List Instr}

theorem Current.head (h : t.Current ram) : ram.current t.head := h _ List.mem_cons_self

theorem current_of_straight (ht : t.tail = none) : t.Current ram ↔ ram.current t.head := by
  simp [Current, coverage, ht]

theorem current_of_straddles {second : Snapshot} (ht : t.tail = some second) :
    t.Current ram ↔ ram.current t.head ∧ ram.current second := by
  simp [Current, coverage, ht]

/-- A current trace stays so while the generation stands still. -/
theorem Current.later (h : t.Current ram) (hl : ram.Later ram')
    (hgen : ram'.stamps.generation = ram.stamps.generation) : t.Current ram' :=
  fun snap hs => hl.current hgen (h snap hs)

/-- Whatever is stored, a trace holds what memory holds or is not current. -/
theorem Holds.later (h : t.Holds ram is) (ht : ram.Tracked) (hl : ram.Later ram') : t.Holds ram' is := by
  obtain ⟨hbytes, hs | ⟨i, second, rfl, hs⟩⟩ := h
  · refine ⟨hbytes, Or.inl ⟨hs.tail, hs.guards.later hl, fun hc => ?_⟩⟩
    rw [current_of_straight hs.tail] at hc
    obtain ⟨hcur, hsame⟩ := hs.guards.unchanged hl hc
    refine (hs.decodes ((current_of_straight hs.tail).2 hcur)).congr ht.addressable ?_
    rw [← hbytes]
    exact hsame
  · refine ⟨hbytes, Or.inr ⟨i, second, rfl, hs.tail, hs.crosses, hs.guards.later hl, hs.guards'.later hl, fun hc => ?_⟩⟩
    rw [current_of_straddles hs.tail] at hc
    obtain ⟨hcur, hsame⟩ := hs.guards.unchanged hl hc.1
    obtain ⟨hcur', hsame'⟩ := hs.guards'.unchanged hl hc.2
    have hdec := hs.decodes ((current_of_straddles hs.tail).2 ⟨hcur, hcur'⟩)
    refine decodeInstr_congr hdec ?_
    obtain ⟨-, hmax, hle⟩ := len_of_decodeInstr hdec
    have hhead : ram'.slice t.addr (toPageEnd t.addr) = ram.slice t.addr (toPageEnd t.addr) :=
      Ram.slice_eq fun x hx => hsame _ (by omega) (by omega)
    simp only [hhead, List.take_append, Ram.take_slice]
    congr 1
    have hcross := hs.crosses
    have hin := hs.guards.inMemory ht
    refine Ram.slice_eq fun x hx => ?_
    rw [Ram.length_slice] at hx
    exact hsame' _ (by omega) (by omega)

/-- A refreshed trace is the same one under other stamps, and current. -/
theorem Holds.refresh {t' : Trace} (h : t.Holds ram is) (hr : t.refresh ram.stamps = some t') :
    t'.Holds ram is ∧ t'.Current ram ∧ t.Current ram ∧ t'.addr = t.addr ∧ t'.mode = t.mode ∧ t'.start = t.start ∧
      t'.len = t.len ∧ t'.byteLen = t.byteLen := by
  unfold Trace.refresh at hr
  cases hh : ram.stamps.check t.head with
  | none => rw [hh] at hr; cases hr
  | some headStamp =>
    rw [hh] at hr
    obtain ⟨hbytes, hs | ⟨i, second, rfl, hs⟩⟩ := h
    · rw [hs.tail] at hr
      cases hr
      obtain ⟨hg, hcur⟩ := hs.guards.adopt hh
      have hc : t.Current ram := (current_of_straight hs.tail).2 (by rw [Ram.current, hh]; rfl)
      refine ⟨⟨hbytes, Or.inl ⟨rfl, hg, fun _ => hs.decodes hc⟩⟩, ?_, hc, rfl, rfl, rfl, rfl, rfl⟩
      exact (current_of_straight rfl).2 hcur
    · rw [hs.tail] at hr
      cases ht : ram.stamps.check second with
      | none =>
        change (ram.stamps.check second >>= _) = _ at hr
        rw [ht] at hr; cases hr
      | some tailStamp =>
        change (ram.stamps.check second >>= _) = _ at hr
        rw [ht] at hr
        cases hr
        obtain ⟨hg, hcur⟩ := hs.guards.adopt hh
        obtain ⟨hg', hcur'⟩ := hs.guards'.adopt ht
        have hc : t.Current ram :=
          (current_of_straddles hs.tail).2 ⟨by rw [Ram.current, hh]; rfl, by rw [Ram.current, ht]; rfl⟩
        refine ⟨⟨hbytes, Or.inr ⟨i, { second with stamp := tailStamp }, rfl, rfl, hs.crosses, hg, hg',
          fun _ => hs.decodes hc⟩⟩, ?_, hc, rfl, rfl, rfl, rfl, rfl⟩
        exact (current_of_straddles rfl).2 ⟨hcur, hcur'⟩

/-- A current trace is refreshed. -/
theorem isSome_refresh (h : t.Current ram) : (t.refresh ram.stamps).isSome = true := by
  unfold refresh
  obtain ⟨headStamp, hh⟩ := Option.isSome_iff_exists.1 h.head
  rw [hh]
  cases ht : t.tail with
  | none => rfl
  | some second =>
    obtain ⟨tailStamp, hs⟩ := Option.isSome_iff_exists.1 (h second (by simp [coverage, ht]))
    change (ram.stamps.check second >>= _).isSome = true
    rw [hs]; rfl

/-- Refreshing changes stamps only. -/
theorem refresh_eq {t' : Trace} {stamps : StampTable} (h : t.refresh stamps = some t') :
    ∃ headStamp tailStamp, t' = { t with
      head := { t.head with stamp := headStamp }, tail := t.tail.map ({ · with stamp := tailStamp }) } := by
  unfold refresh at h
  cases hh : stamps.check t.head with
  | none => rw [hh] at h; cases h
  | some headStamp =>
    rw [hh] at h
    cases ht : t.tail with
    | none =>
      rw [ht] at h
      cases h
      exact ⟨headStamp, 0, rfl⟩
    | some second =>
      rw [ht] at h
      change (stamps.check second >>= _) = _ at h
      cases hs : stamps.check second with
      | none => rw [hs] at h; cases h
      | some tailStamp =>
        rw [hs] at h
        cases h
        exact ⟨headStamp, tailStamp, rfl⟩

end Trace

/-! ## Caches -/

namespace TraceCache

/-- The trace's records lie in the pool, and they are what memory holds. -/
structure Sound (c : TraceCache) (ram : Ram) (t : Trace) : Prop where
  inPool : t.start + t.len ≤ c.pool.size
  nonempty : 0 < t.len
  holds : t.Holds ram (c.instrs t)

/-- A link that no emptied slot and no store into cached code has killed leads to a current trace. -/
structure Leads (c : TraceCache) (ram : Ram) (l : Link) : Prop where
  epoch : l.epoch ≤ c.epoch
  generation : l.generation ≤ ram.stamps.generation
  live : l.epoch = c.epoch → l.generation = ram.stamps.generation →
    ∃ t, c.trace? l.slot = some t ∧ t.addr = l.addr ∧ t.Current ram

structure Coherent (c : TraceCache) (ram : Ram) : Prop where
  slots : 0 < c.slots.size
  room : 0 < c.maxTraceLen
  sound : ∀ slot t, c.trace? slot = some t → c.Sound ram t
  leads : ∀ (index : Nat) (r : Record) l, c.pool[index]? = some r → r.link = some l → c.Leads ram l

/-- Every trace of the cache has the property. -/
def All (c : TraceCache) (P : Trace → Prop) : Prop := ∀ slot t, c.trace? slot = some t → P t

variable {c : TraceCache} {ram ram' : Ram} {t : Trace} {slot : Nat} {addr : UInt64} {mode : FetchMode}

theorem Sound.later (h : c.Sound ram t) (ht : ram.Tracked) (hl : ram.Later ram') : c.Sound ram' t :=
  ⟨h.inPool, h.nonempty, h.holds.later ht hl⟩

/-- The invariant survives whatever is stored. -/
theorem Coherent.later (h : c.Coherent ram) (ht : ram.Tracked) (hl : ram.Later ram') : c.Coherent ram' := by
  refine ⟨h.slots, h.room, fun slot t hs => (h.sound slot t hs).later ht hl, fun index r l hr hlink => ?_⟩
  have hleads := h.leads index r l hr hlink
  refine ⟨hleads.epoch, le_trans hleads.generation hl.generation, fun he hg => ?_⟩
  have hgen : ram'.stamps.generation = ram.stamps.generation := by
    have := hl.generation
    have := hleads.generation
    omega
  obtain ⟨t, hs, haddr, hc⟩ := hleads.live he (by omega)
  exact ⟨t, hs, haddr, hc.later hl hgen⟩

/-- The invariant speaks of slots, records, room and epoch only. -/
theorem Coherent.congr {c' : TraceCache} (h : c.Coherent ram) (hslots : c'.slots = c.slots) (hpool : c'.pool = c.pool)
    (hroom : c'.maxTraceLen = c.maxTraceLen) (hepoch : c'.epoch = c.epoch) : c'.Coherent ram := by
  cases c
  cases c'
  cases hslots; cases hpool; cases hroom; cases hepoch
  refine ⟨h.slots, h.room, fun s t hs => ?_, fun i r l hr hlink => ?_⟩
  · have ht := h.sound s t hs
    exact ⟨ht.inPool, ht.nonempty, ht.holds⟩
  · have hl := h.leads i r l hr hlink
    exact ⟨hl.epoch, hl.generation, hl.live⟩

theorem Coherent.withStats (h : c.Coherent ram) (stats : CacheStats) : Coherent { c with stats } ram :=
  h.congr rfl rfl rfl rfl

/-! ## The operations -/

theorem slotOf_lt (c : TraceCache) (h : 0 < c.slots.size) (addr : UInt64) (mode : FetchMode) :
    c.slotOf addr mode < c.slots.size := by
  have hand : (c.slotOf addr mode) ≤ (UInt64.ofNat (c.slots.size - 1)).toNat := by
    unfold slotOf
    rw [UInt64.toNat_and]
    exact Nat.and_le_right
  have hmod : (UInt64.ofNat (c.slots.size - 1)).toNat ≤ c.slots.size - 1 := by
    rw [UInt64.toNat_ofNat']; exact Nat.mod_le ..
  omega

theorem trace?_put (c : TraceCache) (slot s : Nat) (o : Option Trace) (h : slot < c.slots.size) :
    trace? { c with slots := c.slots.setIfInBounds slot o } s = if slot = s then o else c.trace? s := by
  unfold trace?
  dsimp only
  rw [Array.getElem?_setIfInBounds]
  split
  case isTrue hs => subst hs; simp
  case isFalse => rfl

theorem length_instrs (h : t.start + t.len ≤ c.pool.size) : (c.instrs t).length = t.len := by
  unfold instrs
  rw [List.length_map, Array.length_toList, Array.size_extract]
  omega

/-- The instructions of a trace are those of its records. -/
theorem getElem?_instrs (h : t.start + t.len ≤ c.pool.size) {k : Nat} (hk : k < t.len) :
    ∃ record, c.pool[t.start + k]? = some record ∧ (c.instrs t)[k]? = some record.instr := by
  have hlt : t.start + k < c.pool.size := by omega
  refine ⟨c.pool[t.start + k], Array.getElem?_eq_getElem hlt, ?_⟩
  unfold instrs
  rw [List.getElem?_map, Array.getElem?_toList, Array.getElem?_extract, if_pos (by omega),
    Array.getElem?_eq_getElem hlt]
  rfl

/-- Records behind the last one do not change a trace. -/
theorem instrs_append (records : Array Record) (h : t.start + t.len ≤ c.pool.size) :
    instrs { c with pool := c.pool ++ records } t = c.instrs t := by
  unfold instrs
  dsimp only
  rw [Array.extract_append, Nat.sub_eq_zero_of_le h]
  simp

theorem instrs_setLink (c : TraceCache) (stamps : StampTable) (index slot : Nat) (addr : UInt64) (t : Trace) :
    (c.setLink stamps index slot addr).instrs t = c.instrs t := by
  apply List.ext_getElem?
  intro i
  simp only [instrs, setLink, List.getElem?_map, Array.getElem?_toList, Array.getElem?_extract,
    Array.size_modify, Array.getElem?_modify]
  split
  · split
    · cases c.pool[t.start + i]? <;> rfl
    · rfl
  · rfl

/-- A new cache has nothing to be wrong about. -/
theorem coherent_new {config : CoreConfig} (h : config.validate = .ok ()) (ram : Ram) : (new config).Coherent ram := by
  have hbounds := CoreConfig.bounds_of_validate h
  refine ⟨by simpa [new] using hbounds.slots, hbounds.room, fun slot t hs => ?_, fun index r l hr => ?_⟩
  · simp only [trace?, new, Array.getElem?_replicate] at hs
    split at hs <;> cases hs
  · simp [new] at hr

theorem trace?_flush (c : TraceCache) (s : Nat) : c.flush.trace? s = .none := by
  simp only [trace?, flush, Array.getElem?_replicate]
  split <;> rfl

theorem trace?_evict {s : Nat} (h : (c.evict slot).trace? s = some t) : c.trace? s = some t ∧ s ≠ slot := by
  unfold evict at h
  split at h
  case isTrue =>
    unfold trace? at h ⊢
    dsimp only at h
    rw [Array.getElem?_setIfInBounds] at h
    split at h
    case isTrue => split at h <;> cases h
    case isFalse hne => exact ⟨h, fun hs => hne hs.symm⟩
  case isFalse hempty =>
    refine ⟨h, fun hs => hempty ?_⟩
    rw [← hs, h]; rfl

@[simp] theorem size_slots_flush (c : TraceCache) : c.flush.slots.size = c.slots.size := by simp [flush]

@[simp] theorem size_slots_evict (c : TraceCache) (slot : Nat) : (c.evict slot).slots.size = c.slots.size := by
  unfold evict
  split <;> simp

@[simp] theorem maxTraceLen_evict (c : TraceCache) (slot : Nat) : (c.evict slot).maxTraceLen = c.maxTraceLen := by
  unfold evict
  split <;> rfl

theorem coherent_flush (h : c.Coherent ram) (ram' : Ram) : c.flush.Coherent ram' := by
  refine ⟨by simpa using h.slots, h.room, fun slot t hs => ?_, fun index r l hr => ?_⟩
  · rw [trace?_flush] at hs; cases hs
  · simp [flush] at hr

/-- Emptying a slot; links of the present epoch that lead there die with it. -/
theorem coherent_evict (h : c.Coherent ram) (slot : Nat) : (c.evict slot).Coherent ram := by
  have htraces : ∀ s t, (c.evict slot).trace? s = some t → c.trace? s = some t ∧ s ≠ slot := fun _ _ => trace?_evict
  unfold evict at htraces ⊢
  split
  case isFalse => exact h
  case isTrue hsome =>
    rw [if_pos hsome] at htraces
    refine ⟨by simpa using h.slots, h.room, fun s t hs => ?_, fun index r l hr hlink => ?_⟩
    · have hsound := h.sound s t (htraces s t hs).1
      exact ⟨hsound.inPool, hsound.nonempty, hsound.holds⟩
    · have hleads := h.leads index r l hr hlink
      refine ⟨Nat.le_succ_of_le hleads.epoch, hleads.generation, fun he => ?_⟩
      have := hleads.epoch
      dsimp only at he
      omega

/-- A trace is put into a slot that is empty, or that holds a trace of the same address. -/
theorem Coherent.put (h : c.Coherent ram) (hslot : slot < c.slots.size) (ht : c.Sound ram t)
    (hold : ∀ t', c.trace? slot = some t' → t'.addr = t.addr ∧ t.Current ram) :
    Coherent { c with slots := c.slots.setIfInBounds slot (some t) } ram := by
  refine ⟨by simpa using h.slots, h.room, fun s t' hs => ?_, fun index r l hr hlink => ?_⟩
  · rw [trace?_put c slot s _ hslot] at hs
    split at hs
    case isTrue => cases hs; exact ⟨ht.inPool, ht.nonempty, ht.holds⟩
    case isFalse => exact ⟨(h.sound s t' hs).inPool, (h.sound s t' hs).nonempty, (h.sound s t' hs).holds⟩
  · have hleads := h.leads index r l hr hlink
    refine ⟨hleads.epoch, hleads.generation, fun he hg => ?_⟩
    obtain ⟨t', hs, haddr, hc⟩ := hleads.live he hg
    by_cases hsame : slot = l.slot
    · subst hsame
      obtain ⟨haddr', hcur⟩ := hold t' hs
      exact ⟨t, by rw [trace?_put c _ _ _ hslot, if_pos rfl], haddr'.symm.trans haddr, hcur⟩
    · exact ⟨t', by rw [trace?_put c _ _ _ hslot, if_neg hsame]; exact hs, haddr, hc⟩

/-- New records without links. -/
theorem Coherent.grow (h : c.Coherent ram) (records : Array Record) (hlinks : ∀ r ∈ records, r.link = .none) :
    Coherent { c with pool := c.pool ++ records } ram := by
  refine ⟨h.slots, h.room, fun s t hs => ?_, fun index r l hr hlink => ?_⟩
  · have ht := h.sound s t hs
    refine ⟨?_, ht.nonempty, ?_⟩
    · have := ht.inPool
      simp only [Array.size_append]
      omega
    · rw [instrs_append records ht.inPool]; exact ht.holds
  · simp only [Array.getElem?_append] at hr
    split at hr
    case isTrue =>
      have hleads := h.leads index r l hr hlink
      exact ⟨hleads.epoch, hleads.generation, hleads.live⟩
    case isFalse =>
      rw [hlinks r (Array.mem_of_getElem? hr)] at hlink
      cases hlink

/-! ## Looking up -/

theorem find?_eq_some {t : Trace} (h : c.find? addr mode = some t) :
    c.trace? (c.slotOf addr mode) = some t ∧ t.addr = addr ∧ t.mode = mode := by
  unfold find? at h
  obtain ⟨hs, hat⟩ := Option.filter_eq_some_iff.1 h
  rw [Trace.isAt, Bool.and_eq_true, beq_iff_eq, beq_iff_eq] at hat
  exact ⟨hs, hat.1, hat.2⟩

theorem find?_of_trace? {t : Trace} (h : c.trace? (c.slotOf addr mode) = some t) (haddr : t.addr = addr)
    (hmode : t.mode = mode) : c.find? addr mode = some t := by
  unfold find?
  rw [h]
  refine Option.filter_eq_some_iff.2 ⟨rfl, ?_⟩
  rw [Trace.isAt, haddr, hmode]
  simp

theorem lookup_eq (c : TraceCache) (stamps : StampTable) (addr : UInt64) (mode : FetchMode) :
    c.lookup stamps addr mode =
      let c₁ : TraceCache := { c with stats.lookups := c.stats.lookups + 1 }
      match c.find? addr mode with
      | .none => (.none, c₁)
      | some t =>
        match t.refresh stamps with
        | .none => (.none, { c₁ with stats.stale := c₁.stats.stale + 1 }.evict (c.slotOf addr mode))
        | some t => (some (c.slotOf addr mode), { c₁ with
            slots := c₁.slots.setIfInBounds (c.slotOf addr mode) (some t)
            stats.hits := c₁.stats.hits + 1 }) := rfl

/-- What a look-up does: traces may take over the present stamps or go, and the one that it gives
is current. -/
structure LookedUp (c : TraceCache) (ram : Ram) (addr : UInt64) (mode : FetchMode) (r : Option Nat)
    (c' : TraceCache) : Prop where
  coherent : c'.Coherent ram
  pool : c'.pool = c.pool
  size : c'.slots.size = c.slots.size
  traces : ∀ s t, c'.trace? s = some t → ∃ t₀, c.trace? s = some t₀ ∧ (t = t₀ ∨ t₀.refresh ram.stamps = some t)
  found : ∀ slot, r = some slot → slot = c.slotOf addr mode ∧
    ∃ t, c'.trace? slot = some t ∧ t.addr = addr ∧ t.mode = mode ∧ t.Current ram
  missed : r = .none → ∀ t, c.trace? (c.slotOf addr mode) = some t → t.addr = addr → t.mode = mode → ¬ t.Current ram

theorem lookedUp_lookup (h : c.Coherent ram) (addr : UInt64) (mode : FetchMode) :
    c.LookedUp ram addr mode (c.lookup ram.stamps addr mode).1 (c.lookup ram.stamps addr mode).2 := by
  let c₁ : TraceCache := { c with stats.lookups := c.stats.lookups + 1 }
  have h₁ : c₁.Coherent ram := h.withStats _
  have hslot := c.slotOf_lt h.slots addr mode
  rw [lookup_eq]
  cases hfind : c.find? addr mode with
  | none =>
    refine ⟨h₁, rfl, rfl, fun s t hs => ⟨t, hs, Or.inl rfl⟩, nofun, fun _ t hs haddr hmode => ?_⟩
    rw [find?_of_trace? hs haddr hmode] at hfind; cases hfind
  | some t =>
    obtain ⟨htrace, haddr, hmode⟩ := find?_eq_some hfind
    dsimp only
    cases hrefresh : t.refresh ram.stamps with
    | none =>
      let c₂ : TraceCache := { c₁ with stats.stale := c₁.stats.stale + 1 }
      have h₂ : c₂.Coherent ram := h₁.withStats _
      have hsome : (c₂.trace? (c.slotOf addr mode)).isSome = true := by
        show (c.trace? _).isSome = true
        rw [htrace]; rfl
      have hevict : c₂.evict (c.slotOf addr mode) =
          { c₂ with slots := c₂.slots.setIfInBounds (c.slotOf addr mode) .none, epoch := c₂.epoch + 1 } := by
        unfold evict; rw [if_pos hsome]
      refine ⟨coherent_evict h₂ _, by rw [hevict], by rw [hevict]; exact Array.size_setIfInBounds, fun s t' hs => ?_,
        nofun, fun _ t' hs _ _ hcur => ?_⟩
      · rw [hevict] at hs
        have hs : trace? { c with slots := c.slots.setIfInBounds (c.slotOf addr mode) .none } s = some t' := hs
        rw [trace?_put c _ s .none hslot] at hs
        split at hs
        case isTrue => cases hs
        case isFalse => exact ⟨t', hs, Or.inl rfl⟩
      · rw [htrace] at hs
        cases hs
        have := Trace.isSome_refresh hcur
        rw [hrefresh] at this; cases this
    | some t' =>
      have hsound := h.sound _ t htrace
      obtain ⟨hholds, hcur, -, haddr', hmode', hstart, hlen, -⟩ := hsound.holds.refresh hrefresh
      have hinstrs : c.instrs t' = c.instrs t := by unfold instrs; rw [hstart, hlen]
      have hsound' : c.Sound ram t' :=
        ⟨by rw [hstart, hlen]; exact hsound.inPool, by rw [hlen]; exact hsound.nonempty, by rw [hinstrs]; exact hholds⟩
      have hput := h.put hslot hsound' (fun t₀ ht₀ => by
        rw [htrace] at ht₀; cases ht₀
        exact ⟨haddr'.symm, hcur⟩)
      refine ⟨hput.withStats _, rfl, Array.size_setIfInBounds, fun s t₁ hs => ?_,
        fun slot hslot' => ?_, nofun⟩
      · have hs : trace? { c with slots := c.slots.setIfInBounds (c.slotOf addr mode) (some t') } s = some t₁ := hs
        rw [trace?_put c _ s _ hslot] at hs
        split at hs
        case isTrue hsame =>
          cases hs
          subst hsame
          exact ⟨t, htrace, Or.inr hrefresh⟩
        case isFalse => exact ⟨t₁, hs, Or.inl rfl⟩
      · cases hslot'
        refine ⟨rfl, t', ?_, haddr'.trans haddr, hmode'.trans hmode, hcur⟩
        show trace? { c with slots := c.slots.setIfInBounds (c.slotOf addr mode) (some t') } _ = _
        rw [trace?_put c _ _ _ hslot, if_pos rfl]

/-- A current trace in its slot is found there. -/
theorem lookup_of_current (h : c.trace? (c.slotOf addr mode) = some t) (haddr : t.addr = addr) (hmode : t.mode = mode)
    (hcur : t.Current ram) : (c.lookup ram.stamps addr mode).1 = some (c.slotOf addr mode) := by
  obtain ⟨t', ht'⟩ := Option.isSome_iff_exists.1 (Trace.isSome_refresh hcur)
  rw [lookup_eq, find?_of_trace? h haddr hmode]
  dsimp only
  rw [ht']

/-! ## Links -/

/-- A link after a new one was set is an old one or that. -/
theorem link_setLink {stamps : StampTable} {index slot i : Nat} {r : Record} {l : Link}
    (hr : (c.setLink stamps index slot addr).pool[i]? = some r) (hlink : r.link = some l) :
    (∃ r₀, c.pool[i]? = some r₀ ∧ r₀.link = some l) ∨
      l = { slot, addr, epoch := c.epoch, generation := stamps.generation } := by
  simp only [setLink, Array.getElem?_modify] at hr
  split at hr
  case isFalse => exact Or.inl ⟨r, hr, hlink⟩
  case isTrue =>
    obtain ⟨r₀, -, rfl⟩ := Option.map_eq_some_iff.1 hr
    exact Or.inr (Option.some.inj hlink).symm

/-- A link to a current trace at its address. -/
theorem coherent_setLink (h : c.Coherent ram) (index : Nat) (hslot : c.trace? slot = some t) (haddr : t.addr = addr)
    (hcur : t.Current ram) : (c.setLink ram.stamps index slot addr).Coherent ram := by
  refine ⟨h.slots, h.room, fun s t hs => ?_, fun i r l hr hlink => ?_⟩
  · have hsound := h.sound s t hs
    refine ⟨by simpa [setLink] using hsound.inPool, hsound.nonempty, ?_⟩
    rw [instrs_setLink]; exact hsound.holds
  · rcases link_setLink hr hlink with ⟨r₀, hr₀, hlink₀⟩ | rfl
    · have hleads := h.leads i r₀ l hr₀ hlink₀
      exact ⟨hleads.epoch, hleads.generation, hleads.live⟩
    · exact ⟨le_refl _, le_refl _, fun _ _ => ⟨t, hslot, haddr, hcur⟩⟩

/-- A link that is followed is live, and its slot holds a trace with the address and the mode. -/
theorem exists_of_linked {stamps : StampTable} {index : Nat} (hl : c.linked stamps index addr mode = some slot) :
    ∃ r l t, c.pool[index]? = some r ∧ r.link = some l ∧ l.epoch = c.epoch ∧ l.generation = stamps.generation ∧
      l.slot = slot ∧ c.trace? slot = some t ∧ t.addr = addr ∧ t.mode = mode := by
  unfold linked at hl
  simp only [Option.bind_eq_bind, Option.bind_eq_some_iff] at hl
  obtain ⟨r, hr, l, hlink, hl⟩ := hl
  split at hl
  case isFalse => cases hl
  case isTrue hlive =>
    obtain ⟨t, ht, hl⟩ := Option.bind_eq_some_iff.1 hl
    split at hl
    case isFalse => cases hl
    case isTrue hat =>
      cases hl
      rw [Trace.isAt, Bool.and_eq_true, beq_iff_eq, beq_iff_eq] at hat
      exact ⟨r, l, t, hr, hlink, hlive.1, hlive.2.1, rfl, ht, hat.1, hat.2⟩

/-- A link is followed to a current trace of its address and mode. -/
theorem linked_eq_some (h : c.Coherent ram) {index : Nat} (hl : c.linked ram.stamps index addr mode = some slot) :
    ∃ t, c.trace? slot = some t ∧ t.addr = addr ∧ t.mode = mode ∧ t.Current ram := by
  obtain ⟨r, l, t, hr, hlink, hepoch, hgen, rfl, ht, haddr, hmode⟩ := exists_of_linked hl
  obtain ⟨t', ht', -, hcur⟩ := (h.leads index r l hr hlink).live hepoch hgen
  obtain rfl : t = t' := Option.some.inj (ht.symm.trans ht')
  exact ⟨t, ht, haddr, hmode, hcur⟩

/-- What a linker can do at a branch: where control goes on, and what becomes of the cache. -/
inductive Chains (c : TraceCache) (stamps : StampTable) (index : Nat) (addr : UInt64) (mode : FetchMode)
    (mayFollow : Bool) : Option Nat → TraceCache → Prop
  | stays : c.Chains stamps index addr mode mayFollow .none c
  | follows {slot : Nat} (stats : CacheStats) : mayFollow = true → c.linked stamps index addr mode = some slot →
      c.Chains stamps index addr mode mayFollow (some slot) { c with stats }
  | misses : c.Chains stamps index addr mode mayFollow .none (c.lookup stamps addr mode).2
  | links {slot : Nat} (stats : CacheStats) : mayFollow = true → (c.lookup stamps addr mode).1 = some slot →
      c.Chains stamps index addr mode mayFollow (some slot)
        { (c.lookup stamps addr mode).2.setLink stamps index slot addr with stats }

theorem chains_chain (l : Linker) (c : TraceCache) (stamps : StampTable) (index : Nat) (addr : UInt64)
    (mode : FetchMode) (mayFollow : Bool) :
    c.Chains stamps index addr mode mayFollow (l.chain c stamps index addr mode mayFollow).1
      (l.chain c stamps index addr mode mayFollow).2.2 := by
  unfold Linker.chain
  dsimp only
  split
  case isTrue => exact .stays
  case isFalse =>
    split
    case isTrue => exact .stays
    case isFalse hfollow =>
      have hmay : mayFollow = true := by
        simp only [Bool.or_eq_true, Bool.not_eq_true', decide_eq_true_eq, not_or, Bool.not_eq_false] at hfollow
        exact hfollow.1
      cases hlinked : c.linked stamps index addr mode with
      | some slot => exact .follows _ hmay hlinked
      | none =>
        have hmisses : c.Chains stamps index addr mode mayFollow .none (c.lookup stamps addr mode).2 := .misses
        have hlinks : ∀ slot stats, (c.lookup stamps addr mode).1 = some slot →
            c.Chains stamps index addr mode mayFollow (some slot)
              { (c.lookup stamps addr mode).2.setLink stamps index slot addr with stats } :=
          fun slot stats => .links stats hmay
        dsimp only
        generalize c.lookup stamps addr mode = out at hmisses hlinks ⊢
        obtain ⟨r, d⟩ := out
        cases r with
        | none => exact hmisses
        | some slot => exact hlinks slot _ rfl

/-- What comes of a taken branch: the cache stays true, and where the linker goes on there is a current
trace of the address and mode. -/
structure Chained (c : TraceCache) (ram : Ram) (addr : UInt64) (mode : FetchMode) (r : Option Nat) (c' : TraceCache) :
    Prop where
  coherent : c'.Coherent ram
  traces : ∀ s t, c'.trace? s = some t → ∃ t₀, c.trace? s = some t₀ ∧ (t = t₀ ∨ t₀.refresh ram.stamps = some t)
  found : ∀ slot, r = some slot → ∃ t, c'.trace? slot = some t ∧ t.addr = addr ∧ t.mode = mode ∧ t.Current ram

theorem chained_chain (h : c.Coherent ram) (l : Linker) (index : Nat) (addr : UInt64) (mode : FetchMode)
    (mayFollow : Bool) : c.Chained ram addr mode (l.chain c ram.stamps index addr mode mayFollow).1
      (l.chain c ram.stamps index addr mode mayFollow).2.2 := by
  have hstay : ∀ s t, c.trace? s = some t → ∃ t₀, c.trace? s = some t₀ ∧ (t = t₀ ∨ t₀.refresh ram.stamps = some t) :=
    fun s t hs => ⟨t, hs, Or.inl rfl⟩
  have hlook := lookedUp_lookup h addr mode
  suffices hall : ∀ r c', c.Chains ram.stamps index addr mode mayFollow r c' → c.Chained ram addr mode r c' from
    hall _ _ (chains_chain ..)
  intro r c' hchains
  cases hchains with
  | stays => exact ⟨h, hstay, fun s hs => by cases hs⟩
  | follows stats _ hlinked =>
    obtain ⟨t, ht, haddr, hmode, hcur⟩ := linked_eq_some h hlinked
    refine ⟨h.withStats stats, hstay, fun s hs => ?_⟩
    cases hs
    exact ⟨t, ht, haddr, hmode, hcur⟩
  | misses => exact ⟨hlook.coherent, hlook.traces, fun s hs => by cases hs⟩
  | links stats _ hfound =>
    obtain ⟨-, t, ht, haddr, hmode, hcur⟩ := hlook.found _ hfound
    refine ⟨(coherent_setLink hlook.coherent index ht haddr hcur).withStats stats, hlook.traces, fun s hs => ?_⟩
    cases hs
    exact ⟨t, ht, haddr, hmode, hcur⟩

end TraceCache

end TraceCore
