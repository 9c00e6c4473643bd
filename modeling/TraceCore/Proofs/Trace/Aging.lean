/-
What looking up and making room leave of the traces of a cache. A trace may take over the present stamps of its pages, or
it goes, and when one goes the epoch moves: while the epoch stands still, every slot keeps what it held.
-/
import TraceCore.Proofs.Trace.Build

namespace TraceCore

/-! ## Taking over stamps -/

/-- A snapshot that took over the present stamp passes the check with it. -/
theorem StampTable.check_present {t : StampTable} {snap : Snapshot} {stamp : UInt32} (h : t.check snap = some stamp) :
    t.check { snap with stamp } = some stamp := by
  unfold check at h ⊢
  dsimp only
  cases hpage : t.page? snap.page with
  | none => rfl
  | some s =>
    rw [hpage] at h
    dsimp only at h ⊢
    split at h
    case isTrue =>
      cases h
      rw [if_pos (by simp [PageState.current])]
    case isFalse => cases h

namespace Trace

variable {t t' t'' : Trace} {stamps : StampTable}

theorem refresh_refresh (h : t.refresh stamps = some t') : t'.refresh stamps = some t' := by
  unfold refresh at h ⊢
  cases hh : stamps.check t.head with
  | none => rw [hh] at h; cases h
  | some headStamp =>
    rw [hh] at h
    have hhead := StampTable.check_present hh
    cases ht : t.tail with
    | none =>
      rw [ht] at h
      cases h
      dsimp only
      rw [hhead]
      rfl
    | some second =>
      rw [ht] at h
      change (stamps.check second >>= _) = _ at h
      cases hs : stamps.check second with
      | none => rw [hs] at h; cases h
      | some tailStamp =>
        rw [hs] at h
        cases h
        have htail := StampTable.check_present hs
        dsimp only
        rw [hhead]
        change (stamps.check { second with stamp := tailStamp } >>= _) = _
        rw [htail]
        rfl

/-- The trace, or the same with the present stamps of its pages. -/
def Restamped (t : Trace) (stamps : StampTable) (t' : Trace) : Prop := t' = t ∨ t.refresh stamps = some t'

theorem Restamped.refl (t : Trace) (stamps : StampTable) : t.Restamped stamps t := Or.inl rfl

theorem Restamped.trans (h : t.Restamped stamps t') (h' : t'.Restamped stamps t'') : t.Restamped stamps t'' := by
  rcases h with rfl | h
  · exact h'
  · rcases h' with rfl | h'
    · exact Or.inr h
    · rw [refresh_refresh h] at h'
      cases h'
      exact Or.inr h

theorem Restamped.addr (h : t.Restamped stamps t') : t'.addr = t.addr := by
  rcases h with rfl | h
  · rfl
  · obtain ⟨headStamp, tailStamp, rfl⟩ := refresh_eq h
    rfl

theorem Restamped.mode (h : t.Restamped stamps t') : t'.mode = t.mode := by
  rcases h with rfl | h
  · rfl
  · obtain ⟨headStamp, tailStamp, rfl⟩ := refresh_eq h
    rfl

theorem Restamped.start (h : t.Restamped stamps t') : t'.start = t.start := by
  rcases h with rfl | h
  · rfl
  · obtain ⟨headStamp, tailStamp, rfl⟩ := refresh_eq h
    rfl

theorem Restamped.len (h : t.Restamped stamps t') : t'.len = t.len := by
  rcases h with rfl | h
  · rfl
  · obtain ⟨headStamp, tailStamp, rfl⟩ := refresh_eq h
    rfl

/-- It passes the check as before. -/
theorem Restamped.isSome_refresh (h : t.Restamped stamps t') (hpass : (t.refresh stamps).isSome = true) :
    (t'.refresh stamps).isSome = true := by
  rcases h with rfl | h
  · exact hpass
  · rw [refresh_refresh h]
    rfl

end Trace

/-! ## Losing traces -/

namespace TraceCache

variable {ω : Type} {c c' c'' : TraceCache} {stamps : StampTable} {slot : Nat}

theorem trace?_evict_eq (c : TraceCache) (slot s : Nat) :
    (c.evict slot).trace? s = if s = slot then .none else c.trace? s := by
  cases hs : (c.evict slot).trace? s with
  | some t =>
    obtain ⟨ht, hne⟩ := trace?_evict hs
    rw [if_neg hne, ht]
  | none =>
    split
    case isTrue => rfl
    case isFalse hne =>
      rw [← hs]
      unfold evict
      split
      case isTrue =>
        unfold trace?
        dsimp only
        rw [Array.getElem?_setIfInBounds_ne (Ne.symm hne)]
      case isFalse => rfl

theorem lt_of_trace? {t : Trace} (h : c.trace? slot = some t) : slot < c.slots.size := by
  by_contra hge
  unfold trace? at h
  rw [Array.getElem?_eq_none (Nat.le_of_not_lt hge)] at h
  cases h

/-- A cache that looked up traces under these stamps and lost some. It built none. -/
structure Aged (stamps : StampTable) (c c' : TraceCache) : Prop where
  size : c'.slots.size = c.slots.size
  room : c'.maxTraceLen = c.maxTraceLen
  capacity : c'.capacity = c.capacity
  pool : c'.pool = c.pool ∨ c'.pool = #[] ∧ ∀ s, c'.trace? s = .none
  traces : ∀ s t', c'.trace? s = some t' → ∃ t, c.trace? s = some t ∧ t.Restamped stamps t'
  epoch : c.epoch ≤ c'.epoch
  /-- While the epoch stands still, no slot is emptied. -/
  kept : c'.epoch = c.epoch → ∀ s t, c.trace? s = some t → ∃ t', c'.trace? s = some t' ∧ t.Restamped stamps t'

namespace Aged

theorem withStats (stamps : StampTable) (c : TraceCache) (stats : CacheStats) : Aged stamps c { c with stats } :=
  ⟨rfl, rfl, rfl, Or.inl rfl, fun _ t hs => ⟨t, hs, .refl t stamps⟩, Nat.le_refl _,
    fun _ _ t hs => ⟨t, hs, .refl t stamps⟩⟩

theorem trans (h : Aged stamps c c') (h' : Aged stamps c' c'') : Aged stamps c c'' := by
  refine ⟨h'.size.trans h.size, h'.room.trans h.room, h'.capacity.trans h.capacity, ?_, fun s t'' hs => ?_,
    Nat.le_trans h.epoch h'.epoch, fun he s t hs => ?_⟩
  · rcases h'.pool with hpool | hempty
    · rcases h.pool with hpool' | ⟨hpool', hnone⟩
      · exact Or.inl (hpool.trans hpool')
      · refine Or.inr ⟨hpool.trans hpool', fun s => ?_⟩
        cases hs : c''.trace? s with
        | none => rfl
        | some t'' =>
          obtain ⟨t', ht', -⟩ := h'.traces s t'' hs
          rw [hnone] at ht'
          cases ht'
    · exact Or.inr hempty
  · obtain ⟨t', ht', hsame'⟩ := h'.traces s t'' hs
    obtain ⟨t, ht, hsame⟩ := h.traces s t' ht'
    exact ⟨t, ht, hsame.trans hsame'⟩
  · have hle := h.epoch
    have hle' := h'.epoch
    obtain ⟨t', ht', hsame⟩ := h.kept (by omega) s t hs
    obtain ⟨t'', ht'', hsame'⟩ := h'.kept (by omega) s t' ht'
    exact ⟨t'', ht'', hsame.trans hsame'⟩

theorem evict (stamps : StampTable) (c : TraceCache) (slot : Nat) : Aged stamps c (c.evict slot) := by
  have htraces : ∀ s t', (c.evict slot).trace? s = some t' → ∃ t, c.trace? s = some t ∧ t.Restamped stamps t' :=
    fun s t' hs => ⟨t', (trace?_evict hs).1, .refl t' stamps⟩
  unfold TraceCache.evict at htraces ⊢
  split
  case isTrue hsome =>
    rw [if_pos hsome] at htraces
    exact ⟨Array.size_setIfInBounds, rfl, rfl, Or.inl rfl, htraces, Nat.le_succ _, fun he => by simp at he⟩
  case isFalse => exact withStats stamps c c.stats

theorem flush (stamps : StampTable) (c : TraceCache) : Aged stamps c c.flush := by
  refine ⟨size_slots_flush c, rfl, rfl, Or.inr ⟨rfl, trace?_flush c⟩, fun s t' hs => ?_, Nat.le_succ _, fun he => ?_⟩
  · rw [trace?_flush] at hs
    cases hs
  · simp [TraceCache.flush] at he

theorem lookup (stamps : StampTable) (c : TraceCache) (addr : UInt64) (mode : FetchMode) :
    Aged stamps c (c.lookup stamps addr mode).2 := by
  rw [lookup_eq]
  cases hfind : c.find? addr mode with
  | none => exact withStats ..
  | some t =>
    obtain ⟨hs, -, -⟩ := find?_eq_some hfind
    dsimp only
    cases hrefresh : t.refresh stamps with
    | none => exact (withStats ..).trans (evict ..)
    | some t' =>
      have hput : ∀ s, trace? { c with slots := c.slots.setIfInBounds (c.slotOf addr mode) (some t') } s =
          if c.slotOf addr mode = s then some t' else c.trace? s := fun s => trace?_put c _ s _ (lt_of_trace? hs)
      refine ⟨Array.size_setIfInBounds, rfl, rfl, Or.inl rfl, fun s t₁ hs₁ => ?_, Nat.le_refl _, fun _ s t₁ hs₁ => ?_⟩
      · have hs₁ := (hput s).symm.trans hs₁
        split at hs₁
        case isTrue heq =>
          cases hs₁
          exact ⟨t, heq ▸ hs, Or.inr hrefresh⟩
        case isFalse => exact ⟨t₁, hs₁, .refl t₁ stamps⟩
      · by_cases heq : c.slotOf addr mode = s
        · rw [← heq, hs] at hs₁
          cases hs₁
          exact ⟨t', (hput s).trans (if_pos heq), Or.inr hrefresh⟩
        · exact ⟨t₁, ((hput s).trans (if_neg heq)).trans hs₁, .refl t₁ stamps⟩

theorem makeRoom (stamps : StampTable) (c : TraceCache) (site : Site) : Aged stamps c (c.makeRoom site) := by
  unfold TraceCache.makeRoom
  dsimp only
  split
  · exact ((withStats ..).trans (flush ..)).trans (evict ..)
  · exact (withStats ..).trans (evict ..)

theorem slotOf (h : Aged stamps c c') (addr : UInt64) (mode : FetchMode) : c'.slotOf addr mode = c.slotOf addr mode := by
  unfold TraceCache.slotOf
  rw [h.size]

/-- Where a slot was emptied, the epoch moved. -/
theorem epoch_lt (h : Aged stamps c c') {s : Nat} (hheld : (c.trace? s).isSome = true) (hempty : c'.trace? s = .none) :
    c.epoch < c'.epoch := by
  obtain ⟨t, ht⟩ := Option.isSome_iff_exists.1 hheld
  refine Nat.lt_of_le_of_ne h.epoch fun he => ?_
  obtain ⟨t', ht', -⟩ := h.kept he.symm s t ht
  rw [hempty] at ht'
  cases ht'

end Aged

/-- Room is made by dropping everything, if another trace might not fit, and else by emptying the one slot. -/
theorem makeRoom_full (site : Site) (h : c.capacity < c.pool.size + c.maxTraceLen + 1) :
    (c.makeRoom site).pool = #[] ∧ ∀ s, (c.makeRoom site).trace? s = .none := by
  unfold makeRoom
  dsimp only
  rw [if_pos h]
  refine ⟨?_, fun s => ?_⟩
  · unfold evict
    split <;> rfl
  · rw [trace?_evict_eq, trace?_flush, ite_self]

theorem makeRoom_fits (site : Site) (h : ¬ c.capacity < c.pool.size + c.maxTraceLen + 1) :
    (c.makeRoom site).pool = c.pool ∧
      ∀ s, s ≠ c.slotOf site.addr site.mode → (c.makeRoom site).trace? s = c.trace? s := by
  unfold makeRoom
  dsimp only
  rw [if_neg h]
  refine ⟨?_, fun s hs => ?_⟩
  · unfold evict
    split <;> rfl
  · rw [trace?_evict_eq]
    exact if_neg hs

theorem trace?_makeRoom_self (c : TraceCache) (site : Site) :
    (c.makeRoom site).trace? (c.slotOf site.addr site.mode) = .none := by
  unfold makeRoom
  exact (trace?_evict_eq ..).trans (if_pos rfl)

/-- A look-up that finds nothing touches nothing but the one slot. -/
theorem lookup_of_none {addr : UInt64} {mode : FetchMode} (h : (c.lookup stamps addr mode).1 = .none) :
    (c.lookup stamps addr mode).2.pool = c.pool ∧
      ∀ s, s ≠ c.slotOf addr mode → (c.lookup stamps addr mode).2.trace? s = c.trace? s := by
  rw [lookup_eq] at h ⊢
  cases hfind : c.find? addr mode with
  | none => exact ⟨rfl, fun _ _ => rfl⟩
  | some t =>
    rw [hfind] at h
    dsimp only at h ⊢
    cases hrefresh : t.refresh stamps with
    | some t' => rw [hrefresh] at h; cases h
    | none =>
      dsimp only
      refine ⟨?_, fun s hs => ?_⟩
      · unfold evict
        split <;> rfl
      · rw [trace?_evict_eq]
        exact if_neg hs

/-- The slot that a look-up gives is that of the key, and it holds a trace with the key that passes the check. -/
theorem found_of_lookup (c : TraceCache) (stamps : StampTable) (addr : UInt64) (mode : FetchMode) :
    ∀ slot, (c.lookup stamps addr mode).1 = some slot → slot = c.slotOf addr mode ∧
      ∃ t, (c.lookup stamps addr mode).2.trace? slot = some t ∧ t.addr = addr ∧ t.mode = mode ∧
        (t.refresh stamps).isSome = true := by
  intro slot hl
  rw [lookup_eq] at hl ⊢
  cases hfind : c.find? addr mode with
  | none => rw [hfind] at hl; cases hl
  | some t =>
    obtain ⟨hs, haddr, hmode⟩ := find?_eq_some hfind
    rw [hfind] at hl
    dsimp only at hl ⊢
    cases hrefresh : t.refresh stamps with
    | none => rw [hrefresh] at hl; cases hl
    | some t' =>
      rw [hrefresh] at hl
      cases hl
      have hstamped : t.Restamped stamps t' := Or.inr hrefresh
      refine ⟨rfl, t', ?_, hstamped.addr.trans haddr, hstamped.mode.trans hmode,
        hstamped.isSome_refresh (by rw [hrefresh]; rfl)⟩
      exact (trace?_put c _ _ _ (lt_of_trace? hs)).trans (if_pos rfl)

end TraceCache

end TraceCore
