/-
A request for a trace that fails leaves nothing of it behind. Room was made in the cache, as for any other trace, and the
next window was perhaps asked for; no record was added, no code registered, and no other trace touched.
-/
import TraceCore.Proofs.Trace.Straight

namespace TraceCore.TraceCache

variable {ω : Type} {c : TraceCache} {stamps : StampTable}

/-- What a request for the trace at a site leaves behind when it fails. -/
structure Unbuilt (bus : Bus ω) (site : Site) (next : UInt64 → ω → Except Fault FetchWindow × ω) (c : TraceCache)
    (w : ω) (c' : TraceCache) (w' : ω) : Prop where
  absent : c'.find? site.addr site.mode = .none
  /-- Everything was dropped, if another trace might not have fitted. -/
  full : c.capacity < c.pool.size + c.maxTraceLen + 1 → c'.pool = #[] ∧ ∀ s, c'.trace? s = .none
  fits : ¬ c.capacity < c.pool.size + c.maxTraceLen + 1 → c'.pool = c.pool ∧
    ∀ s, s ≠ c.slotOf site.addr site.mode → c'.trace? s = c.trace? s
  emptied : ∀ s, (c.trace? s).isSome = true → c'.trace? s = .none → c.epoch < c'.epoch
  /-- No code was registered. The world changed only if the next window was asked for, and then as that changed it. -/
  world : w' = w ∨ ∃ rip, w' = (next rip w).2
  stamps : (∀ rip v, bus.stamps (next rip v).2 = bus.stamps v) → bus.stamps w' = bus.stamps w

theorem unbuilt_ensure {bus : Bus ω} {decode : Decoder} {site : Site}
    {next : UInt64 → ω → Except Fault FetchWindow × ω} {w : ω} {f : Fault}
    (h : (c.ensure bus decode site next w).1 = .error f) :
    Unbuilt bus site next c w (c.ensure bus decode site next w).2.1 (c.ensure bus decode site next w).2.2 := by
  have hlook := Aged.lookup (bus.stamps w) c site.addr site.mode
  have hmissed : (c.lookup (bus.stamps w) site.addr site.mode).1 = .none →
      (c.lookup (bus.stamps w) site.addr site.mode).2.pool = c.pool ∧ ∀ s, s ≠ c.slotOf site.addr site.mode →
        (c.lookup (bus.stamps w) site.addr site.mode).2.trace? s = c.trace? s := lookup_of_none
  unfold ensure at h ⊢
  generalize c.lookup (bus.stamps w) site.addr site.mode = out at h hlook hmissed ⊢
  obtain ⟨r, d⟩ := out
  cases r with
  | some slot => cases h
  | none =>
    dsimp only at h hlook hmissed ⊢
    obtain ⟨hpool, hothers⟩ := hmissed rfl
    have haged := hlook.trans (.makeRoom (bus.stamps w) d site)
    have hslot := hlook.slotOf site.addr site.mode
    rcases build_cases bus decode site next d w with ⟨g, w', hout, hworld⟩ | ⟨c', w', t, is, hout, -⟩
    · rw [hout]
      refine ⟨?_, fun hfull => ?_, fun hfits => ?_, fun s => haged.epoch_lt, hworld, fun hkeeps => ?_⟩
      · unfold find?
        rw [haged.slotOf, ← hslot, trace?_makeRoom_self]
        rfl
      · refine makeRoom_full site ?_
        rwa [hlook.capacity, hpool, hlook.room]
      · obtain ⟨hpool', hothers'⟩ := makeRoom_fits (c := d) site (by rwa [hlook.capacity, hpool, hlook.room])
        refine ⟨hpool'.trans hpool, fun s hs => ?_⟩
        rw [hothers' s (by rwa [hslot]), hothers s hs]
      · rcases hworld with rfl | ⟨rip, rfl⟩
        · rfl
        · exact hkeeps rip w
    · rw [hout] at h
      cases h

/-- Behind the three instructions of the page there is none. Nothing comes of the site there, but it took the slot of a
trace that was. -/
theorem unbuilt_behind_resting :
    (restingCache.trace? (restingCache.slotOf 3 (restingSite 3).mode)).isSome = true ∧
      (restingCache.ensure Board.bus decodeInstr (restingSite 3) nothingBehind restingBoard).1 = .error (.decode 3) ∧
      Unbuilt Board.bus (restingSite 3) nothingBehind restingCache restingBoard
        (restingCache.ensure Board.bus decodeInstr (restingSite 3) nothingBehind restingBoard).2.1
        (restingCache.ensure Board.bus decodeInstr (restingSite 3) nothingBehind restingBoard).2.2 := by
  have herror : (restingCache.ensure Board.bus decodeInstr (restingSite 3) nothingBehind restingBoard).1 =
      .error (.decode 3) := by decide +kernel
  exact ⟨by decide +kernel, herror, unbuilt_ensure herror⟩

end TraceCore.TraceCache
