/-
Links that are followed. A link is dead once a slot was emptied or a store hit cached code anywhere. While it lives the
slot that it names has kept its trace, and no snapshot has become stale. So following it gives what a look-up would
have given. The bus and the decoder may be any, as long as the stamp table moves only by what is reported to it.
-/
import TraceCore.Proofs.Memory.Account
import TraceCore.Proofs.Processor.Window
import TraceCore.Proofs.Trace.Arranged

namespace TraceCore

/-- A store through the bus of a board is reported to its table. -/
theorem Board.evolves_write {γ δ : Type} (addr : UInt64) (src : List UInt8) (w : Board γ δ) :
    (Board.bus.stamps w).Evolves (Board.bus.stamps (Board.bus.write addr src w).2) := by
  show w.mem.ram.stamps.Evolves (w.mem.ram.write addr src).2.stamps
  unfold Ram.write
  split
  · exact StampTable.evolves_store ..
  · exact .refl

theorem Trace.refresh_congr {stamps stamps' : StampTable} (h : ∀ snap, stamps'.check snap = stamps.check snap)
    (t : Trace) : t.refresh stamps' = t.refresh stamps := by
  unfold refresh
  simp only [h]

/-! ## Links -/

namespace TraceCache

variable {ω : Type} {c c' : TraceCache} {stamps stamps' : StampTable} {l : Link} {t : Trace} {is : List Instr}
  {slot : Nat} {addr : UInt64} {mode : FetchMode}

/-- A live link leads to a trace of its address that passes the check. -/
structure Keeps (c : TraceCache) (stamps : StampTable) (l : Link) : Prop where
  epoch : l.epoch ≤ c.epoch
  generation : l.generation ≤ stamps.generation
  live : l.epoch = c.epoch → l.generation = stamps.generation →
    ∃ t, c.trace? l.slot = some t ∧ t.addr = l.addr ∧ (t.refresh stamps).isSome = true

/-- Every link of the cache keeps what it promises. -/
structure Linked (c : TraceCache) (stamps : StampTable) : Prop where
  slots : 0 < c.slots.size
  home : c.AtHome
  links : ∀ (index : Nat) (r : Record) (l : Link), c.pool[index]? = some r → r.link = some l → c.Keeps stamps l

theorem linked_new {config : CoreConfig} (hvalid : config.validate = .ok ()) (stamps : StampTable) :
    (new config).Linked stamps := by
  refine ⟨?_, (arranged_new config fun _ _ => .none).home, fun index r l hr => by simp [new] at hr⟩
  simpa [new] using (CoreConfig.bounds_of_validate hvalid).slots

/-- A link that is followed leads where a look-up would. -/
theorem lookup_of_linked (h : c.Linked stamps) {index : Nat} (hl : c.linked stamps index addr mode = some slot) :
    (c.lookup stamps addr mode).1 = some slot := by
  obtain ⟨r, l, t, hr, hlink, hepoch, hgen, rfl, ht, haddr, hmode⟩ := exists_of_linked hl
  obtain ⟨t', ht', -, hpass⟩ := (h.links index r l hr hlink).live hepoch hgen
  obtain rfl : t = t' := Option.some.inj (ht.symm.trans ht')
  have hhome := h.home l.slot t ht
  rw [haddr, hmode] at hhome
  obtain ⟨t₁, ht₁⟩ := Option.isSome_iff_exists.1 hpass
  rw [lookup_eq, find?_of_trace? (hhome ▸ ht) haddr hmode]
  dsimp only
  rw [ht₁, hhome]

/-! ## What links survive -/

/-- Once the epoch moved, a link has nothing left to keep. -/
theorem Keeps.aged (h : c.Keeps stamps l) (ha : Aged stamps c c') : c'.Keeps stamps l := by
  have hold := h.epoch
  have hle := ha.epoch
  refine ⟨Nat.le_trans hold hle, h.generation, fun hepoch hgen => ?_⟩
  obtain ⟨t, ht, haddr, hpass⟩ := h.live (by omega) hgen
  obtain ⟨t', ht', hsame⟩ := ha.kept (by omega) l.slot t ht
  exact ⟨t', ht', hsame.addr.trans haddr, hsame.isSome_refresh hpass⟩

/-- And once the generation did. -/
theorem Keeps.evolves (h : c.Keeps stamps l) (he : stamps.Evolves stamps') : c.Keeps stamps' l := by
  obtain ⟨hle, hcheck⟩ := he.check_eq
  have hold := h.generation
  refine ⟨h.epoch, Nat.le_trans hold hle, fun hepoch hgen => ?_⟩
  obtain ⟨t, ht, haddr, hpass⟩ := h.live hepoch (by omega)
  exact ⟨t, ht, haddr, by rw [Trace.refresh_congr (hcheck (by omega))]; exact hpass⟩

namespace Linked

theorem evolves (h : c.Linked stamps) (he : stamps.Evolves stamps') : c.Linked stamps' :=
  ⟨h.slots, h.home, fun index r l hr hlink => (h.links index r l hr hlink).evolves he⟩

theorem aged (h : c.Linked stamps) (ha : Aged stamps c c') : c'.Linked stamps := by
  refine ⟨by rw [ha.size]; exact h.slots, h.home.aged ha, fun index r l hr hlink => ?_⟩
  rcases ha.pool with hpool | ⟨hpool, -⟩
  · rw [hpool] at hr
    exact (h.links index r l hr hlink).aged ha
  · rw [hpool] at hr
    simp at hr

/-- New records have no links, and no live link leads to an empty slot. -/
theorem placed (h : c.Linked stamps) (hp : c.Placed c' slot t is) (hslot : slot < c.slots.size)
    (hempty : c.trace? slot = .none) (hhome : c.slotOf t.addr t.mode = slot) : c'.Linked stamps := by
  refine ⟨by rw [hp.slots, Array.size_setIfInBounds]; exact h.slots, h.home.placed hp hslot hhome,
    fun index r l hr hlink => ?_⟩
  rw [← Array.getElem?_toList, hp.pool, List.getElem?_append] at hr
  split at hr
  case isTrue =>
    rw [Array.getElem?_toList] at hr
    have hkeeps := h.links index r l hr hlink
    refine ⟨by rw [hp.epoch]; exact hkeeps.epoch, hkeeps.generation, fun hepoch hgen => ?_⟩
    obtain ⟨t', ht', hrest⟩ := hkeeps.live (hepoch.trans hp.epoch) hgen
    refine ⟨t', ?_, hrest⟩
    rw [hp.trace? hslot, if_neg fun heq => by rw [heq, ht'] at hempty; cases hempty]
    exact ht'
  case isFalse =>
    obtain ⟨i, -, rfl⟩ := List.mem_map.1 (List.mem_of_getElem? hr)
    cases hlink

/-- A new link to a trace that passes the check. -/
theorem setLink (h : c.Linked stamps) (index : Nat) (ht : c.trace? slot = some t) (haddr : t.addr = addr)
    (hpass : (t.refresh stamps).isSome = true) : (c.setLink stamps index slot addr).Linked stamps := by
  refine ⟨h.slots, h.home, fun i r l hr hlink => ?_⟩
  rcases link_setLink hr hlink with ⟨r₀, hr₀, hlink₀⟩ | rfl
  · have hkeeps := h.links i r₀ l hr₀ hlink₀
    exact ⟨hkeeps.epoch, hkeeps.generation, hkeeps.live⟩
  · exact ⟨Nat.le_refl _, Nat.le_refl _, fun _ _ => ⟨t, ht, haddr, hpass⟩⟩

theorem chain (h : c.Linked stamps) (linker : Linker) (index : Nat) (addr : UInt64) (mode : FetchMode)
    (mayFollow : Bool) : (linker.chain c stamps index addr mode mayFollow).2.2.Linked stamps := by
  have hlook := h.aged (.lookup stamps c addr mode)
  suffices hall : ∀ r c', c.Chains stamps index addr mode mayFollow r c' → c'.Linked stamps from
    hall _ _ (chains_chain ..)
  intro r c' hchains
  cases hchains with
  | stays => exact h
  | follows stats => exact h.aged (.withStats stamps c stats)
  | misses => exact hlook
  | links stats _ hfound =>
    obtain ⟨-, t, ht, haddr, -, hpass⟩ := found_of_lookup c stamps addr mode _ hfound
    exact (hlook.setLink index ht haddr hpass).aged (.withStats stamps _ stats)

theorem ensure {bus : Bus ω} {w : ω} (h : c.Linked (bus.stamps w)) (decode : Decoder) (site : Site)
    (next : UInt64 → ω → Except Fault FetchWindow × ω) :
    (c.ensure bus decode site next w).2.1.Linked (bus.stamps w) := by
  have hlook := h.aged (.lookup (bus.stamps w) c site.addr site.mode)
  unfold TraceCache.ensure
  generalize c.lookup (bus.stamps w) site.addr site.mode = out at hlook ⊢
  obtain ⟨r, d⟩ := out
  cases r with
  | some slot => exact hlook
  | none =>
    dsimp only at hlook ⊢
    have haged := Aged.makeRoom (bus.stamps w) d site
    have hroom := hlook.aged haged
    rcases build_cases bus decode site next d w with ⟨f, w', hout, -⟩ | ⟨c', w', t, is, hout, hp, haddr, hmode, -⟩
    · rw [hout]
      exact hroom
    · rw [hout]
      have hslot := d.slotOf_lt hlook.slots site.addr site.mode
      refine hroom.placed hp (by rw [haged.size]; exact hslot) (trace?_makeRoom_self d site) ?_
      rw [haged.slotOf, haddr, hmode]

end Linked

end TraceCache

/-! ## Sessions -/

/-- Outside the cache, the stamp table moves only by what is reported to it. -/
def CacheOp.Reports {ω : Type} (bus : Bus ω) : CacheOp ω → Prop
  | .ensure _ _ next => ∀ rip w, (bus.stamps w).Evolves (bus.stamps (next rip w).2)
  | .outside f => ∀ w, (bus.stamps w).Evolves (bus.stamps (f w))
  | _ => True

namespace Session

variable {ω : Type} {bus : Bus ω} {config : CoreConfig}

theorem linked_step (hbus : ∀ f w, bus.stamps (bus.mapStamps f w) = f (bus.stamps w)) {s : Session ω}
    (h : s.cache.Linked (bus.stamps s.world)) {op : CacheOp ω} (hop : op.Reports bus) :
    (s.step bus op).cache.Linked (bus.stamps (s.step bus op).world) := by
  cases op with
  | ensure decode site next =>
    have hevolves : (bus.stamps s.world).Evolves (bus.stamps (s.cache.ensure bus decode site next s.world).2.2) := by
      refine @TraceCache.ensure_keeps ω bus (fun w => (bus.stamps s.world).Evolves (bus.stamps w))
        (fun p mask w hw => ?_) decode site next (fun rip w hw => hw.trans (hop rip w)) s.cache s.world .refl
      rw [hbus]
      exact hw.register p mask
    exact (h.ensure decode site next).evolves hevolves
  | lookup addr mode => exact h.aged (.lookup ..)
  | chain linker index addr mode mayFollow => exact h.chain ..
  | flush => exact h.aged (.flush ..)
  | outside f => exact h.evolves (hop s.world)

/-- No link is ever stale: in every session, whatever is stored, registered and forgotten around the cache, a link that
would be followed leads to the slot that a look-up would give. -/
theorem lookup_of_linked_run (hvalid : config.validate = .ok ())
    (hbus : ∀ f w, bus.stamps (bus.mapStamps f w) = f (bus.stamps w)) (w : ω) {ops : List (CacheOp ω)}
    (hops : ∀ op ∈ ops, op.Reports bus) {index slot : Nat} {addr : UInt64} {mode : FetchMode}
    (hl : ((start config w).run bus ops).cache.linked (bus.stamps ((start config w).run bus ops).world) index addr mode =
      some slot) :
    (((start config w).run bus ops).cache.lookup (bus.stamps ((start config w).run bus ops).world) addr mode).1 =
      some slot := by
  have h := run_keeps bus (P := fun s => s.cache.Linked (bus.stamps s.world))
    (fun s op hop hs => linked_step hbus hs (hops op hop))
    (show (start config w).cache.Linked (bus.stamps (start config w).world) from TraceCache.linked_new hvalid _)
  exact TraceCache.lookup_of_linked h hl

/-- The branch at the end of the resting page is linked to its start. -/
theorem lookup_resting :
    let s := (start TraceCache.restingConfig TraceCache.restingBoard).run Board.bus restingOps
    s.cache.linked (Board.bus.stamps s.world) 1 0 (TraceCache.restingSite 0).mode = some 1 ∧
      (s.cache.lookup (Board.bus.stamps s.world) 0 (TraceCache.restingSite 0).mode).1 = some 1 := by
  have hlinked : ((start TraceCache.restingConfig TraceCache.restingBoard).run Board.bus restingOps).cache.linked
      (Board.bus.stamps ((start TraceCache.restingConfig TraceCache.restingBoard).run Board.bus restingOps).world) 1 0
      (TraceCache.restingSite 0).mode = some 1 := by decide +kernel
  refine ⟨hlinked, lookup_of_linked_run rfl (fun _ _ => rfl) _ (fun op hop => ?_) hlinked⟩
  simp only [restingOps, List.mem_cons, List.not_mem_nil, or_false] at hop
  rcases hop with rfl | rfl | rfl | rfl
  · exact fun _ _ => .refl
  · exact Board.evolves_write 0x80 [0x90]
  · exact fun _ _ => .refl
  · trivial

end Session

end TraceCore
