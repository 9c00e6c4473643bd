/-
Memory at two moments. `Ram.Later` holds what a snapshot of the earlier moment is worth at the later
one; stores, notifications of stores and registrations of cached code bring it about, as long as no
stamp comes round.
-/
import TraceCore.Proofs.Memory.Slice
import TraceCore.Proofs.Memory.Stamp

namespace TraceCore

namespace Ram

/-- The stamp table has the words of the pages of memory and of no others. -/
structure Tracked (ram : Ram) : Prop where
  size : ram.bytes.size = pageSize * ram.stamps.pages.size
  addressable : ram.bytes.size < 2 ^ 64

/-- New memory is tracked, and none of its pages was touched. -/
theorem tracked_ofSize {size : UInt64} {ram : Ram} (h : Ram.ofSize size = .ok ram) :
    ram.Tracked ∧ ∃ n, ram.stamps = .ofPages n := by
  unfold Ram.ofSize Ram.withStamps at h
  split at h
  case isFalse => cases h
  case isTrue hsize =>
    cases h
    refine ⟨⟨?_, ?_⟩, _, rfl⟩
    · simp [StampTable.ofBytes, StampTable.ofPages, Nat.mul_comm]
    · simp only [Array.size_replicate]
      unfold pageSize UInt64.size at *
      omega

/-- One page of zeros. -/
def zeroPage : Ram := ⟨Array.replicate 4096 0, .ofPages 1, by simp⟩

theorem ofSize_zeroPage : Ram.ofSize 4096 = .ok zeroPage := by
  simp [Ram.ofSize, Ram.withStamps, StampTable.ofBytes, pageSize, UInt64.size, zeroPage]

/-- `ram'` comes after `ram`: a snapshot that watched its chunks still does, and if it is current at
the end, it was at the start, and its chunks hold the same bytes. While the generation stands still,
so do stamps and dirty chunks. -/
structure Later (ram ram' : Ram) : Prop where
  size : ram'.bytes.size = ram.bytes.size
  pages : ram'.stamps.pages.size = ram.stamps.pages.size
  generation : ram.stamps.generation ≤ ram'.stamps.generation
  watches : ∀ q s s' stamp mask, ram.stamps.page? q = some s → ram'.stamps.page? q = some s' →
    s.Watches stamp mask → s'.Watches stamp mask
  unchanged : ∀ q s s' stamp mask, ram.stamps.page? q = some s → ram'.stamps.page? q = some s' →
    s.Watches stamp mask → s'.current stamp mask = true → s.current stamp mask = true ∧
      ∀ x, x / pageSize = q.toNat → hasChunk mask (x % pageSize / chunkSize) = true →
        ram'.bytes[x]? = ram.bytes[x]?
  still : ram'.stamps.generation = ram.stamps.generation →
    ∀ q s s', ram.stamps.page? q = some s → ram'.stamps.page? q = some s' → s'.stamp = s.stamp ∧ s'.dirty = s.dirty

theorem Later.tracked {ram ram' : Ram} (h : ram.Later ram') (ht : ram.Tracked) : ram'.Tracked :=
  ⟨by rw [h.size, h.pages, ht.size], by rw [h.size]; exact ht.addressable⟩

/-- Memory with its table changed, where no page's words change but for the watched chunks, and
those only grow. -/
theorem Later.of_code {ram ram' : Ram} (hbytes : ram'.bytes = ram.bytes)
    (hpages : ram'.stamps.pages.size = ram.stamps.pages.size)
    (hgen : ram'.stamps.generation = ram.stamps.generation)
    (hcode : ∀ q s s', ram.stamps.page? q = some s → ram'.stamps.page? q = some s' → ∃ k, s' = s.register k) :
    ram.Later ram' := by
  refine ⟨by rw [hbytes], hpages, le_of_eq hgen.symm, ?_, ?_, ?_⟩
  · intro q s s' stamp mask hs hs' hw
    obtain ⟨k, rfl⟩ := hcode q s s' hs hs'
    exact hw.register k
  · intro q s s' stamp mask hs hs' _ hc
    obtain ⟨k, rfl⟩ := hcode q s s' hs hs'
    exact ⟨hc, fun x _ _ => by rw [hbytes]⟩
  · intro _ q s s' hs hs'
    obtain ⟨k, rfl⟩ := hcode q s s' hs hs'
    exact ⟨rfl, rfl⟩

theorem Later.refl (ram : Ram) : ram.Later ram := by
  refine .of_code rfl rfl rfl fun q s s' hs hs' => ⟨0, ?_⟩
  rw [hs] at hs'; cases hs'
  cases s; simp [PageState.register]

/-- The words in between, of a page that has words at the start. -/
theorem Later.page? {ram ram' : Ram} (h : ram.Later ram') {q : UInt64} {s : PageState}
    (hs : ram.stamps.page? q = some s) : ∃ s', ram'.stamps.page? q = some s' := by
  cases hs' : ram'.stamps.page? q with
  | some s' => exact ⟨s', rfl⟩
  | none =>
    rw [StampTable.page?_eq_none_iff, h.pages, ← StampTable.page?_eq_none_iff, hs] at hs'
    cases hs'

/-- The words at the start, of a page that has words later. -/
theorem Later.page?_before {ram ram' : Ram} (h : ram.Later ram') {q : UInt64} {s' : PageState}
    (hs' : ram'.stamps.page? q = some s') : ∃ s, ram.stamps.page? q = some s := by
  cases hs : ram.stamps.page? q with
  | some s => exact ⟨s, rfl⟩
  | none =>
    rw [StampTable.page?_eq_none_iff, ← h.pages, ← StampTable.page?_eq_none_iff, hs'] at hs
    cases hs

theorem Later.trans {a b c : Ram} (h : a.Later b) (h' : b.Later c) : a.Later c := by
  refine ⟨h'.size.trans h.size, h'.pages.trans h.pages, le_trans h.generation h'.generation, ?_, ?_, ?_⟩
  · intro q s s'' stamp mask hs hs'' hw
    obtain ⟨s', hs'⟩ := h.page? hs
    exact h'.watches q s' s'' stamp mask hs' hs'' (h.watches q s s' stamp mask hs hs' hw)
  · intro q s s'' stamp mask hs hs'' hw hc
    obtain ⟨s', hs'⟩ := h.page? hs
    have hw' := h.watches q s s' stamp mask hs hs' hw
    obtain ⟨hc', hbytes'⟩ := h'.unchanged q s' s'' stamp mask hs' hs'' hw' hc
    obtain ⟨hc, hbytes⟩ := h.unchanged q s s' stamp mask hs hs' hw hc'
    exact ⟨hc, fun x hx hm => (hbytes' x hx hm).trans (hbytes x hx hm)⟩
  · intro hgen q s s'' hs hs''
    obtain ⟨s', hs'⟩ := h.page? hs
    have hg := h.generation
    have hg' := h'.generation
    obtain ⟨hstamp', hdirty'⟩ := h'.still (by omega) q s' s'' hs' hs''
    obtain ⟨hstamp, hdirty⟩ := h.still (by omega) q s s' hs hs'
    exact ⟨hstamp'.trans hstamp, hdirty'.trans hdirty⟩

/-- A page of the table has a number that is not out of reach of addresses. -/
theorem Tracked.page_lt {ram : Ram} (ht : ram.Tracked) {q : UInt64} {s : PageState}
    (hs : ram.stamps.page? q = some s) : q.toNat < ram.stamps.pages.size ∧ q.toNat < 2 ^ 52 := by
  have hlt : q.toNat < ram.stamps.pages.size := by
    by_contra hge
    rw [StampTable.page?_eq_none_iff.2 (by omega)] at hs; cases hs
  have h1 := ht.size
  have h2 := ht.addressable
  unfold pageSize at h1
  exact ⟨hlt, by omega⟩

/-- Memory that tells its table of every change of the bytes from `addr` to `addr + len`. -/
theorem Later.of_store {ram ram' : Ram} (ht : ram.Tracked) {addr : UInt64} {len : Nat}
    (hsize : ram'.bytes.size = ram.bytes.size)
    (hbytes : ∀ x < ram.bytes.size, ¬ (addr.toNat ≤ x ∧ x < addr.toNat + len) → ram'.bytes[x]? = ram.bytes[x]?)
    (hstamps : ram'.stamps = ram.stamps.store addr len) (hrise : ram.stamps.Rises ram'.stamps) : ram.Later ram' := by
  have hpage : ∀ q s s', ram.stamps.page? q = some s → ram'.stamps.page? q = some s' →
      s' = s.store (chunksIn addr len q) := by
    intro q s s' hs hs'
    rw [hstamps, StampTable.page?_store _ _ _ (ht.page_lt hs).2, hs, Option.map_some] at hs'
    exact (Option.some.inj hs').symm
  refine ⟨hsize, by rw [hstamps, StampTable.size_store], by rw [hstamps]; exact (StampTable.generation_store ..).1,
    ?_, ?_, ?_⟩
  · intro q s s' stamp mask hs hs' hw
    have hup := hrise q s s' hs hs'
    rw [hpage q s s' hs hs'] at hup ⊢
    exact (hw.store hup).1
  · intro q s s' stamp mask hs hs' hw hc
    have hup := hrise q s s' hs hs'
    rw [hpage q s s' hs hs'] at hup hc
    obtain ⟨hcur, hmiss⟩ := (hw.store hup).2 hc
    refine ⟨hcur, fun x hx hm => ?_⟩
    -- a byte in the range would put its chunk among those of the store
    have hout : ¬ (addr.toNat ≤ x ∧ x < addr.toNat + len) := by
      rintro ⟨h1, h2⟩
      have := (hasChunk_chunksIn addr len q (x % pageSize / chunkSize)).2 ⟨x, h1, h2, hx, rfl⟩
      rw [hmiss _ hm] at this; cases this
    have hx' : x < ram.bytes.size := by
      have h1 := ht.size
      have h2 := (ht.page_lt hs).1
      unfold pageSize at *
      omega
    exact hbytes x hx' hout
  · intro hgen q s s' hs hs'
    have : ram'.stamps = ram.stamps := by
      rw [hstamps]
      apply (StampTable.generation_store ..).2
      rw [← hstamps]; exact hgen
    rw [this, hs] at hs'
    cases hs'
    exact ⟨rfl, rfl⟩

theorem later_store {ram : Ram} (ht : ram.Tracked) (addr : UInt64) (src : List UInt8)
    (hrise : ram.stamps.Rises (ram.store addr src).stamps) : ram.Later (ram.store addr src) := by
  refine .of_store ht (size_overwrite ..) (fun x _ hx => ?_) rfl hrise
  show (overwrite ram.bytes addr.toNat src)[x]? = _
  rw [getElem?_overwrite, if_neg (by omega)]

/-- A store that did not go through the bus, and changed nothing that the table does not hear of. -/
theorem later_notify {ram : Ram} (ht : ram.Tracked) (addr : UInt64) (len : Nat)
    (hrise : ram.stamps.Rises (ram.stamps.store addr len)) :
    ram.Later { ram with stamps := ram.stamps.store addr len } :=
  .of_store ht rfl (fun _ _ _ => rfl) rfl hrise

theorem later_register (ram : Ram) (p : UInt64) (mask : UInt32) :
    ram.Later { ram with stamps := ram.stamps.register p mask } := by
  refine .of_code rfl (StampTable.size_register ..) rfl fun q s s' hs hs' => ?_
  simp only [StampTable.page?_register, hs] at hs'
  split at hs'
  case isTrue => exact ⟨mask, (Option.some.inj hs').symm⟩
  case isFalse =>
    refine ⟨0, ?_⟩
    cases hs'
    cases s; simp [PageState.register]

end Ram

end TraceCore
