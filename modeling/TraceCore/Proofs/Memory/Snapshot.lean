/-
Snapshots over the history of a table. Once a store touched a chunk of a snapshot, the snapshot is stale
for good, whatever is registered, stored and taken over afterwards. That rests on the snapshot's chunks
being watched from its registration on: a store that came before, between the reading of the stamp and
the registration, counts only if it hit chunks that were watched for someone else.
-/
import TraceCore.Proofs.Memory.Stamp

namespace TraceCore

/-! ## The bytes of a store -/

/-- The chunks of page `q` that a store of `len` bytes at `addr` writes to. No byte lies behind the end of
the address space. -/
def storedChunks (addr : UInt64) (len : Nat) (q : UInt64) : UInt32 := chunksIn addr (min len (2 ^ 64 - addr.toNat)) q

theorem hasChunk_storedChunks (addr : UInt64) (len : Nat) (q : UInt64) (j : Nat) :
    hasChunk (storedChunks addr len q) j = true ↔
      ∃ x, addr.toNat ≤ x ∧ x < addr.toNat + len ∧ x < 2 ^ 64 ∧ x / pageSize = q.toNat ∧
        x % pageSize / chunkSize = j := by
  have haddr := addr.toNat_lt
  unfold storedChunks
  rw [hasChunk_chunksIn]
  constructor
  · rintro ⟨x, h1, h2, h3, h4⟩
    exact ⟨x, h1, by omega, by omega, h3, h4⟩
  · rintro ⟨x, h1, h2, h3, h4, h5⟩
    exact ⟨x, h1, by omega, h4, h5⟩

namespace StampTable

/-- Pages behind the end of the address space are out of reach of stores. -/
theorem page?_store_of_le (t : StampTable) (addr : UInt64) (len : Nat) {q : UInt64} (hq : 2 ^ 52 ≤ q.toNat) :
    (t.store addr len).page? q = t.page? q := by
  have hpage : ∀ (t : StampTable) (addr : UInt64) (mask : UInt32),
      (t.storePage (pageOf addr) mask).page? q = t.page? q := by
    intro t addr mask
    have hp := toNat_pageOf addr
    have haddr := addr.toNat_lt
    rw [page?_storePage, if_neg]
    rintro rfl
    unfold pageSize at hp
    omega
  fun_induction store t addr len with
  | case1 => rfl
  | case2 => rfl
  | case3 t addr len _ _ n t' _ ih => rw [ih, hpage]
  | case4 t addr len => rw [hpage]

/-- A store hits every page with the chunks that it writes there. -/
theorem page?_store_storedChunks (t : StampTable) (addr : UInt64) (len : Nat) (q : UInt64) :
    (t.store addr len).page? q = (t.page? q).map (·.store (storedChunks addr len q)) := by
  have haddr := addr.toNat_lt
  unfold storedChunks
  by_cases hq : q.toNat < 2 ^ 52
  · have hsame : chunksIn addr (min len (2 ^ 64 - addr.toNat)) q = chunksIn addr len q :=
      chunksIn_eq fun x hx => by unfold pageSize at hx; omega
    rw [page?_store t addr len hq, hsame]
  · have hnone : chunksIn addr (min len (2 ^ 64 - addr.toNat)) q = 0 :=
      chunksIn_eq_zero fun x _ _ hx => by unfold pageSize at hx; omega
    rw [page?_store_of_le t addr len (by omega), hnone]
    cases t.page? q with
    | none => rfl
    | some s => rw [Option.map_some, PageState.store_zero]

theorem page_store (t : StampTable) (addr : UInt64) (len : Nat) (q : UInt64) :
    (t.store addr len).page q = (t.page q).store (storedChunks addr len q) := by
  unfold page
  rw [page?_store_storedChunks]
  cases t.page? q with
  | none =>
    have hempty : PageState.hit {} (storedChunks addr len q) = false := by simp [PageState.hit]
    exact (PageState.store_of_not_hit hempty).symm
  | some s => rfl

theorem page_register (t : StampTable) (p q : UInt64) (mask : UInt32) :
    (t.register p mask).page q = t.page q ∨ (t.register p mask).page q = (t.page q).register mask := by
  unfold page
  rw [page?_register]
  split
  case isFalse => exact Or.inl rfl
  case isTrue =>
    cases t.page? q with
    | none => exact Or.inl rfl
    | some s => exact Or.inr rfl

theorem page?_of_lt {t : StampTable} {q : UInt64} (h : q.toNat < t.pages.size) : t.page? q = some (t.page q) := by
  unfold page
  cases hq : t.page? q with
  | none => rw [page?_eq_none_iff] at hq; omega
  | some st => rfl

theorem check_eq_none_iff {t : StampTable} {snap : Snapshot} :
    t.check snap = none ↔ snap.page.toNat < t.pages.size ∧ (t.page snap.page).current snap.stamp snap.mask = false := by
  by_cases hin : snap.page.toNat < t.pages.size
  · unfold check
    rw [page?_of_lt hin]
    simp [hin]
  · unfold check
    rw [page?_eq_none_iff.2 (by omega)]
    simp [hin]

end StampTable

/-! ## A snapshot and its page -/

namespace PageState

/-- Stores into cached code that a store to the chunks `mask` adds to the count. -/
def hitCount (s : PageState) (mask : UInt32) : Nat := if s.hit mask then 1 else 0

/-- The stamp `stamp` was read no more than `hits` hits ago, and while the snapshot of `mask` under it is
current, its chunks are watched. -/
structure Follows (s : PageState) (hits : Nat) (stamp mask : UInt32) : Prop where
  age : ∃ n ≤ hits, s.stamp = stamp + UInt32.ofNat n
  code : s.current stamp mask = true → ∀ j, hasChunk mask j = true → hasChunk s.code j = true

/-- The page was hit since the stamp was read, and chunks of the snapshot are dirty. -/
structure Outdates (s : PageState) (hits : Nat) (stamp mask : UInt32) : Prop where
  age : ∃ n ≤ hits, 0 < n ∧ s.stamp = stamp + UInt32.ofNat n
  dirty : s.dirty &&& mask ≠ 0

variable {s : PageState} {hits : Nat} {stamp mask k : UInt32}

theorem stamp_store (s : PageState) (k : UInt32) : (s.store k).stamp = s.stamp + UInt32.ofNat (s.hitCount k) := by
  unfold hitCount
  cases hit : s.hit k with
  | false =>
    rw [store_of_not_hit hit]
    exact (UInt32.add_zero _).symm
  | true =>
    rw [store_of_hit hit]
    rfl

theorem dirty_store (s : PageState) (k : UInt32) : (s.store k).dirty = if s.hit k then s.dirty ||| k else s.dirty := by
  cases hit : s.hit k with
  | false => rw [store_of_not_hit hit]; rfl
  | true => rw [store_of_hit hit]; rfl

/-- Fewer than 2^32 hits move the stamp. -/
theorem stamp_ne {stamp : UInt32} {n : Nat} (hpos : 0 < n) (hlt : n < 2 ^ 32) : stamp + UInt32.ofNat n ≠ stamp := by
  intro h
  have hnat := congrArg UInt32.toNat h
  have hstamp := stamp.toNat_lt
  rw [UInt32.toNat_add, UInt32.toNat_ofNat'] at hnat
  omega

theorem current_eq_false_iff : s.current stamp mask = false ↔ s.stamp ≠ stamp ∧ s.dirty &&& mask ≠ 0 := by
  unfold current
  simp only [Bool.or_eq_false_iff, beq_eq_false_iff_ne]

theorem Outdates.not_current (h : s.Outdates hits stamp mask) (hfew : hits < 2 ^ 32) :
    s.current stamp mask = false := by
  obtain ⟨n, hn, hpos, hstamp⟩ := h.age
  refine current_eq_false_iff.2 ⟨?_, h.dirty⟩
  rw [hstamp]
  exact stamp_ne hpos (by omega)

/-- A stale snapshot stays stale. -/
theorem Outdates.store (h : s.Outdates hits stamp mask) (k : UInt32) :
    (s.store k).Outdates (hits + s.hitCount k) stamp mask := by
  obtain ⟨n, hn, hpos, hstamp⟩ := h.age
  refine ⟨⟨n + s.hitCount k, by omega, by omega, ?_⟩, fun hzero => h.dirty ?_⟩
  · rw [stamp_store, hstamp, UInt32.ofNat_add, UInt32.add_assoc]
  · rw [UInt32.and_comm, and_eq_zero_iff] at hzero ⊢
    intro j hj
    have hclean := hzero j hj
    rw [dirty_store] at hclean
    split at hclean
    case isFalse => exact hclean
    case isTrue =>
      rw [hasChunk_or, Bool.or_eq_false_iff] at hclean
      exact hclean.1

theorem Outdates.register (h : s.Outdates hits stamp mask) (k : UInt32) : (s.register k).Outdates hits stamp mask :=
  ⟨h.age, h.dirty⟩

theorem Follows.outdates (h : s.Follows hits stamp mask) (hc : s.current stamp mask = false) :
    s.Outdates hits stamp mask := by
  obtain ⟨hne, hdirty⟩ := current_eq_false_iff.1 hc
  obtain ⟨n, hn, hstamp⟩ := h.age
  refine ⟨⟨n, hn, Nat.pos_of_ne_zero ?_, hstamp⟩, hdirty⟩
  rintro rfl
  exact hne (hstamp.trans (UInt32.add_zero _))

/-- A store to one of its chunks makes a snapshot stale, if it is not so already. -/
theorem Follows.touched (h : s.Follows hits stamp mask) {j : Nat} (hmask : hasChunk mask j = true)
    (hk : hasChunk k j = true) :
    (s.store k).Outdates (hits + s.hitCount k) stamp mask := by
  cases hc : s.current stamp mask with
  | false => exact (h.outdates hc).store k
  | true =>
    -- the chunk is watched, so the store hits
    have hit : s.hit k = true := by
      cases hmiss : s.hit k with
      | true => rfl
      | false =>
        have := hit_eq_false_iff.1 hmiss j (h.code hc j hmask)
        rw [hk] at this
        cases this
    obtain ⟨n, hn, hstamp⟩ := h.age
    have hcount : s.hitCount k = 1 := by unfold hitCount; rw [hit, if_pos rfl]
    refine ⟨⟨n + s.hitCount k, by omega, by omega, ?_⟩, fun hzero => ?_⟩
    · rw [stamp_store, hstamp, UInt32.ofNat_add, UInt32.add_assoc]
    · rw [UInt32.and_comm] at hzero
      have hclean := and_eq_zero_iff.1 hzero j hmask
      rw [dirty_store, hit, if_pos rfl, hasChunk_or, hk, Bool.or_true] at hclean
      cases hclean

theorem Follows.store (h : s.Follows hits stamp mask) (k : UInt32) (hfew : hits + s.hitCount k < 2 ^ 32) :
    (s.store k).Follows (hits + s.hitCount k) stamp mask := by
  obtain ⟨n, hn, hstamp⟩ := h.age
  refine ⟨⟨n + s.hitCount k, by omega, by rw [stamp_store, hstamp, UInt32.ofNat_add, UInt32.add_assoc]⟩,
    fun hc j hj => ?_⟩
  by_cases hk : hasChunk k j = true
  · rw [(h.touched hj hk).not_current hfew] at hc
    cases hc
  · have hcur : s.current stamp mask = true := by
      cases hcur : s.current stamp mask with
      | true => rfl
      | false =>
        rw [((h.outdates hcur).store k).not_current hfew] at hc
        cases hc
    have hcode := h.code hcur j hj
    cases hit : s.hit k with
    | false => rw [store_of_not_hit hit]; exact hcode
    | true =>
      rw [store_of_hit hit, hasChunk_diff, hcode, Bool.eq_false_of_not_eq_true hk]
      rfl

theorem Follows.register (h : s.Follows hits stamp mask) (k : UInt32) : (s.register k).Follows hits stamp mask :=
  ⟨h.age, fun hc j hj => by
    show hasChunk (s.code ||| k) j = true
    rw [hasChunk_or, h.code hc j hj, Bool.true_or]⟩

theorem follows_register (s : PageState) (hits : Nat) (mask : UInt32) : (s.register mask).Follows hits s.stamp mask :=
  ⟨⟨0, Nat.zero_le _, (UInt32.add_zero _).symm⟩, fun _ j hj => by
    show hasChunk (s.code ||| mask) j = true
    rw [hasChunk_or, hj, Bool.or_true]⟩

/-- A current snapshot takes over the present stamp. -/
theorem Follows.adopt (h : s.Follows hits stamp mask) (hc : s.current stamp mask = true) :
    s.Follows hits s.stamp mask :=
  ⟨⟨0, Nat.zero_le _, (UInt32.add_zero _).symm⟩, fun _ => h.code hc⟩

end PageState

/-! ## Histories -/

/-- A table, the snapshots that were taken of it, and for each page the stores that hit cached code on it. -/
structure Tracking where
  table : StampTable
  snaps : List Snapshot
  hits : UInt64 → Nat

namespace Tracking

/-- What can happen, short of forgetting everything. A snapshot is taken under the stamp of that moment;
one that is checked may take over the stamp that the check gives. -/
inductive Op where
  | register (p : UInt64) (mask : UInt32)
  | store (addr : UInt64) (len : Nat)
  | check (k : Nat)
  | adopt (k : Nat)

def start (t : StampTable) : Tracking := ⟨t, [], fun _ => 0⟩

/-- Snapshot `k` takes over the present stamp, if it is current. -/
def adopt (s : Tracking) (k : Nat) : Tracking :=
  match s.snaps[k]? with
  | none => s
  | some snap =>
    match s.table.check snap with
    | none => s
    | some stamp => { s with snaps := s.snaps.set k { snap with stamp } }

def step (s : Tracking) : Op → Tracking
  | .register p mask =>
    { s with table := s.table.register p mask, snaps := s.snaps ++ [⟨p, (s.table.page p).stamp, mask⟩] }
  | .store addr len =>
    { s with
      table := s.table.store addr len
      hits := fun p => s.hits p + (s.table.page p).hitCount (storedChunks addr len p) }
  | .check _ => s
  | .adopt k => s.adopt k

def run (s : Tracking) (ops : List Op) : Tracking := ops.foldl step s

variable {s : Tracking} {k : Nat} {snap : Snapshot}

theorem hits_le_step (s : Tracking) (op : Op) (p : UInt64) : s.hits p ≤ (s.step op).hits p := by
  cases op with
  | register => exact Nat.le_refl _
  | store => exact Nat.le_add_right ..
  | check => exact Nat.le_refl _
  | adopt k =>
    show s.hits p ≤ (s.adopt k).hits p
    unfold adopt
    split
    · exact Nat.le_refl _
    · split <;> exact Nat.le_refl _

theorem hits_le_run (s : Tracking) (ops : List Op) (p : UInt64) : s.hits p ≤ (s.run ops).hits p := by
  induction ops generalizing s with
  | nil => exact Nat.le_refl _
  | cons op ops ih => exact Nat.le_trans (hits_le_step s op p) (ih (s.step op))

/-- Each store hits a page once at most. -/
theorem hits_step_le (s : Tracking) (op : Op) (p : UInt64) : (s.step op).hits p ≤ s.hits p + 1 := by
  cases op with
  | register => exact Nat.le_succ _
  | store addr len =>
    refine Nat.add_le_add_left ?_ _
    unfold PageState.hitCount
    split <;> omega
  | check => exact Nat.le_succ _
  | adopt k =>
    show (s.adopt k).hits p ≤ s.hits p + 1
    unfold adopt
    split
    · exact Nat.le_succ _
    · split <;> exact Nat.le_succ _

theorem hits_run_le (s : Tracking) (ops : List Op) (p : UInt64) : (s.run ops).hits p ≤ s.hits p + ops.length := by
  induction ops generalizing s with
  | nil => exact Nat.le_refl _
  | cons op ops ih =>
    have hrest := ih (s.step op)
    have hone := hits_step_le s op p
    rw [List.length_cons]
    show ((s.step op).run ops).hits p ≤ _
    omega

theorem size_step (s : Tracking) (op : Op) : (s.step op).table.pages.size = s.table.pages.size := by
  cases op with
  | register => exact StampTable.size_register ..
  | store => exact StampTable.size_store ..
  | check => rfl
  | adopt k =>
    show (s.adopt k).table.pages.size = _
    unfold adopt
    split
    · rfl
    · split <;> rfl

theorem size_run (s : Tracking) (ops : List Op) : (s.run ops).table.pages.size = s.table.pages.size := by
  induction ops generalizing s with
  | nil => rfl
  | cons op ops ih => exact (ih (s.step op)).trans (size_step s op)

/-! ### Every snapshot follows its page -/

/-- Each snapshot of a tracked page was watched from its registration on. -/
def Inv (s : Tracking) : Prop :=
  ∀ snap ∈ s.snaps, snap.page.toNat < s.table.pages.size →
    (s.table.page snap.page).Follows (s.hits snap.page) snap.stamp snap.mask

theorem inv_step (h : s.Inv) (op : Op) (hfew : ∀ p, (s.step op).hits p < 2 ^ 32) : (s.step op).Inv := by
  intro snap hsnap hin
  rw [size_step] at hin
  cases op with
  | register p mask =>
    rcases List.mem_append.1 hsnap with hold | hnew
    · show PageState.Follows ((s.table.register p mask).page snap.page) _ _ _
      rcases s.table.page_register p snap.page mask with hpage | hpage
      · rw [hpage]; exact h snap hold hin
      · rw [hpage]; exact (h snap hold hin).register mask
    · obtain rfl := List.mem_singleton.1 hnew
      have hpage : (s.table.register p mask).page p = (s.table.page p).register mask := by
        unfold StampTable.page
        rw [StampTable.page?_register, if_pos rfl, StampTable.page?_of_lt hin]
        rfl
      show PageState.Follows ((s.table.register p mask).page p) _ _ _
      rw [hpage]
      exact PageState.follows_register ..
  | store addr len =>
    show PageState.Follows ((s.table.store addr len).page snap.page) _ _ _
    rw [StampTable.page_store]
    exact (h snap hsnap hin).store _ (hfew snap.page)
  | check => exact h snap hsnap hin
  | adopt k =>
    change snap ∈ (s.adopt k).snaps at hsnap
    show PageState.Follows ((s.adopt k).table.page snap.page) ((s.adopt k).hits snap.page) _ _
    unfold adopt at hsnap ⊢
    cases hk : s.snaps[k]? with
    | none => rw [hk] at hsnap; exact h snap hsnap hin
    | some old =>
      rw [hk] at hsnap
      dsimp only at hsnap ⊢
      cases hcheck : s.table.check old with
      | none => rw [hcheck] at hsnap; exact h snap hsnap hin
      | some stamp =>
        rw [hcheck] at hsnap
        dsimp only at hsnap ⊢
        rcases List.mem_or_eq_of_mem_set hsnap with hold | rfl
        · exact h snap hold hin
        · have hfollows := h old (List.mem_of_getElem? hk) hin
          unfold StampTable.check at hcheck
          rw [StampTable.page?_of_lt hin] at hcheck
          dsimp only at hcheck
          split at hcheck
          case isFalse => cases hcheck
          case isTrue hcur =>
            cases hcheck
            exact hfollows.adopt hcur

theorem inv_run (h : s.Inv) (ops : List Op) (hfew : ∀ p, (s.run ops).hits p < 2 ^ 32) : (s.run ops).Inv := by
  induction ops generalizing s with
  | nil => exact h
  | cons op ops ih =>
    exact ih (inv_step h op fun p => lt_of_le_of_lt (hits_le_run (s.step op) ops p) (hfew p)) hfew

/-! ### Stale for good -/

/-- Snapshot `k` is stale on the words of its page. -/
structure Stale (s : Tracking) (k : Nat) (snap : Snapshot) : Prop where
  held : s.snaps[k]? = some snap
  tracked : snap.page.toNat < s.table.pages.size
  outdated : (s.table.page snap.page).Outdates (s.hits snap.page) snap.stamp snap.mask

theorem Stale.check_eq_none (h : s.Stale k snap) (hfew : s.hits snap.page < 2 ^ 32) : s.table.check snap = none :=
  StampTable.check_eq_none_iff.2 ⟨h.tracked, h.outdated.not_current hfew⟩

theorem stale_step (h : s.Stale k snap) (op : Op) (hfew : s.hits snap.page < 2 ^ 32) : (s.step op).Stale k snap := by
  refine ⟨?_, by rw [size_step]; exact h.tracked, ?_⟩
  · cases op with
    | register =>
      obtain ⟨hlt, -⟩ := List.getElem?_eq_some_iff.1 h.held
      exact (List.getElem?_append_left hlt).trans h.held
    | store => exact h.held
    | check => exact h.held
    | adopt j =>
      show (s.adopt j).snaps[k]? = some snap
      unfold adopt
      split
      case h_1 => exact h.held
      case h_2 old hj =>
        split
        case h_1 => exact h.held
        case h_2 stamp hcheck =>
          -- a stale snapshot is not the one that was adopted
          have hne : j ≠ k := by
            rintro rfl
            rw [h.held] at hj
            cases hj
            rw [h.check_eq_none hfew] at hcheck
            cases hcheck
          exact (List.getElem?_set_ne hne).trans h.held
  · cases op with
    | register p mask =>
      show PageState.Outdates ((s.table.register p mask).page snap.page) _ _ _
      rcases s.table.page_register p snap.page mask with hpage | hpage
      · rw [hpage]; exact h.outdated
      · rw [hpage]; exact h.outdated.register mask
    | store addr len =>
      show PageState.Outdates ((s.table.store addr len).page snap.page) _ _ _
      rw [StampTable.page_store]
      exact h.outdated.store _
    | check => exact h.outdated
    | adopt j =>
      show PageState.Outdates ((s.adopt j).table.page snap.page) ((s.adopt j).hits snap.page) _ _
      unfold adopt
      split
      · exact h.outdated
      · split <;> exact h.outdated

theorem stale_run (h : s.Stale k snap) (ops : List Op) (hfew : ∀ p, (s.run ops).hits p < 2 ^ 32) :
    (s.run ops).Stale k snap := by
  induction ops generalizing s with
  | nil => exact h
  | cons op ops ih =>
    refine ih (stale_step h op ?_) hfew
    exact lt_of_le_of_lt (hits_le_run s (op :: ops) snap.page) (hfew snap.page)

/-- A store of `len` bytes at `addr` writes to a byte in one of the chunks of the snapshot. -/
def Touches (addr : UInt64) (len : Nat) (snap : Snapshot) : Prop :=
  ∃ x, addr.toNat ≤ x ∧ x < addr.toNat + len ∧ x < 2 ^ 64 ∧ x / pageSize = snap.page.toNat ∧
    hasChunk snap.mask (x % pageSize / chunkSize) = true

theorem stale_store (h : s.Inv) (hheld : s.snaps[k]? = some snap) (htracked : snap.page.toNat < s.table.pages.size)
    {addr : UInt64} {len : Nat} (ht : Touches addr len snap) : (s.step (.store addr len)).Stale k snap := by
  obtain ⟨x, h1, h2, h3, hpage, hmask⟩ := ht
  refine ⟨hheld, by rw [size_step]; exact htracked, ?_⟩
  show PageState.Outdates ((s.table.store addr len).page snap.page) _ _ _
  rw [StampTable.page_store]
  refine (h snap (List.mem_of_getElem? hheld) htracked).touched hmask ?_
  exact (hasChunk_storedChunks ..).2 ⟨x, h1, h2, h3, hpage, rfl⟩

/-- Once a store touched a chunk of a snapshot of a tracked page, the snapshot stays as it is and is never
current again. -/
theorem check_eq_none_of_touched (t : StampTable) (before after : List Op) {k : Nat} {snap : Snapshot} {addr : UInt64}
    {len : Nat} (hheld : ((start t).run before).snaps[k]? = some snap) (htracked : snap.page.toNat < t.pages.size)
    (ht : Touches addr len snap)
    (hfew : ∀ p, ((start t).run (before ++ .store addr len :: after)).hits p < 2 ^ 32) :
    ((start t).run (before ++ .store addr len :: after)).snaps[k]? = some snap ∧
      ((start t).run (before ++ .store addr len :: after)).table.check snap = none := by
  have hsplit : (start t).run (before ++ .store addr len :: after) =
      (((start t).run before).step (.store addr len)).run after := by
    unfold run
    rw [List.foldl_append, List.foldl_cons]
  rw [hsplit] at hfew ⊢
  have hinv : ((start t).run before).Inv := by
    refine inv_run (fun snap hsnap => absurd hsnap List.not_mem_nil) before fun p => lt_of_le_of_lt ?_ (hfew p)
    exact Nat.le_trans (hits_le_step _ (.store addr len) p) (hits_le_run _ after p)
  have hstale := stale_run (stale_store hinv hheld (by rw [size_run]; exact htracked) ht) after hfew
  exact ⟨hstale.held, hstale.check_eq_none (hfew _)⟩

/-- Another snapshot of the chunk that is taken after the store does not revive the first one. -/
theorem check_eq_none_registeredAgain :
    ((start (.ofPages 1)).run [.register 0 1, .store 5 1, .register 0 1, .store 0 2, .adopt 0]).snaps[0]? =
        some ⟨0, 0, 1⟩ ∧
      ((start (.ofPages 1)).run [.register 0 1, .store 5 1, .register 0 1, .store 0 2, .adopt 0]).table.check
          ⟨0, 0, 1⟩ =
        none := by
  refine check_eq_none_of_touched (.ofPages 1) [.register 0 1] [.register 0 1, .store 0 2, .adopt 0] (by decide +kernel)
    (by decide +kernel) ⟨5, by decide +kernel⟩ fun p => ?_
  exact lt_of_le_of_lt (hits_run_le _ _ p) (show 0 + 5 < 2 ^ 32 by decide)

end Tracking

/-! ## Stores before the registration -/

namespace StampTable

/-- Stores, given by address and length, one after the other. -/
def storeAll (t : StampTable) (stores : List (UInt64 × Nat)) : StampTable :=
  stores.foldl (fun t store => t.store store.1 store.2) t

/-- For each of the stores that hits cached code on page `p`, the chunks that it writes there. -/
def hitsOn (t : StampTable) (p : UInt64) : List (UInt64 × Nat) → List UInt32
  | [] => []
  | store :: rest =>
    let mask := storedChunks store.1 store.2 p
    let later := (t.store store.1 store.2).hitsOn p rest
    if (t.page p).hit mask then mask :: later else later

/-- The stamp counts the hits, and what they wrote to is dirty. -/
theorem page_storeAll (t : StampTable) (p : UInt64) (stores : List (UInt64 × Nat)) :
    ((t.storeAll stores).page p).stamp = (t.page p).stamp + UInt32.ofNat (t.hitsOn p stores).length ∧
      ∀ j, hasChunk ((t.storeAll stores).page p).dirty j = true ↔
        hasChunk (t.page p).dirty j = true ∨ ∃ mask ∈ t.hitsOn p stores, hasChunk mask j = true := by
  induction stores generalizing t with
  | nil => exact ⟨(UInt32.add_zero _).symm, fun j => by simp [storeAll, hitsOn]⟩
  | cons store rest ih =>
    obtain ⟨hstamp, hdirty⟩ := ih (t.store store.1 store.2)
    unfold hitsOn
    dsimp only
    rw [show t.storeAll (store :: rest) = (t.store store.1 store.2).storeAll rest from rfl]
    rw [page_store] at hstamp hdirty
    cases hit : (t.page p).hit (storedChunks store.1 store.2 p) with
    | false =>
      rw [PageState.store_of_not_hit hit] at hstamp hdirty
      rw [if_neg Bool.false_ne_true]
      exact ⟨hstamp, hdirty⟩
    | true =>
      rw [PageState.store_of_hit hit] at hstamp hdirty
      rw [if_pos rfl]
      refine ⟨?_, fun j => ?_⟩
      · rw [hstamp, List.length_cons, Nat.add_comm, UInt32.ofNat_add, ← UInt32.add_assoc]
        rfl
      · rw [hdirty, hasChunk_or, Bool.or_eq_true, or_assoc]
        simp only [List.mem_cons, exists_eq_or_imp]

theorem size_storeAll (t : StampTable) (stores : List (UInt64 × Nat)) :
    (t.storeAll stores).pages.size = t.pages.size := by
  induction stores generalizing t with
  | nil => rfl
  | cons store rest ih => exact (ih (t.store store.1 store.2)).trans (size_store ..)

theorem add_ofNat_ne_iff {stamp : UInt32} {n : Nat} : stamp + UInt32.ofNat n ≠ stamp ↔ ¬ 2 ^ 32 ∣ n := by
  have hstamp := stamp.toNat_lt
  rw [← UInt32.toNat_inj.ne, UInt32.toNat_add, UInt32.toNat_ofNat']
  omega

/-- A snapshot under a stamp from before some stores is stale from the start just if they hit cached code,
not a multiple of 2^32 times, and one of its chunks was dirty already or is one that a hit wrote to. A
store to chunks that nobody watched leaves no trace. -/
theorem check_register_eq_none_iff (t : StampTable) (p : UInt64) (mask : UInt32) (stores : List (UInt64 × Nat)) :
    ((t.storeAll stores).register p mask).check ⟨p, (t.page p).stamp, mask⟩ = none ↔
      p.toNat < t.pages.size ∧ ¬ 2 ^ 32 ∣ (t.hitsOn p stores).length ∧ ∃ j, hasChunk mask j = true ∧
        (hasChunk (t.page p).dirty j = true ∨ ∃ hit ∈ t.hitsOn p stores, hasChunk hit j = true) := by
  obtain ⟨hstamp, hdirty⟩ := t.page_storeAll p stores
  have hmeets : ∀ dirty : UInt32, dirty &&& mask ≠ 0 ↔ ∃ j, hasChunk mask j = true ∧ hasChunk dirty j = true := by
    intro dirty
    rw [UInt32.and_comm, Ne, and_eq_zero_iff]
    simp only [not_forall, Bool.not_eq_false, exists_prop]
  rw [check_eq_none_iff, size_register, size_storeAll]
  refine and_congr_right fun hin => ?_
  rw [PageState.current_eq_false_iff, hmeets]
  have hpage : ∀ s : PageState, ((t.storeAll stores).register p mask).page p = s →
      s.stamp = ((t.storeAll stores).page p).stamp ∧ s.dirty = ((t.storeAll stores).page p).dirty := by
    rintro s rfl
    rcases (t.storeAll stores).page_register p p mask with h | h <;> rw [h] <;> exact ⟨rfl, rfl⟩
  obtain ⟨hs, hd⟩ := hpage _ rfl
  rw [hs, hd, hstamp, add_ofNat_ne_iff]
  simp only [hdirty]

/-- A byte is stored between the reading of the stamp and the registration of its chunk. -/
example : (((ofPages 1).storeAll [(0, 1)]).register 0 1).check ⟨0, ((ofPages 1).page 0).stamp, 1⟩ = some 0 := by
  decide +kernel

end StampTable

end TraceCore
