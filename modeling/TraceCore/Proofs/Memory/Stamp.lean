/-
What a store does to the stamp table, and what a snapshot is worth. A store hits each page once,
with the chunks it touches there. A snapshot that was taken no later than now, and whose chunks are
watched as long as it is current, keeps both properties under every store, and a store that leaves
it current touched none of its chunks. Both need that no 32-bit stamp comes round; `lag` measures
that on the table itself.
-/
import TraceCore.Memory.Stamp
import TraceCore.Proofs.Memory.Chunk

namespace TraceCore

/-! ## The chunks of a range, page by page -/

/-- The chunks that a `len`-byte range from `addr` touches in page `q`. -/
def chunksIn (addr : UInt64) (len : Nat) (q : UInt64) : UInt32 :=
  if pageOf addr = q then touchedChunks addr len
  else if pageOf addr < q then touchedChunks 0 (addr.toNat + len - q.toNat * pageSize)
  else 0

theorem hasChunk_chunksIn (addr : UInt64) (len : Nat) (q : UInt64) (j : Nat) :
    hasChunk (chunksIn addr len q) j = true ↔
      ∃ x, addr.toNat ≤ x ∧ x < addr.toNat + len ∧ x / pageSize = q.toNat ∧ x % pageSize / chunkSize = j := by
  have hp := toNat_pageOf addr
  have ho := pageOffset_eq addr
  unfold chunksIn
  split
  case isTrue h =>
    subst h
    rw [hasChunk_touchedChunks, hp, ho]
    unfold pageSize chunkSize
    constructor
    · rintro ⟨y, h1, h2, h3, rfl⟩
      exact ⟨addr.toNat / 4096 * 4096 + y, by omega, by omega, by omega, by omega⟩
    · rintro ⟨x, h1, h2, h3, rfl⟩
      exact ⟨x % 4096, by omega, by omega, by omega, rfl⟩
  case isFalse h =>
    have hne : (pageOf addr).toNat ≠ q.toNat := fun e => h (UInt64.toNat_inj.1 e)
    rw [hp] at hne
    split
    case isTrue hlt =>
      have hlt : (pageOf addr).toNat < q.toNat := UInt64.lt_iff_toNat_lt.1 hlt
      rw [hp] at hlt
      rw [hasChunk_touchedChunks, show pageOffset 0 = 0 from rfl]
      unfold pageSize chunkSize at *
      constructor
      · rintro ⟨y, -, h2, h3, rfl⟩
        exact ⟨q.toNat * 4096 + y, by omega, by omega, by omega, by omega⟩
      · rintro ⟨x, h1, h2, h3, rfl⟩
        exact ⟨x % 4096, by omega, by omega, by omega, rfl⟩
    case isFalse hge =>
      have hge : ¬ (pageOf addr).toNat < q.toNat := fun e => hge (UInt64.lt_iff_toNat_lt.2 e)
      rw [hp] at hge
      simp only [hasChunk_zero, Bool.false_eq_true, false_iff]
      rintro ⟨x, h1, h2, h3, -⟩
      unfold pageSize at *
      omega

theorem chunksIn_eq {a b : UInt64} {m n : Nat} {q : UInt64}
    (h : ∀ x, x / pageSize = q.toNat → (a.toNat ≤ x ∧ x < a.toNat + m ↔ b.toNat ≤ x ∧ x < b.toNat + n)) :
    chunksIn a m q = chunksIn b n q := by
  apply eq_of_hasChunk
  intro j
  rw [Bool.eq_iff_iff, hasChunk_chunksIn, hasChunk_chunksIn]
  constructor
  · rintro ⟨x, h1, h2, h3, h4⟩
    exact ⟨x, ((h x h3).1 ⟨h1, h2⟩).1, ((h x h3).1 ⟨h1, h2⟩).2, h3, h4⟩
  · rintro ⟨x, h1, h2, h3, h4⟩
    exact ⟨x, ((h x h3).2 ⟨h1, h2⟩).1, ((h x h3).2 ⟨h1, h2⟩).2, h3, h4⟩

theorem chunksIn_eq_zero {addr : UInt64} {len : Nat} {q : UInt64}
    (h : ∀ x, addr.toNat ≤ x → x < addr.toNat + len → x / pageSize ≠ q.toNat) : chunksIn addr len q = 0 := by
  apply eq_of_hasChunk
  intro j
  rw [Bool.eq_iff_iff, hasChunk_chunksIn]
  simp only [hasChunk_zero, Bool.false_eq_true, iff_false]
  rintro ⟨x, h1, h2, h3, -⟩
  exact h x h1 h2 h3

theorem chunksIn_bytesInPage (addr : UInt64) (len : Nat) :
    touchedChunks addr (bytesInPage addr len) = chunksIn addr len (pageOf addr) := by
  have hp := toNat_pageOf addr
  have ho := pageOffset_eq addr
  rw [show touchedChunks addr (bytesInPage addr len) = chunksIn addr (bytesInPage addr len) (pageOf addr) by
    simp [chunksIn]]
  apply chunksIn_eq
  intro x hx
  unfold bytesInPage pageSize at *
  rw [hp] at hx
  omega

theorem toNat_add_bytesInPage {addr : UInt64} {len : Nat} (h : addr.toNat + bytesInPage addr len < 2 ^ 64) :
    (addr + UInt64.ofNat (bytesInPage addr len)).toNat = addr.toNat + bytesInPage addr len := by
  rw [UInt64.toNat_add, UInt64.toNat_ofNat']
  omega

/-- What lies behind the first page of a range touches nothing in it. -/
theorem chunksIn_rest_self {addr : UInt64} {len : Nat} (h : addr.toNat + bytesInPage addr len < 2 ^ 64) :
    chunksIn (addr + UInt64.ofNat (bytesInPage addr len)) (len - bytesInPage addr len) (pageOf addr) = 0 := by
  have hp := toNat_pageOf addr
  have ho := pageOffset_eq addr
  apply chunksIn_eq_zero
  intro x h1 h2
  rw [toNat_add_bytesInPage h] at h1 h2
  rw [hp]
  unfold bytesInPage pageSize at *
  omega

/-- In the other pages it touches what the whole range does. -/
theorem chunksIn_rest {addr q : UInt64} {len : Nat} (h : addr.toNat + bytesInPage addr len < 2 ^ 64)
    (hq : pageOf addr ≠ q) :
    chunksIn (addr + UInt64.ofNat (bytesInPage addr len)) (len - bytesInPage addr len) q = chunksIn addr len q := by
  have hp := toNat_pageOf addr
  have ho := pageOffset_eq addr
  have hne : (pageOf addr).toNat ≠ q.toNat := fun e => hq (UInt64.toNat_inj.1 e)
  apply chunksIn_eq
  intro x hx
  rw [toNat_add_bytesInPage h]
  unfold bytesInPage pageSize at *
  omega

/-- A range whose first page ends with the address space touches no other. -/
theorem chunksIn_of_end {addr q : UInt64} {len : Nat} (h : 2 ^ 64 ≤ addr.toNat + bytesInPage addr len)
    (hq : pageOf addr ≠ q) (hlt : q.toNat < 2 ^ 52) : chunksIn addr len q = 0 := by
  have hp := toNat_pageOf addr
  have ho := pageOffset_eq addr
  have haddr := addr.toNat_lt
  have hne : (pageOf addr).toNat ≠ q.toNat := fun e => hq (UInt64.toNat_inj.1 e)
  apply chunksIn_eq_zero
  intro x h1 h2
  unfold bytesInPage pageSize at *
  omega

/-- A range touches no page in front of its own. -/
theorem chunksIn_of_lt {addr q : UInt64} {len : Nat} (h : q.toNat < (pageOf addr).toNat) : chunksIn addr len q = 0 := by
  have hp := toNat_pageOf addr
  apply chunksIn_eq_zero
  intro x h1 h2
  unfold pageSize at *
  omega

theorem chunksIn_empty (addr q : UInt64) : chunksIn addr 0 q = 0 :=
  chunksIn_eq_zero fun x h1 h2 => by omega

/-! ## One page under a store -/

namespace PageState

/-- A snapshot of the chunks `mask` under stamp `stamp`: it is not from the future, and its chunks
are watched while it is current. -/
structure Watches (s : PageState) (stamp mask : UInt32) : Prop where
  past : stamp.toNat ≤ s.stamp.toNat
  code : s.current stamp mask = true → ∀ j, hasChunk mask j = true → hasChunk s.code j = true

theorem store_zero (s : PageState) : s.store 0 = s := by
  simp [store, hit]

theorem store_of_hit {s : PageState} {k : UInt32} (h : s.hit k = true) :
    s.store k = ⟨s.code &&& ~~~k, s.dirty ||| k, s.stamp + 1⟩ := by
  simp [store, h]

theorem store_of_not_hit {s : PageState} {k : UInt32} (h : s.hit k = false) : s.store k = s := by
  simp [store, h]

theorem hit_eq_false_iff {s : PageState} {k : UInt32} :
    s.hit k = false ↔ ∀ j, hasChunk s.code j = true → hasChunk k j = false := by
  rw [← and_eq_zero_iff]; simp [hit]

/-- The stamp after a hit, unless it comes round. -/
theorem toNat_stamp_add_one {s : UInt32} (h : s.toNat ≤ (s + 1).toNat) : (s + 1).toNat = s.toNat + 1 := by
  rw [UInt32.toNat_add, show (1 : UInt32).toNat = 1 from rfl] at h ⊢
  have := s.toNat_lt
  omega

/-- A snapshot survives a store only if the store missed its chunks, and it stays watched. -/
theorem Watches.store {s : PageState} {stamp mask k : UInt32} (h : s.Watches stamp mask)
    (hk : s.stamp.toNat ≤ (s.store k).stamp.toNat) :
    (s.store k).Watches stamp mask ∧
      ((s.store k).current stamp mask = true → s.current stamp mask = true ∧ ∀ j, hasChunk mask j = true →
        hasChunk k j = false) := by
  cases hit : s.hit k with
  | false =>
    rw [store_of_not_hit hit]
    refine ⟨h, fun hc => ⟨hc, fun j hj => ?_⟩⟩
    exact hit_eq_false_iff.1 hit j (h.code hc j hj)
  | true =>
    rw [store_of_hit hit] at hk ⊢
    have hstamp := toNat_stamp_add_one hk
    have hpast := h.past
    have key : PageState.current ⟨s.code &&& ~~~k, s.dirty ||| k, s.stamp + 1⟩ stamp mask = true →
        s.current stamp mask = true ∧ ∀ j, hasChunk mask j = true → hasChunk k j = false := by
      intro hc
      have hne : ¬ s.stamp + 1 = stamp := by
        rintro rfl; omega
      unfold current at hc ⊢
      simp only [Bool.or_eq_true, beq_iff_eq, hne, false_or] at hc ⊢
      have hboth : ∀ j, hasChunk mask j = true → hasChunk s.dirty j = false ∧ hasChunk k j = false := by
        intro j hj
        rw [UInt32.and_comm] at hc
        have := and_eq_zero_iff.1 hc j hj
        rw [hasChunk_or, Bool.or_eq_false_iff] at this
        exact this
      refine ⟨Or.inr ?_, fun j hj => (hboth j hj).2⟩
      rw [UInt32.and_comm]
      exact and_eq_zero_iff.2 fun j hj => (hboth j hj).1
    refine ⟨⟨by simp only; omega, fun hc j hj => ?_⟩, key⟩
    obtain ⟨hcur, hmiss⟩ := key hc
    rw [hasChunk_diff, h.code hcur j hj, hmiss j hj]; rfl

/-- Registering chunks watches them, and makes no snapshot stale or current. -/
theorem Watches.register {s : PageState} {stamp mask : UInt32} (h : s.Watches stamp mask) (k : UInt32) :
    (s.register k).Watches stamp mask :=
  ⟨h.past, fun hc j hj => by
    show hasChunk (s.code ||| k) j = true
    rw [hasChunk_or, h.code hc j hj]; rfl⟩

theorem watches_register (s : PageState) (mask : UInt32) : (s.register mask).Watches s.stamp mask :=
  ⟨le_refl _, fun _ j hj => by
    show hasChunk (s.code ||| mask) j = true
    rw [hasChunk_or, hj, Bool.or_true]⟩

/-- A current snapshot may take over the present stamp. -/
theorem Watches.adopt {s : PageState} {stamp mask : UInt32} (h : s.Watches stamp mask)
    (hc : s.current stamp mask = true) : s.Watches s.stamp mask :=
  ⟨le_refl _, fun _ => h.code hc⟩

end PageState

/-! ## The table under a store -/

namespace StampTable

@[simp] theorem size_store (t : StampTable) (addr : UInt64) (len : Nat) :
    (t.store addr len).pages.size = t.pages.size := by
  fun_induction store t addr len with
  | case1 => rfl
  | case2 => rfl
  | case3 t addr len _ _ n t' _ ih => rw [ih, size_storePage]
  | case4 => exact size_storePage ..

theorem page?_eq_none_iff {t : StampTable} {q : UInt64} : t.page? q = none ↔ t.pages.size ≤ q.toNat := by
  simp [page?]

/-- A store hits each tracked page once, with the chunks that it touches there. -/
theorem page?_store (t : StampTable) (addr : UInt64) (len : Nat) {q : UInt64} (hq : q.toNat < 2 ^ 52) :
    (t.store addr len).page? q = (t.page? q).map (·.store (chunksIn addr len q)) := by
  fun_induction store t addr len with
  | case1 t addr =>
    rw [chunksIn_empty]
    simp [PageState.store_zero]
  | case2 t addr len hlen hout =>
    cases h : t.page? q with
    | none => rfl
    | some s =>
      have hin : q.toNat < t.pages.size := by
        by_contra hge
        rw [page?_eq_none_iff.2 (by omega)] at h; cases h
      rw [chunksIn_of_lt (by omega)]
      simp [PageState.store_zero]
  | case3 t addr len hlen hin n t' hend ih =>
    rw [ih, show t'.page? q = _ from page?_storePage t (pageOf addr) q _]
    split
    case isTrue hpq =>
      subst hpq
      rw [Option.map_map, chunksIn_rest_self hend, chunksIn_bytesInPage]
      congr 1
      funext s
      exact PageState.store_zero _
    case isFalse hpq => rw [chunksIn_rest hend hpq]
  | case4 t addr len hlen hin n t' hend =>
    rw [page?_storePage]
    split
    case isTrue hpq => subst hpq; rw [chunksIn_bytesInPage]
    case isFalse hpq =>
      rw [chunksIn_of_end (Nat.le_of_not_lt hend) hpq hq]
      cases t.page? q <;> simp [PageState.store_zero]

theorem stamp_page_register (t : StampTable) (p q : UInt64) (mask : UInt32) :
    ((t.register p mask).page q).stamp = (t.page q).stamp := by
  unfold page
  rw [page?_register]
  split
  · cases t.page? q <;> rfl
  · rfl

/-! ## The generation -/

theorem generation_storePage (t : StampTable) (p : UInt64) (mask : UInt32) :
    t.generation ≤ (t.storePage p mask).generation ∧
      ((t.storePage p mask).generation = t.generation → t.storePage p mask = t) := by
  unfold storePage
  split
  · exact ⟨Nat.le_succ _, fun h => absurd h (Nat.succ_ne_self _)⟩
  · exact ⟨le_refl _, fun _ => rfl⟩

/-- The generation only grows, and a store that leaves it leaves the table. -/
theorem generation_store (t : StampTable) (addr : UInt64) (len : Nat) :
    t.generation ≤ (t.store addr len).generation ∧
      ((t.store addr len).generation = t.generation → t.store addr len = t) := by
  fun_induction store t addr len with
  | case1 => exact ⟨le_refl _, fun _ => rfl⟩
  | case2 => exact ⟨le_refl _, fun _ => rfl⟩
  | case3 t addr len _ _ n t' _ ih =>
    obtain ⟨hle, heq⟩ := generation_storePage t (pageOf addr) (touchedChunks addr n)
    obtain ⟨hle', heq'⟩ := ih
    have : t.generation ≤ t'.generation := hle
    refine ⟨le_trans hle hle', fun h => ?_⟩
    rw [heq' (by omega)]
    exact heq (show t'.generation = t.generation by omega)
  | case4 => exact generation_storePage ..

/-! ## Stamps that come round -/

/-- How many of the stores into cached code the stamps do not show. They have 32 bits, so each time
that one of them comes round it is 2^32 short. -/
def lag (t : StampTable) : Int := t.generation - (t.pages.toList.map fun s => (s.stamp.toNat : Int)).sum

/-- No stamp falls. -/
def Rises (t t' : StampTable) : Prop :=
  ∀ q s s', t.page? q = some s → t'.page? q = some s' → s.stamp.toNat ≤ s'.stamp.toNat

theorem Rises.refl (t : StampTable) : t.Rises t := by
  intro q s s' h h'
  rw [h] at h'; cases h'
  exact le_refl _

theorem Rises.trans {t u v : StampTable} (h : t.Rises u) (h' : u.Rises v) (hsize : u.pages.size = t.pages.size) :
    t.Rises v := by
  intro q s s' hs hs'
  cases hu : u.page? q with
  | none =>
    rw [page?_eq_none_iff, hsize, ← page?_eq_none_iff, hs] at hu
    cases hu
  | some r => exact le_trans (h q s r hs hu) (h' q r s' hu hs')

theorem sum_map_modify {α : Type} (g : α → Int) (f : α → α) {l : List α} {i : Nat} {a : α} (h : l[i]? = some a) :
    ((l.modify i f).map g).sum = (l.map g).sum + (g (f a) - g a) := by
  induction l generalizing i with
  | nil => simp at h
  | cons b l ih =>
    cases i with
    | zero =>
      simp only [List.getElem?_cons_zero, Option.some.injEq] at h
      subst h
      simp only [List.modify_zero_cons, List.map_cons, List.sum_cons]
      omega
    | succ i =>
      simp only [List.getElem?_cons_succ] at h
      simp only [List.modify_succ_cons, List.map_cons, List.sum_cons, ih h]
      omega

/-- A hit moves generation and stamp alike, unless the stamp comes round. -/
theorem lag_storePage (t : StampTable) (p : UInt64) (mask : UInt32) :
    (t.storePage p mask).lag = t.lag ∧ t.Rises (t.storePage p mask) ∨
      (t.storePage p mask).lag = t.lag + 2 ^ 32 := by
  cases hit : (t.page p).hit mask with
  | false =>
    left
    rw [show t.storePage p mask = t by simp [storePage, hit]]
    exact ⟨rfl, Rises.refl t⟩
  | true =>
    cases hp : t.page? p with
    | none => simp [page, hp, PageState.hit] at hit
    | some s =>
      have hs : s.hit mask = true := by simpa [page, hp] using hit
      have hlag : (t.storePage p mask).lag = t.lag + 1 - ((s.stamp + 1).toNat - s.stamp.toNat) := by
        have hp' : t.pages.toList[p.toNat]? = some s := by rw [Array.getElem?_toList]; exact hp
        simp only [lag, storePage, hit, if_true, Array.toList_modify, sum_map_modify _ _ hp',
          PageState.store_of_hit hs]
        push_cast
        omega
      have hadd := UInt32.toNat_add s.stamp 1
      rw [show (1 : UInt32).toNat = 1 from rfl] at hadd
      by_cases hwrap : s.stamp.toNat + 1 < 2 ^ 32
      · left
        refine ⟨by omega, fun q r r' hr hr' => ?_⟩
        rw [page?_storePage] at hr'
        split at hr'
        case isTrue hpq =>
          subst hpq
          rw [hp, Option.map_some, PageState.store_of_hit hs] at hr'
          rw [hp] at hr
          cases hr; cases hr'
          simp only
          omega
        case isFalse =>
          rw [hr] at hr'; cases hr'
          exact le_refl _
      · right
        have := s.stamp.toNat_lt
        omega

/-- A store that adds nothing to the lag lets no stamp fall. -/
theorem lag_store (t : StampTable) (addr : UInt64) (len : Nat) :
    ∃ k : Nat, (t.store addr len).lag = t.lag + 2 ^ 32 * k ∧ (k = 0 → t.Rises (t.store addr len)) := by
  fun_induction store t addr len with
  | case1 t => exact ⟨0, by omega, fun _ => Rises.refl t⟩
  | case2 t => exact ⟨0, by omega, fun _ => Rises.refl t⟩
  | case3 t addr len _ _ n t' _ ih =>
    obtain ⟨k, hk, hrise⟩ := ih
    rcases lag_storePage t (pageOf addr) (touchedChunks addr n) with ⟨hlag, hr⟩ | hlag
    · have hlag : t'.lag = t.lag := hlag
      exact ⟨k, by omega, fun h => hr.trans (hrise h) (size_storePage ..)⟩
    · have hlag : t'.lag = t.lag + 2 ^ 32 := hlag
      exact ⟨k + 1, by push_cast; omega, fun h => absurd h (Nat.succ_ne_zero k)⟩
  | case4 t addr len _ _ n t' _ =>
    rcases lag_storePage t (pageOf addr) (touchedChunks addr n) with ⟨hlag, hr⟩ | hlag
    · have hlag : t'.lag = t.lag := hlag
      exact ⟨0, by omega, fun _ => hr⟩
    · have hlag : t'.lag = t.lag + 2 ^ 32 := hlag
      exact ⟨1, by omega, fun h => absurd h Nat.one_ne_zero⟩

@[simp] theorem lag_register (t : StampTable) (p : UInt64) (mask : UInt32) : (t.register p mask).lag = t.lag := by
  cases hp : t.pages.toList[p.toNat]? with
  | none =>
    have : t.register p mask = t := by
      have hsize : t.pages.size ≤ p.toNat := by simpa using hp
      simp only [register]
      congr 1
      apply Array.ext_getElem?
      intro i
      rw [Array.getElem?_modify]
      split
      case isTrue h => subst h; rw [Array.getElem?_eq_none hsize]; rfl
      case isFalse => rfl
    rw [this]
  | some s =>
    simp only [lag, register, Array.toList_modify, sum_map_modify _ _ hp]
    simp [PageState.register]

end StampTable

end TraceCore
