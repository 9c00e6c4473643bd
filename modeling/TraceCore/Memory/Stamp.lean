/-
Write stamps: how a store into cached code is noticed without telling any cache.

Every page has three words. `code` holds the chunks that back cached code, `dirty` the chunks that
were written while they did, and `stamp` counts the stores that hit `code`. A trace keeps a
`Snapshot` of each page it was decoded from. The snapshot is current as long as the stamp stands
still, and also when it moved but none of the trace's own chunks is dirty. Dirty chunks stay dirty
until everything is forgotten, because an older snapshot of the same chunk may still lie in another
cache. Pages outside the table are never tracked: stores to them are ignored and their snapshots
are always current.
-/
import TraceCore.Memory.Page

namespace TraceCore

/-! ## One page -/

/-- Tracking words of one page. -/
structure PageState where
  code : UInt32 := 0
  dirty : UInt32 := 0
  stamp : UInt32 := 0
deriving DecidableEq, Inhabited

/-- What a trace remembers of a page: its stamp before the bytes were read, and the chunks they
were read from. -/
structure Snapshot where
  page : UInt64
  stamp : UInt32
  mask : UInt32
deriving DecidableEq, Inhabited

namespace PageState

/-- A store to the chunks `mask` hits cached code. -/
def hit (s : PageState) (mask : UInt32) : Bool := s.code &&& mask != 0

/-- The page after a store to the chunks `mask`: unchanged unless cached code was hit. -/
def store (s : PageState) (mask : UInt32) : PageState :=
  if s.hit mask then ⟨s.code &&& ~~~mask, s.dirty ||| mask, s.stamp + 1⟩ else s

/-- The page once the chunks `mask` back cached code. -/
def register (s : PageState) (mask : UInt32) : PageState :=
  { s with code := s.code ||| mask }

/-- Chunks `mask`, read when the stamp was `stamp`, still hold what was read. -/
def current (s : PageState) (stamp mask : UInt32) : Bool :=
  s.stamp == stamp || s.dirty &&& mask == 0

end PageState

/-! ## The table -/

/-- Tracking words of all pages, and a count that moves whenever a store hits cached code on one of
them and whenever everything is forgotten. While it stands still, no snapshot becomes stale. -/
structure StampTable where
  pages : Array PageState
  generation : Nat := 0

namespace StampTable

/-- A table of `n` untouched pages. -/
def ofPages (n : Nat) : StampTable := ⟨Array.replicate n {}, 0⟩

/-- A table for `bytes` bytes of memory, rounded up to whole pages. -/
def ofBytes (bytes : Nat) : StampTable := ofPages ((bytes + (pageSize - 1)) / pageSize)

/-- The words of page `p`, if it is tracked. -/
def page? (t : StampTable) (p : UInt64) : Option PageState := t.pages[p.toNat]?

/-- The words of page `p`; all zero when it is not tracked. -/
def page (t : StampTable) (p : UInt64) : PageState := (t.page? p).getD {}

/-- Marks the chunks `mask` of page `p` as cached code. -/
def register (t : StampTable) (p : UInt64) (mask : UInt32) : StampTable :=
  { t with pages := t.pages.modify p.toNat (·.register mask) }

/-- The page's present stamp, when what the snapshot was taken of is unchanged. -/
def check (t : StampTable) (snap : Snapshot) : Option UInt32 :=
  match t.page? snap.page with
  | none => some snap.stamp
  | some s => if s.current snap.stamp snap.mask then some s.stamp else none

/-- A store to the chunks `mask` of page `p`. -/
def storePage (t : StampTable) (p : UInt64) (mask : UInt32) : StampTable :=
  if (t.page p).hit mask then
    ⟨t.pages.modify p.toNat (·.store mask), t.generation + 1⟩
  else t

/-- A store of `len` bytes at `addr`, page by page. It ends at the first page that is not tracked
and at the end of the address space. -/
def store (t : StampTable) (addr : UInt64) (len : Nat) : StampTable :=
  if h : len = 0 then t
  else if t.pages.size ≤ (pageOf addr).toNat then t
  else
    let n := bytesInPage addr len
    let t := t.storePage (pageOf addr) (touchedChunks addr n)
    if addr.toNat + n < UInt64.size then t.store (addr + UInt64.ofNat n) (len - n) else t
termination_by len
decreasing_by
  have := bytesInPage_pos addr (Nat.pos_of_ne_zero h)
  have := bytesInPage_le addr len
  omega

/-- Forgets everything. Stamps start again from zero, so every cache that holds snapshots has to be
emptied with it. -/
def reset (t : StampTable) : StampTable :=
  ⟨Array.replicate t.pages.size {}, t.generation + 1⟩

@[simp] theorem size_storePage (t : StampTable) (p : UInt64) (mask : UInt32) :
    (t.storePage p mask).pages.size = t.pages.size := by
  unfold storePage; split <;> simp

@[simp] theorem size_register (t : StampTable) (p : UInt64) (mask : UInt32) :
    (t.register p mask).pages.size = t.pages.size := by
  simp [register]

theorem page?_register (t : StampTable) (p q : UInt64) (mask : UInt32) :
    (t.register p mask).page? q =
      if p = q then (t.page? q).map (·.register mask) else t.page? q := by
  simp only [page?, register, Array.getElem?_modify, UInt64.toNat_inj]

theorem page?_storePage (t : StampTable) (p q : UInt64) (mask : UInt32) :
    (t.storePage p mask).page? q =
      if p = q then (t.page? q).map (·.store mask) else t.page? q := by
  unfold storePage
  split
  case isTrue => simp only [page?, Array.getElem?_modify, UInt64.toNat_inj]
  case isFalse h =>
    split
    case isFalse => rfl
    case isTrue hpq =>
      subst hpq
      cases hp : t.page? p with
      | none => rfl
      | some s =>
        have hs : s.hit mask = false := by simpa [page, hp] using h
        simp [PageState.store, hs]

end StampTable

end TraceCore
