/-
Geometry of guest memory: pages of 4096 bytes, and the 32 chunks of 128 bytes in each of them that
code is tracked by. A set of chunks of one page is a 32-bit mask.
-/
namespace TraceCore

/-- Bytes in a page. -/
abbrev pageSize : Nat := 4096

/-- Bytes in a chunk, the unit in which cached code is tracked. -/
abbrev chunkSize : Nat := 128

/-- Chunks in a page. -/
abbrev chunksPerPage : Nat := 32

/-- Number of the page that holds `addr`. -/
def pageOf (addr : UInt64) : UInt64 := addr / 4096

/-- Position of `addr` in its page. -/
def pageOffset (addr : UInt64) : Nat := (addr % 4096).toNat

/-- First address of the page that holds `addr`. -/
def pageBase (addr : UInt64) : UInt64 := addr - addr % 4096

theorem pageOffset_eq (addr : UInt64) : pageOffset addr = addr.toNat % pageSize := by
  simp [pageOffset, pageSize]

theorem pageOffset_lt (addr : UInt64) : pageOffset addr < pageSize := by
  rw [pageOffset_eq]; exact Nat.mod_lt _ (by decide)

theorem toNat_pageOf (addr : UInt64) : (pageOf addr).toNat = addr.toNat / pageSize := by
  simp [pageOf, pageSize]

/-- The bytes of a `len`-byte range from `addr` that lie in the page of `addr`. -/
def bytesInPage (addr : UInt64) (len : Nat) : Nat :=
  min len (pageSize - pageOffset addr)

theorem bytesInPage_le (addr : UInt64) (len : Nat) : bytesInPage addr len ≤ len :=
  Nat.min_le_left ..

theorem bytesInPage_pos (addr : UInt64) {len : Nat} (h : 0 < len) : 0 < bytesInPage addr len := by
  have := pageOffset_lt addr
  unfold bytesInPage; omega

/-- The chunks that a `len`-byte range from `addr` touches in the page of `addr`. What lies behind
the end of the page is cut off, and an empty range touches none. -/
def touchedChunks (addr : UInt64) (len : Nat) : UInt32 :=
  if len = 0 then 0
  else
    let first := pageOffset addr / chunkSize
    let last := min (pageOffset addr + (len - 1)) (pageSize - 1) / chunkSize
    (0xFFFFFFFF >>> UInt32.ofNat (chunksPerPage - 1 - last)) &&&
      (0xFFFFFFFF <<< UInt32.ofNat first)

end TraceCore
