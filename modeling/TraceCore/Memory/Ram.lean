/-
Guest memory: a whole number of pages of bytes, beside the stamp table that hears of every store.
-/
import TraceCore.Memory.Stamp
import TraceCore.Word

namespace TraceCore

/-! ## Bytes in an array -/

/-- Overwrites the bytes from position `i` on; what does not fit is dropped. -/
def overwrite (bytes : Array UInt8) (i : Nat) : List UInt8 → Array UInt8
  | [] => bytes
  | b :: bs => overwrite (bytes.setIfInBounds i b) (i + 1) bs

@[simp] theorem size_overwrite (bytes : Array UInt8) (i : Nat) (src : List UInt8) :
    (overwrite bytes i src).size = bytes.size := by
  induction src generalizing bytes i with
  | nil => rfl
  | cons b bs ih => simp [overwrite, ih]

/-- Inside the range, the new bytes; outside of it, the old ones. -/
theorem getElem?_overwrite (bytes : Array UInt8) (i j : Nat) (src : List UInt8) :
    (overwrite bytes i src)[j]? =
      if i ≤ j ∧ j < i + src.length ∧ j < bytes.size then src[j - i]? else bytes[j]? := by
  induction src generalizing bytes i with
  | nil =>
    rw [if_neg (by simp only [List.length_nil]; omega)]
    rfl
  | cons b bs ih =>
    rw [overwrite, ih, Array.size_setIfInBounds, List.length_cons]
    by_cases hin : i + 1 ≤ j ∧ j < i + 1 + bs.length ∧ j < bytes.size
    · rw [if_pos hin, if_pos (by omega), show j - i = j - (i + 1) + 1 by omega,
        List.getElem?_cons_succ]
    · rw [if_neg hin, Array.getElem?_setIfInBounds]
      by_cases hij : i = j
      · subst hij
        by_cases hsize : i < bytes.size <;> simp [hsize]
      · rw [if_neg hij, if_neg (by omega)]

/-! ## Views of one page -/

/-- One page of memory, to read instructions from. -/
structure PageView where
  bytes : Array UInt8
  start : Nat
  inside : start + pageSize ≤ bytes.size

namespace PageView

/-- A page of its own bytes; refuses any other size. -/
def ofBytes? (bytes : Array UInt8) : Option PageView :=
  if h : bytes.size = pageSize then some ⟨bytes, 0, by omega⟩ else none

/-- At most `len` bytes from `offset` on, none behind the end of the page. -/
def window (page : PageView) (offset len : Nat) : List UInt8 :=
  let first := min offset pageSize
  let last := min (first + len) pageSize
  (page.bytes.extract (page.start + first) (page.start + last)).toList

end PageView

/-! ## Memory -/

inductive MemoryError where
  /-- A byte of the range lies outside memory. -/
  | outOfRange (addr : UInt64) (len : Nat) (size : Nat)
  /-- The size cannot be rounded up to whole pages. -/
  | sizeTooLarge (size : UInt64)
deriving DecidableEq

namespace MemoryError

def message : MemoryError → String
  | outOfRange addr len size =>
    "guest memory access out of range: paddr=" ++ Word.hex addr.toNat ++ " len=" ++ toString len ++
      " size=" ++ Word.hex size
  | sizeTooLarge size => "guest memory size " ++ toString size.toNat ++ " does not fit in usize"

end MemoryError

/-- Memory of whole pages, and the table that is told of every store. -/
structure Ram where
  bytes : Array UInt8
  stamps : StampTable
  aligned : bytes.size % pageSize = 0

namespace Ram

/-- Zeroed memory of `size` bytes, rounded up to whole pages, that reports to `stamps`. -/
def withStamps (size : UInt64) (stamps : StampTable) : Except MemoryError Ram :=
  if size.toNat + (pageSize - 1) < UInt64.size then
    .ok ⟨Array.replicate ((size.toNat + (pageSize - 1)) / pageSize * pageSize) 0, stamps, by simp⟩
  else .error (.sizeTooLarge size)

/-- Zeroed memory with a stamp table of its own. -/
def ofSize (size : UInt64) : Except MemoryError Ram :=
  withStamps size (.ofBytes size.toNat)

def size (ram : Ram) : Nat := ram.bytes.size

/-- The range lies inside memory. -/
def fits (ram : Ram) (addr : UInt64) (len : Nat) : Bool := addr.toNat + len ≤ ram.size

/-- The bytes of a range that lies inside memory. -/
def read (ram : Ram) (addr : UInt64) (len : Nat) : Except MemoryError (List UInt8) :=
  if ram.fits addr len then .ok (ram.bytes.extract addr.toNat (addr.toNat + len)).toList
  else .error (.outOfRange addr len ram.size)

/-- Stores into memory and reports the store. -/
def store (ram : Ram) (addr : UInt64) (src : List UInt8) : Ram :=
  { bytes := overwrite ram.bytes addr.toNat src
    stamps := ram.stamps.store addr src.length
    aligned := by rw [size_overwrite]; exact ram.aligned }

/-- The store that a failed range check stops before it has any effect. -/
def write (ram : Ram) (addr : UInt64) (src : List UInt8) : Except MemoryError Unit × Ram :=
  if ram.fits addr src.length then (.ok (), ram.store addr src)
  else (.error (.outOfRange addr src.length ram.size), ram)

def readByte (ram : Ram) (addr : UInt64) : Except MemoryError UInt8 := (ram.read addr 1).map (·.headD 0)

def writeByte (ram : Ram) (addr : UInt64) (value : UInt8) : Except MemoryError Unit × Ram := ram.write addr [value]

/-- The page that holds `addr`, if memory backs it. -/
def page? (ram : Ram) (addr : UInt64) : Option PageView :=
  let start := (pageBase addr).toNat
  if h : start + pageSize ≤ ram.bytes.size then some ⟨ram.bytes, start, h⟩ else none

end Ram

end TraceCore
