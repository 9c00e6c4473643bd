/-
The bytes of a range as instructions are read from it: whatever part of the range memory has.
-/
import TraceCore.Memory.Ram

namespace TraceCore

/-- Bytes from `addr` to the end of its page. -/
def toPageEnd (addr : UInt64) : Nat := pageSize - pageOffset addr

namespace Ram

/-- At most `n` bytes from `addr` on, none behind the end of memory. -/
def slice (ram : Ram) (addr : UInt64) (n : Nat) : List UInt8 :=
  (ram.bytes.extract addr.toNat (addr.toNat + n)).toList

theorem getElem?_slice (ram : Ram) (addr : UInt64) (n i : Nat) :
    (ram.slice addr n)[i]? = if i < n then ram.bytes[addr.toNat + i]? else none := by
  rw [slice, Array.getElem?_toList, Array.getElem?_extract]
  split
  case isTrue h => rw [if_pos (by omega)]
  case isFalse h =>
    split
    case isTrue hi => rw [Array.getElem?_eq_none (by omega)]
    case isFalse => rfl

@[simp] theorem length_slice (ram : Ram) (addr : UInt64) (n : Nat) :
    (ram.slice addr n).length = min n (ram.bytes.size - addr.toNat) := by
  rw [slice, Array.length_toList, Array.size_extract]
  omega

/-- Ranges that hold the same bytes. -/
theorem slice_eq {ram ram' : Ram} {a b : UInt64} {n : Nat}
    (h : ∀ i < n, ram.bytes[a.toNat + i]? = ram'.bytes[b.toNat + i]?) : ram.slice a n = ram'.slice b n := by
  apply List.ext_getElem?
  intro i
  rw [getElem?_slice, getElem?_slice]
  split
  case isTrue hi => exact h i hi
  case isFalse => rfl

theorem take_slice (ram : Ram) (a : UInt64) (m n : Nat) : (ram.slice a n).take m = ram.slice a (min m n) := by
  apply List.ext_getElem?
  intro i
  rw [List.getElem?_take, getElem?_slice, getElem?_slice]
  by_cases hm : i < m
  · by_cases hn : i < n
    · rw [if_pos hm, if_pos hn, if_pos (by omega)]
    · rw [if_pos hm, if_neg hn, if_neg (by omega)]
  · rw [if_neg hm, if_neg (by omega)]

theorem toNat_pageBase (addr : UInt64) : (pageBase addr).toNat = addr.toNat / pageSize * pageSize := by
  have hmod : (addr % 4096).toNat = addr.toNat % 4096 := by simp
  have hle : addr % 4096 ≤ addr := by
    rw [UInt64.le_iff_toNat_le, hmod]; exact Nat.mod_le ..
  rw [pageBase, UInt64.toNat_sub_of_le _ _ hle, hmod]
  unfold pageSize
  omega

/-- A page is read as memory is. -/
theorem window_eq_slice {ram : Ram} {a b : UInt64} {page : PageView} (h : ram.page? a = some page)
    (hb : pageOf b = pageOf a) (n : Nat) :
    page.window (pageOffset b) n = ram.slice b (min n (toPageEnd b)) := by
  have hbase := toNat_pageBase a
  have hoff := pageOffset_eq b
  have hlt := pageOffset_lt b
  have hpage : b.toNat / pageSize = a.toNat / pageSize := by rw [← toNat_pageOf, ← toNat_pageOf, hb]
  dsimp only [page?] at h
  split at h
  case isFalse => cases h
  case isTrue hin =>
    simp only [Option.some.injEq] at h
    subst h
    simp only [PageView.window, slice, toPageEnd]
    congr 2 <;> unfold pageSize at * <;> omega

/-- Memory backs the page of an address when it has some byte of it. -/
theorem isSome_page? {ram : Ram} {addr : UInt64} : (ram.page? addr).isSome = true ↔ addr.toNat < ram.bytes.size := by
  have hbase := toNat_pageBase addr
  have haligned := ram.aligned
  dsimp only [page?]
  unfold pageSize at *
  constructor
  · intro h
    split at h
    case isTrue hin => omega
    case isFalse => cases h
  · intro h
    rw [dif_pos (by omega)]
    rfl

end Ram

end TraceCore
