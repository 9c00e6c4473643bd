/-
What user code may touch: the frames that some page gives to it, and among them those that it may store to. Two boards
that differ in other frames only answer alike to all that is asked of them at the user's privilege level.
-/
import TraceCore.Proofs.Fetch.View

namespace TraceCore

namespace MappedRam

/-- How the page of a linear address is mapped, if it is. -/
def mapping? (m : MappedRam) (linear : UInt64) : Option Mapping := m.mappings.bind (·[pageOf linear]?)

/-- Some page that the user may use lies in the frame of the byte at `n`. -/
def UserFrame (m : MappedRam) (n : Nat) : Prop :=
  ∃ linear mapping, m.mapping? linear = some mapping ∧ mapping.user = true ∧ n / pageSize = mapping.frame.toNat

/-- Some page that the user may store to lies in the frame of the byte at `n`. -/
def UserStore (m : MappedRam) (n : Nat) : Prop :=
  ∃ linear mapping, m.mapping? linear = some mapping ∧ mapping.user = true ∧ mapping.writable = true ∧
    n / pageSize = mapping.frame.toNat

/-- Mappings are in force, and the address of each frame is a physical address. -/
structure Framed (m : MappedRam) : Prop where
  mapped : m.mappings.isSome = true
  small : ∀ linear mapping, m.mapping? linear = some mapping → mapping.frame.toNat < 2 ^ 52

variable {m : MappedRam} {linear addr : UInt64} {access : Access}

theorem mapping?_congr {m' : MappedRam} (h : m'.mappings = m.mappings) (linear : UInt64) :
    m'.mapping? linear = m.mapping? linear := by
  unfold mapping?
  rw [h]

/-- What the user reaches lies in a frame that is given to it. -/
theorem Framed.granted (h : m.Framed) (htranslate : m.translate linear access 3 = .ok addr) {n : Nat}
    (hn : n / pageSize = addr.toNat / pageSize) : m.UserFrame n ∧ (access = .write → m.UserStore n) := by
  obtain ⟨mappings, hmappings⟩ := Option.isSome_iff_exists.1 h.mapped
  unfold translate at htranslate
  rw [hmappings] at htranslate
  dsimp only at htranslate
  cases hfound : mappings[pageOf linear]? with
  | none => rw [hfound] at htranslate; cases htranslate
  | some mapping =>
    rw [hfound] at htranslate
    dsimp only at htranslate
    split at htranslate
    case isFalse => cases htranslate
    case isTrue hallows =>
      cases htranslate
      have hmapping : m.mapping? linear = some mapping := by
        unfold mapping?
        rw [hmappings]
        exact hfound
      have hsmall := h.small linear mapping hmapping
      have hframe : n / pageSize = mapping.frame.toNat := by
        rw [hn, toNat_address]
        unfold pageSize
        omega
      unfold Mapping.allows at hallows
      simp only [Bool.and_eq_true, bne_self_eq_false, Bool.false_or] at hallows
      refine ⟨⟨linear, mapping, hmapping, hallows.2, hframe⟩, fun haccess => ?_⟩
      subst haccess
      exact ⟨linear, mapping, hmapping, hallows.2, hallows.1, hframe⟩

end MappedRam

/-! ## Pages that hold the same -/

/-- Pages of the same place that hold the same bytes are read alike. -/
theorem PageView.window_congr {page page' : PageView} (hstart : page'.start = page.start)
    (hbytes : ∀ k < pageSize, page'.bytes[page.start + k]? = page.bytes[page.start + k]?) (offset len : Nat) :
    page'.window offset len = page.window offset len := by
  have hin := page.inside
  have hin' := page'.inside
  unfold window
  dsimp only
  rw [hstart] at hin' ⊢
  have hlast : min (min offset pageSize + len) pageSize ≤ pageSize := Nat.min_le_right ..
  generalize min offset pageSize = first at hlast ⊢
  generalize min (first + len) pageSize = last at hlast ⊢
  apply List.ext_getElem?
  intro k
  rw [Array.getElem?_toList, Array.getElem?_toList, Array.getElem?_extract, Array.getElem?_extract,
    Nat.min_eq_left (Nat.le_trans (Nat.add_le_add_left hlast _) hin),
    Nat.min_eq_left (Nat.le_trans (Nat.add_le_add_left hlast _) hin')]
  split
  case isTrue hk =>
    rw [Nat.add_assoc]
    exact hbytes _ (by omega)
  case isFalse => rfl

/-- A run of instructions is decoded from what is read of the page. -/
theorem decodeRun_congr {decode : Decoder} {mode : FetchMode} {page page' : PageView} {meeting : UInt64 → Nat → Option Nat}
    (h : ∀ offset len, page'.window offset len = page.window offset len) (room : Nat) (addr : UInt64)
    (offset remaining : Nat) : decodeRun decode mode page' meeting room addr offset remaining =
      decodeRun decode mode page meeting room addr offset remaining := by
  induction room generalizing addr offset remaining with
  | zero => rfl
  | succ room ih =>
    unfold decodeRun
    simp only [h, ih]

/-! ## Boards that differ elsewhere -/

namespace Board

variable {γ δ : Type} {w₀ w v : Board γ δ} {addr : UInt64}

/-- What the user may reach is the same on both boards. -/
structure UserAlike (w v : Board γ δ) : Prop where
  mappings : v.mem.mappings = w.mem.mappings
  remaps : v.mem.remaps = w.mem.remaps
  stamps : v.mem.ram.stamps = w.mem.ram.stamps
  lines : v.lines = w.lines
  size : v.mem.ram.bytes.size = w.mem.ram.bytes.size
  bytes : ∀ n, w.mem.UserFrame n → v.mem.ram.bytes[n]? = w.mem.ram.bytes[n]?

/-- Only what the user may store to has changed since `w₀`, and the user cannot tell the two boards apart. -/
structure Isolated (w₀ w v : Board γ δ) : Prop where
  alike : w.UserAlike v
  mappings : w.mem.mappings = w₀.mem.mappings
  kept : ∀ n, ¬ w₀.mem.UserStore n → w.mem.ram.bytes[n]? = w₀.mem.ram.bytes[n]?

/-- The whole page of the address lies in a frame that is given to the user. -/
def UserPage (w₀ : Board γ δ) (addr : UInt64) : Prop :=
  ∀ n, n / pageSize = addr.toNat / pageSize → w₀.mem.UserFrame n

namespace Isolated

theorem refl (h : w.UserAlike v) : Isolated w w v := ⟨h, rfl, fun _ _ => rfl⟩

theorem bytes (h : Isolated w₀ w v) {n : Nat} (hn : w₀.mem.UserFrame n) :
    v.mem.ram.bytes[n]? = w.mem.ram.bytes[n]? := by
  refine h.alike.bytes n ?_
  obtain ⟨linear, mapping, hmapping, huser, hframe⟩ := hn
  exact ⟨linear, mapping, (MappedRam.mapping?_congr h.mappings linear).trans hmapping, huser, hframe⟩

theorem translate (h : Isolated w₀ w v) (linear : UInt64) (access : Access) (cpl : UInt8) :
    v.mem.translate linear access cpl = w.mem.translate linear access cpl :=
  MappedRam.translate_congr h.alike.mappings linear access cpl

theorem fits (h : Isolated w₀ w v) (addr : UInt64) (len : Nat) : v.mem.ram.fits addr len = w.mem.ram.fits addr len := by
  unfold Ram.fits Ram.size
  rw [h.alike.size]

theorem read (h : Isolated w₀ w v) (hpage : w₀.UserPage addr) {len : Nat} (hlen : len ≤ toPageEnd addr) :
    v.mem.ram.read addr len = w.mem.ram.read addr len := by
  have hslice : v.mem.ram.slice addr len = w.mem.ram.slice addr len := by
    refine Ram.slice_eq fun k hk => h.bytes (hpage _ ?_)
    have hoffset := pageOffset_eq addr
    unfold toPageEnd pageSize at *
    omega
  unfold Ram.read
  rw [h.fits, show v.mem.ram.size = w.mem.ram.size from h.alike.size]
  split
  case isTrue => exact congrArg Except.ok hslice
  case isFalse => rfl

/-- A page of the user is there on both boards or on neither, and instructions are read from it alike. -/
theorem page? (h : Isolated w₀ w v) (hpage : w₀.UserPage addr) :
    (w.mem.ram.page? addr = none ∧ v.mem.ram.page? addr = none) ∨ ∃ page page',
      w.mem.ram.page? addr = some page ∧ v.mem.ram.page? addr = some page' ∧
        ∀ offset len, page'.window offset len = page.window offset len := by
  unfold Ram.page?
  dsimp only
  by_cases hin : (pageBase addr).toNat + pageSize ≤ w.mem.ram.bytes.size
  · have hin' : (pageBase addr).toNat + pageSize ≤ v.mem.ram.bytes.size := by rwa [h.alike.size]
    rw [dif_pos hin, dif_pos hin']
    refine Or.inr ⟨_, _, rfl, rfl, PageView.window_congr rfl fun k hk => h.bytes (hpage _ ?_)⟩
    dsimp only
    rw [Ram.toNat_pageBase]
    unfold pageSize at *
    omega
  · have hin' : ¬ (pageBase addr).toNat + pageSize ≤ v.mem.ram.bytes.size := by rwa [h.alike.size]
    rw [dif_neg hin, dif_neg hin']
    exact Or.inl ⟨rfl, rfl⟩

theorem set (h : Isolated w₀ w v) (i : Nat) (e : Events) : Isolated w₀ ((line i).set e w) ((line i).set e v) := by
  refine ⟨⟨h.alike.mappings, h.alike.remaps, h.alike.stamps, ?_, h.alike.size, h.alike.bytes⟩, h.mappings, h.kept⟩
  exact congrArg (·.setIfInBounds i e) h.alike.lines

theorem mapStamps (h : Isolated w₀ w v) (f : StampTable → StampTable) :
    Isolated w₀ (bus.mapStamps f w) (bus.mapStamps f v) := by
  refine ⟨⟨h.alike.mappings, h.alike.remaps, ?_, h.alike.lines, h.alike.size, h.alike.bytes⟩, h.mappings, h.kept⟩
  exact congrArg f h.alike.stamps

/-- A store into a page that the user may store to stores the same on both boards, and nothing elsewhere. -/
theorem write (h : Isolated w₀ w v) {src : List UInt8}
    (hpage : ∀ n, n / pageSize = addr.toNat / pageSize → w₀.mem.UserStore n) (hlen : src.length ≤ toPageEnd addr) :
    (bus.write addr src w).1 = (bus.write addr src v).1 ∧
      Isolated w₀ (bus.write addr src w).2 (bus.write addr src v).2 := by
  have hfits := h.fits addr src.length
  have hsize := h.alike.size
  show (w.mem.write addr src).1 = (v.mem.write addr src).1 ∧
    Isolated w₀ { w with mem := (w.mem.write addr src).2 } { v with mem := (v.mem.write addr src).2 }
  unfold MappedRam.write Ram.write
  dsimp only
  rw [hfits]
  split
  case isFalse =>
    refine ⟨?_, h⟩
    show Except.error (MemoryError.outOfRange addr src.length w.mem.ram.bytes.size) = _
    rw [← hsize]
    rfl
  case isTrue =>
    refine ⟨rfl, ⟨h.alike.mappings, h.alike.remaps, ?_, h.alike.lines, ?_, fun n hn => ?_⟩, h.mappings, fun n hn => ?_⟩
    · exact congrArg (·.store addr src.length) h.alike.stamps
    · show (overwrite _ _ _).size = (overwrite _ _ _).size
      rw [size_overwrite, size_overwrite, hsize]
    · show (overwrite _ _ _)[n]? = (overwrite _ _ _)[n]?
      rw [getElem?_overwrite, getElem?_overwrite, hsize]
      split
      case isTrue => rfl
      case isFalse => exact h.alike.bytes n hn
    · show (overwrite _ _ _)[n]? = _
      rw [getElem?_overwrite]
      split
      case isFalse => exact h.kept n hn
      case isTrue hin =>
        refine absurd (hpage n ?_) hn
        have hoffset := pageOffset_eq addr
        unfold toPageEnd pageSize at *
        omega

end Isolated

end Board

end TraceCore
