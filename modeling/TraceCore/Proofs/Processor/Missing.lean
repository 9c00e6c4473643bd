/-
Memory where pages are missing. What can be fetched with all pages is fetched in the same way, or fetching
faults on a missing page, be it that of the first bytes or the next.
-/
import Mathlib.Data.Finset.Card
import TraceCore.Proofs.Exec.Restart
import TraceCore.Proofs.Processor.Finish

namespace TraceCore

namespace MappedRam

variable {m m' m₁ : MappedRam} {c c' : Cpu} {instr : Instr} {rip addr linear : UInt64} {n : Nat}

/-! ## Fetching -/

theorem Within.slice (h : m'.Within m) (addr : UInt64) (n : Nat) : m'.ram.slice addr n = m.ram.slice addr n := by
  unfold Ram.slice
  rw [h.bytes]

theorem Within.fetchView (h : m'.Within m) (hview : m.fetchView c rip = .ok (addr, n)) :
    m'.fetchView c rip = .ok (addr, n) ∨
      ∃ linear, m'.Lacks m linear .execute c.cpl ∧
        m'.fetchView c rip = .error (.page (.of linear false .execute c.cpl)) := by
  obtain ⟨linear, bias, size, hat, htr, hpage, hn⟩ := Board.fetchView_eq_ok.1 hview
  rcases h.page htr with hok | hlacks
  · left
    refine Board.fetchView_eq_ok.2 ⟨linear, bias, size, hat, hok, ?_, hn⟩
    rw [Ram.isSome_page?] at hpage ⊢
    rwa [h.bytes]
  · refine Or.inr ⟨linear, hlacks, ?_⟩
    unfold MappedRam.fetchView
    rw [hat]
    dsimp only
    rw [hlacks.missing]

/-- The page at `linear` cannot be fetched from, which the instruction needs for its first bytes or for those
behind the first window. -/
inductive Misses (m : MappedRam) (c : Cpu) (instr : Instr) (linear : UInt64) : Prop
  | head (view : m.fetchView c c.rip = .error (.page (.of linear false .execute c.cpl)))
  | tail (addr : UInt64) (n : Nat) (rest : List UInt8) (view : m.fetchView c c.rip = .ok (addr, n))
    (crosses : n < instr.len)
      (decodes : decodeInstr (m.ram.slice addr n ++ rest) c.fetchMode = .complete instr)
      (next : m.fetchView c (c.rip + UInt64.ofNat n) = .error (.page (.of linear false .execute c.cpl)))

theorem Within.offers (h : m'.Within m) (ho : m.Offers c instr) :
    m'.Offers c instr ∨ ∃ linear, m'.Lacks m linear .execute c.cpl ∧ m'.Misses c instr linear := by
  cases ho with
  | inside addr n view fits decodes =>
    rcases h.fetchView view with hview | ⟨linear, hlacks, herror⟩
    · exact Or.inl (.inside addr n hview fits (Ram.decode_congr decodes (h.slice addr _)))
    · exact Or.inr ⟨linear, hlacks, .head herror⟩
  | across addr n addr' n' view crosses reaches next fits decodes =>
    rw [← h.slice, ← h.slice] at decodes
    rcases h.fetchView view with hview | ⟨linear, hlacks, herror⟩
    · rcases h.fetchView next with hnext | ⟨linear, hlacks, herror⟩
      · exact Or.inl (.across addr n addr' n' hview crosses reaches hnext fits decodes)
      · exact Or.inr ⟨linear, hlacks, .tail addr n _ hview crosses decodes herror⟩
    · exact Or.inr ⟨linear, hlacks, .head herror⟩

/-- As long as nothing is taken from the mappings, what was there is not missing. -/
theorem Offers.not_misses (h : m.Offers c instr) (hc : c.SameContext c') (hrip : c'.rip = c.rip) (hgrows : m.Grows m₁)
    (hsize : m₁.ram.bytes.size = m.ram.bytes.size) : ¬ m₁.Misses c' instr linear := by
  have hview : ∀ {rip addr n}, m.fetchView c rip = .ok (addr, n) → m₁.fetchView c' rip = .ok (addr, n) := fun hv => by
    rw [hc.sameFetch.fetchView]
    exact hgrows.fetchView hsize hv
  intro hmisses
  have hhead : ∃ addr n, m.fetchView c c.rip = .ok (addr, n) ∧
      (instr.len ≤ n ∨ ∃ addr' n', m.fetchView c (c.rip + UInt64.ofNat n) = .ok (addr', n')) := by
    cases h with
    | inside addr n view fits => exact ⟨addr, n, view, Or.inl fits⟩
    | across addr n addr' n' view _ _ next => exact ⟨addr, n, view, Or.inr ⟨addr', n', next⟩⟩
  obtain ⟨addr, n, hfirst, hrest⟩ := hhead
  have hfirst := hview hfirst
  rw [← hrip] at hfirst
  cases hmisses with
  | head view => rw [hfirst] at view; cases view
  | tail addr₁ n₁ rest view crosses decodes next =>
    rw [hfirst] at view
    cases view
    rcases hrest with hfits | ⟨addr', n', hnext⟩
    · omega
    · rw [hrip, hview hnext] at next
      cases next

end MappedRam

namespace Processor

variable {γ δ : Type} {d : Delivery (Board γ δ)} {i : Nat} {p : Processor} {w : Board γ δ} {instr : Instr}
    {linear : UInt64}

theorem refetch_of_misses (hdecode : p.decode = decodeInstr) (h : w.mem.Misses p.cpu instr linear) :
    (p.refetch (Board.unwatched d i) w).1 = .error (.fetch (.page (.of linear false .execute p.cpu.cpl))) := by
  cases h with
  | head view => exact refetch_error view
  | tail addr n rest view crosses decodes next =>
    have hopen := (Board.openWindow_eq_error (.none : Guard (Board γ δ))).2 next
    obtain ⟨hpos, hend, -⟩ := Board.fetchView_le view
    rw [refetch_ok Guard.quiet_none view, hdecode]
    refine TraceCache.decodeAt_of_error ⟨addr, p.cpu.fetchMode, p.cpu.rip, n⟩ hpos hend crosses
      (MappedRam.window_length view)
      decodes ?_
    unfold Board.nextWindow
    dsimp only
    rw [hopen]
    rfl

/-! ## The window at a boundary -/

end Processor

/-! ## Pages that are where their numbers say -/

theorem Mapping.address_pageOf (linear : UInt64) : ({ frame := pageOf linear } : Mapping).address linear = linear := by
  apply UInt64.toNat_inj.1
  rw [toNat_address, toNat_pageOf]
  have := linear.toNat_lt
  unfold pageSize
  omega

theorem Mapping.allows_rwx (frame : UInt64) (access : Access) (cpl : UInt8) :
    ({ frame } : Mapping).allows access cpl = true := by
  cases access <;> simp [allows]

/-- Mappings are in force, and every page that is mapped can be used for everything at its own address. -/
def Layout.rwx : Layout where
  holds mappings := ∃ M : Std.HashMap UInt64 Mapping, mappings = some M ∧
    ∀ page (f : Mapping), M[page]? = some f → f = { frame := page }
  identical := by
    rintro m ⟨M, hM, hown⟩ linear access cpl addr ha
    unfold MappedRam.translate at ha
    rw [hM] at ha
    dsimp only at ha
    split at ha
    case h_1 => cases ha
    case h_2 f hf =>
      obtain rfl := hown _ f hf
      rw [if_pos (Mapping.allows_rwx ..), Mapping.address_pageOf] at ha
      cases ha
      rfl

namespace MappedRam

variable {m m' : MappedRam} {linear addr : UInt64} {access : Access} {cpl : UInt8}

/-- The pages that are mapped. -/
def pages (m : MappedRam) : Finset UInt64 :=
  match m.mappings with
  | none => ∅
  | some M => M.keys.toFinset

theorem mem_pages {M : Std.HashMap UInt64 Mapping} (hM : m.mappings = some M) (page : UInt64) :
    page ∈ m.pages ↔ M[page]?.isSome := by
  unfold pages
  rw [hM]
  simp

/-- Under such mappings, what is missing is a page. -/
theorem translate_rwx (h : Layout.rwx.holds m.mappings) (linear : UInt64) (access : Access) (cpl : UInt8) :
    m.translate linear access cpl =
      if pageOf linear ∈ m.pages then .ok linear else .error (.of linear false access cpl) := by
  obtain ⟨M, hM, hown⟩ := h
  rw [ite_congr (propext (mem_pages hM _)) (fun _ => rfl) fun _ => rfl]
  unfold translate
  rw [hM]
  dsimp only
  cases hf : M[pageOf linear]? with
  | none => rfl
  | some f =>
    obtain rfl := hown _ f hf
    dsimp only
    rw [if_pos (Mapping.allows_rwx ..), Mapping.address_pageOf]
    rfl

theorem within_rwx (hbytes : m'.ram.bytes = m.ram.bytes) (h : Layout.rwx.holds m.mappings)
    (h' : Layout.rwx.holds m'.mappings) :
    m'.Within m := by
  refine ⟨hbytes, fun linear access cpl addr ha => ?_⟩
  rw [translate_rwx h] at ha
  rw [translate_rwx h']
  split at ha
  case isFalse => cases ha
  case isTrue =>
    cases ha
    split
    · exact Or.inl rfl
    · exact Or.inr rfl

/-- The page of `linear` with its own frame. -/
def restore (m : MappedRam) (linear : UInt64) : MappedRam := m.map linear { frame := pageOf linear }

theorem rwx_restore (h : Layout.rwx.holds m.mappings) (linear : UInt64) :
    Layout.rwx.holds (m.restore linear).mappings := by
  obtain ⟨M, hM, hown⟩ := h
  refine ⟨_, rfl, fun page f hf => ?_⟩
  rw [hM, Option.getD_some, Std.HashMap.getElem?_insert] at hf
  split at hf
  case isTrue hpage =>
    cases hf
    rw [eq_of_beq hpage]
  case isFalse => exact hown page f hf

theorem pages_restore (h : Layout.rwx.holds m.mappings) (linear : UInt64) :
    (m.restore linear).pages = insert (pageOf linear) m.pages := by
  obtain ⟨M, hM, -⟩ := h
  ext page
  rw [mem_pages (show (m.restore linear).mappings = some _ from rfl), Finset.mem_insert, mem_pages hM, hM,
    Option.getD_some,
    Std.HashMap.getElem?_insert]
  split
  case isTrue hpage => simp [(eq_of_beq hpage).symm]
  case isFalse hpage =>
    have : page ≠ pageOf linear := fun heq => hpage (by rw [heq]; exact beq_self_eq_true _)
    simp [this]

/-- How many pages are missing. -/
def missing (m' m : MappedRam) : Nat := (m.pages \ m'.pages).card

theorem missing_congr {m₁ m₁' : MappedRam} (h : m₁.mappings = m.mappings) (h' : m₁'.mappings = m'.mappings) :
    m₁'.missing m₁ = m'.missing m := by
  unfold missing pages
  rw [h, h']

/-- A page that is lacking is one of those that are missing. -/
theorem missing_restore (h : Layout.rwx.holds m.mappings) (h' : Layout.rwx.holds m'.mappings)
    (hlacks : m'.Lacks m linear access cpl) :
    (m'.restore linear).missing m < m'.missing m := by
  obtain ⟨⟨addr, hthere⟩, hmissing⟩ := hlacks
  rw [translate_rwx h] at hthere
  rw [translate_rwx h'] at hmissing
  unfold missing
  rw [pages_restore h', Finset.sdiff_insert]
  refine Finset.card_erase_lt_of_mem (Finset.mem_sdiff.2 ⟨?_, fun hpage => ?_⟩)
  · by_contra hpage
    rw [if_neg hpage] at hthere
    cases hthere
  · rw [if_pos hpage] at hmissing
    cases hmissing

end MappedRam

end TraceCore
