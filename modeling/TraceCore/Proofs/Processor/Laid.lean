/-
Where a trace was fetched, in 16-bit and 32-bit code, whatever the code segment is and wherever its pages are mapped. A
frame may be mapped at more than one linear page, so that a trace is entered at other instruction pointers than it was
built at. What stays true of it is that each of its instructions was fetched at some instruction pointer from which it
lies within the code segment; and without aliases there is one such instruction pointer only.
-/
import TraceCore.Proofs.Processor.Refetch

namespace TraceCore

/-! ## Running code -/

/-- Mode, code segment and privilege level are the same. -/
def Cpu.SameCode (c c' : Cpu) : Prop := c'.mode = c.mode ∧ c'.cs = c.cs ∧ c'.cpl = c.cpl

/-- Code of 16 or 32 bits, at an instruction pointer of at most 32. -/
structure Cpu.Segmented (c : Cpu) : Prop where
  code : c.codeSize ≠ .b64
  pointer : c.rip.toNat < 2 ^ 32

namespace Cpu

variable {a b c c' : Cpu} {rip : UInt64}

theorem SameContext.sameCode (h : c.SameContext c') : c.SameCode c' := ⟨h.1, h.2.1, h.2.2.2.2⟩

theorem SameCode.refl (c : Cpu) : c.SameCode c := ⟨rfl, rfl, rfl⟩

theorem SameCode.codeSize (h : c.SameCode c') : c'.codeSize = c.codeSize := by
  unfold Cpu.codeSize
  rw [h.1, h.2.1]

theorem SameCode.sameFetch (h : c.SameCode c') : c.SameFetch c' :=
  ⟨by rw [h.codeSize], by rw [h.2.1], by rw [h.2.1], h.2.2⟩

theorem SameCode.reaches (h : c.SameCode c') : c'.Reaches rip ↔ c.Reaches rip := by
  unfold Reaches
  rw [h.codeSize]

theorem Segmented.reaches (h : c.Segmented) : c.Reaches c.rip := Or.inr h.pointer

theorem Segmented.lt_of_reaches (h : c.Segmented) (hr : c.Reaches rip) : rip.toNat < 2 ^ 32 := by
  rcases hr with hb | hlt
  · exact absurd hb h.code
  · exact hlt

theorem Segmented.toNat_codeAddress (h : c.Segmented) (rip : UInt64) :
    (c.codeAddress rip).toNat = (c.cs.base.toNat + rip.toNat % 2 ^ 32) % 2 ^ 32 := by
  unfold codeAddress
  rw [if_neg h.code, toNat_and_low, UInt64.toNat_add, toNat_and_low]
  omega

theorem Segmented.codeAddress_lt (h : c.Segmented) (rip : UInt64) : (c.codeAddress rip).toNat < 2 ^ 32 := by
  rw [h.toNat_codeAddress]
  omega

/-- Segmented code stays so as it moves its instruction pointer. -/
theorem Segmented.moves (h : c.Segmented) (hc : c.SameCode c')
    (hr : c'.rip = c.rip ∨ ∃ target, c'.rip = target &&& c.ipMask) : c'.Segmented := by
  refine ⟨by rw [hc.codeSize]; exact h.code, ?_⟩
  rcases hr with hr | ⟨target, hr⟩
  · rw [hr]; exact h.pointer
  · rw [hr]; exact h.lt_of_reaches (c.reaches_ipMask target)

end Cpu

/-! ## Mappings of a kind -/

/-- The mappings that a board may have in the course of a history. -/
abbrev Kind := Option (Std.HashMap UInt64 Mapping) → Prop

/-- The memory under other mappings. -/
def MappedRam.under (m : MappedRam) (mappings : Option (Std.HashMap UInt64 Mapping)) : MappedRam := { m with mappings }

/-- No frame is reached for execution at two linear addresses, be it at different times. -/
def Kind.Unaliased (K : Kind) : Prop :=
  ∀ m m' : MappedRam, K m.mappings → K m'.mappings → ∀ linear linear' addr cpl, linear.toNat < 2 ^ 32 →
    linear'.toNat < 2 ^ 32 → m.translate linear .execute cpl = .ok addr →
      m'.translate linear' .execute cpl = .ok addr → linear' = linear

/-- Pages that lie at their own addresses have no aliases. -/
theorem Layout.unaliased (L : Layout) : Kind.Unaliased L.holds := by
  intro m m' hm hm' linear linear' addr cpl _ _ h h'
  rw [← L.identical hm _ _ _ _ h, ← L.identical hm' _ _ _ _ h']

theorem Kind.unaliased_none : Kind.Unaliased (· = none) := Layout.unmapped.unaliased

/-- Memory goes on from `w` to `w'`, and the mappings stay of their kind. -/
def Board.Under {γ δ : Type} (K : Kind) (w w' : Board γ δ) : Prop :=
  w.Passes w' ∧ (K w.mem.mappings → K w'.mem.mappings)

theorem Board.course_under {γ δ : Type} (K : Kind) : Board.Course (Board.Under K : Board γ δ → Board γ δ → Prop) where
  trans h h' := ⟨h.1.trans h'.1, fun hk => h'.2 (h.2 hk)⟩
  moves h := h.1.moves
  quiet h := ⟨Board.passes_quiet h, by rw [h]; exact id⟩
  write addr src w := ⟨Board.passes_write addr src w, id⟩
  register p mask w := ⟨(Board.registered_register w p mask).passes, id⟩

namespace MappedRam

variable {m m' : MappedRam} {c : Cpu} {rip rip' addr : UInt64} {n n' : Nat} {i j : Instr} {K : Kind}

theorem under_eq {mappings : Option (Std.HashMap UInt64 Mapping)} (h : mappings = m.mappings) :
    m.under mappings = m := by
  rw [h]
  rfl

theorem translate_of_fetchView (h : m.fetchView c rip = .ok (addr, n)) :
    m.translate (c.codeAddress rip) .execute c.cpl = .ok addr := by
  obtain ⟨linear, bias, size, hat, htr, -, -⟩ := Board.fetchView_eq_ok.1 h
  rw [Cpu.codeAddress_of_windowAt hat]
  exact htr

/-- What may be fetched ends with the code segment. -/
theorem fetchView_limit (hc : c.Segmented) (hr : c.Reaches rip) (h : m.fetchView c rip = .ok (addr, n)) :
    rip.toNat + n ≤ c.cs.limit.toNat + 1 := by
  obtain ⟨linear, bias, size, hat, -, -, rfl⟩ := Board.fetchView_eq_ok.1 h
  obtain ⟨hle, -, -, rfl⟩ := (windowAt_segment hc.code).1 hat
  have ho := pageOffset_eq linear
  have hlt := hc.lt_of_reaches hr
  omega

/-- Without aliases, an address is fetched at one instruction pointer. -/
theorem pointer_unique (hK : K.Unaliased) (hm : K m.mappings) (hm' : K m'.mappings) (hc : c.Segmented)
    (hr : c.Reaches rip) (hr' : c.Reaches rip') (h : m.fetchView c rip = .ok (addr, n))
    (h' : m'.fetchView c rip' = .ok (addr, n')) : rip' = rip := by
  have hsame := hK m m' hm hm' _ _ _ _ (hc.codeAddress_lt rip) (hc.codeAddress_lt rip') (translate_of_fetchView h)
    (translate_of_fetchView h')
  have hlinear := congrArg UInt64.toNat hsame
  rw [hc.toNat_codeAddress, hc.toNat_codeAddress] at hlinear
  have hlt := hc.lt_of_reaches hr
  have hlt' := hc.lt_of_reaches hr'
  apply UInt64.toNat_inj.1
  omega

/-- An instruction that memory has at the instruction pointer ends within the code segment. -/
theorem Offers.limit (h : m.Offers c i) (hc : c.Segmented) : c.rip.toNat + i.len ≤ c.cs.limit.toNat + 1 := by
  cases h with
  | inside addr n view fits decodes =>
    have hle := fetchView_limit hc hc.reaches view
    omega
  | across addr n addr' n' view crosses reaches next fits decodes =>
    have hle := fetchView_limit hc reaches next
    have hn := (Board.fetchView_le view).2.1
    have hrip := hc.pointer
    unfold toPageEnd pageSize at hn
    rw [Ram.toNat_add_ofNat (by omega)] at hle
    omega

/-- Its bytes are the ones that are mapped there. -/
theorem Offers.shows (h : m.Offers c i) (hr : c.Reaches c.rip) : m.Shows c i := by
  have hbyte : ∀ {rip addr n}, c.Reaches rip → m.fetchView c rip = .ok (addr, n) → ∀ k < n,
      m.translate (c.codeAddress (rip + UInt64.ofNat k)) .execute c.cpl = .ok (addr + UInt64.ofNat k) ∧
        (addr + UInt64.ofNat k).toNat = addr.toNat + k := fun hr hv k hk =>
    ⟨translate_of_fetchView (Board.fetchView_add hv hr hk).1,
      (pageOf_add (Nat.lt_of_lt_of_le hk (Board.fetchView_le hv).2.1)).2.2.2⟩
  cases h with
  | inside addr n view fits decodes =>
    obtain ⟨-, -, hin⟩ := Ram.len_of_decode decodes
    refine ⟨m.ram.slice addr i.len, Ram.decodeInstr_slice decodes (Nat.le_refl _), by rw [Ram.length_slice]; omega,
      fun k hk => ?_⟩
    obtain ⟨htr, hadd⟩ := hbyte hr view k (by omega)
    exact ⟨_, htr, by rw [hadd, Ram.getElem?_slice, if_pos hk]⟩
  | across addr n addr' n' view crosses reaches next fits decodes =>
    have hlen : (m.ram.slice addr n).length = n := by
      have := window_length view
      rw [Ram.length_slice]
      omega
    obtain ⟨-, hmax, hle⟩ := len_of_decodeInstr decodes
    refine ⟨(m.ram.slice addr n ++ m.ram.slice addr' maxInstrLen).take i.len, ?_, ?_, fun k hk => ?_⟩
    · refine decodeInstr_congr decodes ?_
      rw [List.take_take, Nat.min_self]
    · rw [List.length_take]
      omega
    · rw [List.getElem?_take, if_pos hk, List.getElem?_append, hlen]
      by_cases hkn : k < n
      · obtain ⟨htr, hadd⟩ := hbyte hr view k hkn
        exact ⟨_, htr, by rw [hadd, if_pos hkn, Ram.getElem?_slice, if_pos hkn]⟩
      · obtain ⟨htr, hadd⟩ := hbyte reaches next (k - n) (by omega)
        rw [UInt64.add_assoc, ← UInt64.ofNat_add, Nat.add_sub_cancel' (by omega)] at htr
        exact ⟨_, htr, by rw [hadd, if_neg hkn, Ram.getElem?_slice, if_pos (by omega)]⟩

/-- The mappings show one instruction at an instruction pointer. -/
theorem Shows.unique (h : m.Shows c i) (h' : m.Shows c j) : i = j := by
  have hsame : ∀ {i j}, i.len ≤ j.len → m.Shows c i → m.Shows c j → i = j := by
    intro i j hle h h'
    obtain ⟨bytes, hdec, hlen, hshown⟩ := h
    obtain ⟨bytes', hdec', hlen', hshown'⟩ := h'
    have hlonger : decodeInstr bytes' c.fetchMode = .complete i := by
      refine decodeInstr_congr hdec (List.ext_getElem? fun k => ?_)
      rw [List.getElem?_take, List.getElem?_take]
      by_cases hk : k < i.len
      · obtain ⟨addr, htr, hb⟩ := hshown k hk
        obtain ⟨addr', htr', hb'⟩ := hshown' k (by omega)
        rw [htr] at htr'
        cases htr'
        rw [if_pos hk, if_pos hk, ← hb, ← hb']
      · rw [if_neg hk, if_neg hk]
    rw [hdec'] at hlonger
    cases hlonger
    rfl
  rcases Nat.le_total i.len j.len with hle | hle
  · exact hsame hle h h'
  · exact (hsame hle h' h).symm

end MappedRam

/-! ## Where a trace was fetched -/

/-- Each instruction of the trace was fetched at an instruction pointer that has all of it. -/
structure Trace.Laid (K : Kind) (c : Cpu) (m : MappedRam) (t : Trace) : Prop where
  straight : t.tail = none → ∀ b < t.byteLen, ∃ mappings rip n, K mappings ∧ c.Reaches rip ∧
    (m.under mappings).fetchView c rip = .ok (t.addr + UInt64.ofNat b, n) ∧ min maxInstrLen (t.byteLen - b) ≤ n
  split : ∀ second, t.tail = some second → ∃ mappings rip n, K mappings ∧ c.Reaches rip ∧
    c.Reaches (rip + UInt64.ofNat (toPageEnd t.addr)) ∧
    (m.under mappings).fetchView c rip = .ok (t.addr, toPageEnd t.addr) ∧
    (m.under mappings).fetchView c (rip + UInt64.ofNat (toPageEnd t.addr)) = .ok (second.start, n) ∧
    t.byteLen ≤ toPageEnd t.addr + n

namespace Trace.Laid

variable {γ δ : Type} {K : Kind} {c c' : Cpu} {m m' : MappedRam} {t t' : Trace}

theorem congr (h : t.Laid K c m) (hc : c.SameCode c') (hsize : m'.ram.bytes.size = m.ram.bytes.size) :
    t.Laid K c' m' := by
  have hview : ∀ {mappings rip}, (m'.under mappings).fetchView c' rip = (m.under mappings).fetchView c rip := by
    intro mappings rip
    have hsize : (m'.under mappings).ram.bytes.size = (m.under mappings).ram.bytes.size := hsize
    rw [hc.sameFetch.fetchView]
    exact MappedRam.fetchView_congr hsize rfl c rip
  refine ⟨fun htail b hb => ?_, fun second htail => ?_⟩
  · obtain ⟨mappings, rip, n, hK, hr, hv, hle⟩ := h.straight htail b hb
    exact ⟨mappings, rip, n, hK, hc.reaches.2 hr, hview.trans hv, hle⟩
  · obtain ⟨mappings, rip, n, hK, hr, hr', hv, hv', hle⟩ := h.split second htail
    exact ⟨mappings, rip, n, hK, hc.reaches.2 hr, hc.reaches.2 hr', hview.trans hv, hview.trans hv', hle⟩

theorem refresh {stamps : StampTable} (h : t.Laid K c m) (hrefresh : t.refresh stamps = some t') : t'.Laid K c m := by
  obtain ⟨headStamp, tailStamp, rfl⟩ := Trace.refresh_eq hrefresh
  refine ⟨fun htail => h.straight (by simpa using htail), fun second htail => ?_⟩
  cases hsecond : t.tail with
  | none => simp [hsecond] at htail
  | some second' =>
    rw [hsecond] at htail
    cases htail
    exact h.split second' hsecond

/-- A new trace was fetched where the processor is, but for the part that it took over. -/
theorem fresh {w : Board γ δ} {guard : Guard (Board γ δ)} {d : TraceCache} {site : Site} (hc : c.Segmented)
    (hK : K w.mem.mappings) (hrip : site.rip = c.rip)
    (hview : w.mem.fetchView c c.rip = .ok (site.addr, site.remaining)) (hall : d.All (Trace.Laid K c w.mem))
    (haddr : t.addr = site.addr) (hfresh : d.Fresh w site (Board.nextWindow guard c) t) : t.Laid K c w.mem := by
  have hfirst : ∀ b < site.remaining, c.Reaches (c.rip + UInt64.ofNat b) ∧
      w.mem.fetchView c (c.rip + UInt64.ofNat b) = .ok (t.addr + UInt64.ofNat b, site.remaining - b) := by
    intro b hb
    rw [haddr]
    exact (Board.fetchView_add hview hc.reaches hb).symm
  refine ⟨fun htail b hb => ?_, fun second htail => ?_⟩
  · cases hfresh with
    | run _ fits =>
      obtain ⟨hr, hv⟩ := hfirst b (by omega)
      exact ⟨w.mem.mappings, _, _, hK, hr, hv, by omega⟩
    | joined t' s k _ old tail' addr mode fits bytes =>
      by_cases hbk : b < k
      · obtain ⟨hr, hv⟩ := hfirst b (by omega)
        exact ⟨w.mem.mappings, _, _, hK, hr, hv, by omega⟩
      · obtain ⟨mappings, rip, n, hK', hr, hv, hle⟩ := (hall s t' old).straight tail' (b - k) (by omega)
        rw [addr, UInt64.add_assoc, ← UInt64.ofNat_add, Nat.add_sub_cancel' (by omega), ← haddr] at hv
        exact ⟨mappings, rip, n, hK', hr, hv, by omega⟩
    | split window offset second tail => rw [tail] at htail; cases htail
  · cases hfresh with
    | run tail => rw [tail] at htail; cases htail
    | joined t' s k tail => rw [tail] at htail; cases htail
    | split window offset second' tail short atEnd opens enters start fits =>
      rw [tail] at htail
      cases htail
      rw [hrip, atEnd] at opens enters
      rw [atEnd] at hview
      have hnext := Board.fetchView_of_nextWindow opens enters
      rw [← start] at hnext
      rw [haddr]
      exact ⟨w.mem.mappings, c.rip, _, hK, hc.reaches, Board.reaches_of_nextWindow opens enters, hview, hnext,
        by rw [← atEnd]; exact fits⟩

/-- Without aliases, all of a trace in one page was fetched where it is entered. -/
theorem pointer (h : t.Laid K c m) (hK : K.Unaliased) (hc : c.Segmented) (htail : t.tail = none) {entry : UInt64}
    {n : Nat} (hm : K m.mappings) (hentry : c.Reaches entry) (hview : m.fetchView c entry = .ok (t.addr, n)) :
    ∀ b < t.byteLen, ∀ mappings rip n', K mappings → c.Reaches rip →
      (m.under mappings).fetchView c rip = .ok (t.addr + UInt64.ofNat b, n') → rip.toNat = entry.toNat + b := by
  intro b
  induction b with
  | zero =>
    intro _ mappings rip n' hK' hr hv
    rw [show t.addr + UInt64.ofNat 0 = t.addr from UInt64.add_zero _] at hv
    rw [MappedRam.pointer_unique hK hm hK' hc hentry hr hview hv]
    rfl
  | succ b ih =>
    intro hb mappings rip n' hK' hr hv
    obtain ⟨mappings₀, rip₀, n₀, hK₀, hr₀, hv₀, hle⟩ := h.straight htail b (by omega)
    have hrip₀ := ih (by omega) mappings₀ rip₀ n₀ hK₀ hr₀ hv₀
    -- the byte in front was fetched together with this one
    obtain ⟨hv₁, hr₁⟩ := Board.fetchView_add hv₀ hr₀ (show 1 < n₀ by unfold maxInstrLen at hle; omega)
    rw [UInt64.add_assoc, ← UInt64.ofNat_add] at hv₁
    rw [MappedRam.pointer_unique hK hK₀ hK' hc hr₁ hr hv₁ hv,
      Ram.toNat_add_ofNat (by have := hc.lt_of_reaches hr₀; omega), hrip₀, Nat.add_assoc]

end Trace.Laid

end TraceCore
