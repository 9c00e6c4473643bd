/-
Instructions as the mappings show them. `MappedRam.Shows` is what a processor would find that
translates each byte of an instruction on its own, and flat code meets it a page at a time.
-/
import TraceCore.Proofs.Processor.Runs

namespace TraceCore

/-! ## Flat code -/

/-- 64-bit code, or 32-bit code in a segment that spans all linear addresses. -/
def Cpu.Flat (c : Cpu) : Prop := c.codeSize = .b64 ∨ c.codeSize = .b32 ∧ c.cs.base = 0 ∧ c.cs.limit = 0xFFFFFFFF

/-- The linear address of an instruction pointer. -/
def Cpu.codeAddress (c : Cpu) (rip : UInt64) : UInt64 :=
  if c.codeSize = .b64 then rip else (c.cs.base + (rip &&& 0xFFFFFFFF)) &&& 0xFFFFFFFF

namespace Cpu

variable {c c' : Cpu} {rip linear bias : UInt64} {k size : Nat}

theorem codeAddress_of_windowAt (h : windowAt c rip = .ok (linear, bias, size)) : c.codeAddress rip = linear := by
  unfold windowAt at h
  unfold codeAddress
  split at h
  case isTrue hb =>
    rw [if_pos hb]
    split at h
    case isTrue => cases h; rfl
    case isFalse => cases h
  case isFalse hb =>
    rw [if_neg hb]
    dsimp only at h
    split at h
    case isTrue => cases h
    case isFalse => cases h; rfl

theorem SameContext.flat (h : c.SameContext c') (hc : c.Flat) : c'.Flat := by
  unfold Flat
  rw [h.codeSize, h.2.1]
  exact hc

theorem Flat.toNat_codeAddress (h : c.Flat) (rip : UInt64) :
    (c.codeAddress rip).toNat = if c.codeSize = .b64 then rip.toNat else rip.toNat % 2 ^ 32 := by
  unfold codeAddress
  rcases h with hb | ⟨hb, hbase, -⟩
  · rw [if_pos hb, if_pos hb]
  · rw [hb, hbase, if_neg (by decide), if_neg (by decide), UInt64.zero_add, toNat_and_low, toNat_and_low, Nat.mod_mod]

/-- In one page linear addresses follow each other as instruction pointers do. -/
theorem Flat.codeAddress_add (h : c.Flat) (hk : k < toPageEnd (c.codeAddress rip)) :
    c.codeAddress (rip + UInt64.ofNat k) = c.codeAddress rip + UInt64.ofNat k := by
  obtain ⟨-, -, -, hadd⟩ := pageOf_add hk
  have ho := pageOffset_eq (c.codeAddress rip)
  apply UInt64.toNat_inj.1
  rw [hadd, h.toNat_codeAddress, h.toNat_codeAddress, UInt64.toNat_add, UInt64.toNat_ofNat']
  rw [h.toNat_codeAddress] at ho
  unfold toPageEnd pageSize at hk
  unfold pageSize at ho
  have hrip := rip.toNat_lt
  split at ho
  case isTrue hb =>
    rw [if_pos hb, if_pos hb]
    omega
  case isFalse hb =>
    rw [if_neg hb, if_neg hb]
    omega

/-- Behind the end of a page comes the start of one. -/
theorem Flat.pageOffset_codeAddress (h : c.Flat) (rip : UInt64) :
    pageOffset (c.codeAddress (rip + UInt64.ofNat (toPageEnd (c.codeAddress rip)))) = 0 := by
  have ho := pageOffset_eq (c.codeAddress rip)
  have hrip := rip.toNat_lt
  rw [pageOffset_eq, h.toNat_codeAddress, UInt64.toNat_add, UInt64.toNat_ofNat']
  rw [h.toNat_codeAddress] at ho
  unfold toPageEnd pageSize
  unfold pageSize at ho
  split at ho
  case isTrue hb =>
    rw [if_pos hb]
    omega
  case isFalse hb =>
    rw [if_neg hb]
    omega

end Cpu

/-- A window of flat code is a whole page. -/
theorem Cpu.Flat.windowAt_eq {c : Cpu} (h : c.Flat) {rip linear bias : UInt64} {size : Nat}
    (hat : windowAt c rip = .ok (linear, bias, size)) : linear = c.codeAddress rip ∧ size = pageSize := by
  have hlinear := h.toNat_codeAddress rip
  rcases h with hb | ⟨hb, hbase, hlimit⟩
  · obtain ⟨-, rfl, -, rfl⟩ := (windowAt_b64 hb).1 hat
    rw [if_pos hb] at hlinear
    exact ⟨UInt64.toNat_inj.1 hlinear.symm, rfl⟩
  · have hne : c.codeSize ≠ .b64 := by rw [hb]; exact nofun
    obtain ⟨hle, hl, -, hsize⟩ := (windowAt_segment hne).1 hat
    rw [if_neg hne] at hlinear
    rw [hbase] at hl
    have hmax : c.cs.limit.toNat = 2 ^ 32 - 1 := by rw [hlimit]; rfl
    have hl : linear.toNat = rip.toNat % 2 ^ 32 := by
      rw [hl, show (0 : UInt64).toNat = 0 from rfl, Nat.zero_add, Nat.mod_mod]
    refine ⟨UInt64.toNat_inj.1 (hl.trans hlinear.symm), ?_⟩
    rw [hsize]
    refine Nat.min_eq_right ?_
    unfold pageSize
    omega

/-- The code can have instructions there, as far as the form of the address goes. -/
def Cpu.Addressable (c : Cpu) (rip : UInt64) : Prop := c.codeSize = .b64 → isCanonical rip = true

theorem Cpu.Flat.windowAt_ok {c : Cpu} (h : c.Flat) {rip : UInt64} (hrip : c.Addressable rip) :
    ∃ bias, windowAt c rip = .ok (c.codeAddress rip, bias, pageSize) := by
  have hok : ∃ linear bias size, windowAt c rip = .ok (linear, bias, size) := by
    rcases h with hb | ⟨hb, -, hlimit⟩
    · exact ⟨_, _, _, (windowAt_b64 hb).2 ⟨hrip hb, rfl, rfl, rfl⟩⟩
    · have hle : ¬ c.cs.limit.toUInt64 < rip &&& 0xFFFFFFFF := by
        rw [UInt64.lt_iff_toNat_lt, toNat_and_low, hlimit,
          show (UInt32.toUInt64 0xFFFFFFFF).toNat = 2 ^ 32 - 1 from rfl]
        omega
      unfold windowAt
      rw [hb, if_neg (by decide), if_neg hle]
      exact ⟨_, _, _, rfl⟩
  obtain ⟨linear, bias, size, hat⟩ := hok
  obtain ⟨rfl, rfl⟩ := h.windowAt_eq hat
  exact ⟨bias, hat⟩

namespace MappedRam

variable {m : MappedRam} {c : Cpu} {rip addr addr' linear : UInt64} {k n : Nat} {i : Instr}

theorem mappings_write (m : MappedRam) (addr : UInt64) (src : List UInt8) :
    (m.write addr src).2.mappings = m.mappings := rfl

theorem fetchView_flat (hc : c.Flat) (h : m.fetchView c rip = .ok (addr, n)) :
    m.translate (c.codeAddress rip) .execute c.cpl = .ok addr ∧ n = toPageEnd addr ∧
      addr.toNat + toPageEnd addr ≤ m.ram.bytes.size := by
  obtain ⟨-, -, hin⟩ := Board.fetchView_le h
  obtain ⟨linear, bias, size, hat, htr, -, rfl⟩ := Board.fetchView_eq_ok.1 h
  obtain ⟨rfl, rfl⟩ := hc.windowAt_eq hat
  have ho := pageOffset_eq addr
  have ha := m.ram.aligned
  refine ⟨htr, ?_, ?_⟩
  · unfold toPageEnd
    rw [pageOffset_translate htr]
  · unfold toPageEnd pageSize at *
    omega

/-- Where the page is not mapped for execution, nothing can be fetched. -/
theorem fetchView_of_fault (hc : c.Flat) (hrip : c.Addressable rip) {pf : PageFault}
    (h : m.translate (c.codeAddress rip) .execute c.cpl = .error pf) : m.fetchView c rip = .error (.page pf) := by
  obtain ⟨bias, hat⟩ := hc.windowAt_ok hrip
  unfold fetchView
  rw [hat]
  dsimp only
  rw [h]

/-- Where it is, and mapped to memory, there is something to fetch. -/
theorem fetchView_of_translate (hc : c.Flat) (hrip : c.Addressable rip)
    (h : m.translate (c.codeAddress rip) .execute c.cpl = .ok addr) (hin : addr.toNat < m.ram.bytes.size) :
    m.fetchView c rip = .ok (addr, toPageEnd addr) := by
  obtain ⟨bias, hat⟩ := hc.windowAt_ok hrip
  have hpage : (m.ram.page? (pageBase addr)).isSome = true := by
    rw [Ram.isSome_page?, Ram.toNat_pageBase]
    exact Nat.lt_of_le_of_lt (Nat.div_mul_le_self ..) hin
  refine Board.fetchView_eq_ok.2 ⟨_, bias, pageSize, hat, h, hpage, ?_⟩
  unfold toPageEnd
  rw [pageOffset_translate h]

/-- The bytes that are mapped at the instruction pointer and behind it, each byte's page translated on
its own, decode to the instruction. -/
def Shows (m : MappedRam) (c : Cpu) (i : Instr) : Prop :=
  ∃ bytes : List UInt8, decodeInstr bytes c.fetchMode = .complete i ∧ bytes.length = i.len ∧ ∀ k < i.len, ∃ addr,
    m.translate (c.codeAddress (c.rip + UInt64.ofNat k)) .execute c.cpl = .ok addr ∧
      m.ram.bytes[addr.toNat]? = bytes[k]?

/-- The bytes of the first page lie behind each other. -/
theorem translate_codeAddress (hc : c.Flat) (h : m.fetchView c rip = .ok (addr, n)) (hk : k < n) :
    m.translate (c.codeAddress (rip + UInt64.ofNat k)) .execute c.cpl = .ok (addr + UInt64.ofNat k) ∧
      (addr + UInt64.ofNat k).toNat = addr.toNat + k := by
  obtain ⟨htr, rfl, -⟩ := fetchView_flat hc h
  have hk' : k < toPageEnd (c.codeAddress rip) := by rw [toPageEnd_translate htr]; exact hk
  rw [hc.codeAddress_add hk']
  exact ⟨translate_add htr hk', (pageOf_add hk).2.2.2⟩

/-- So do those of the second. -/
theorem translate_codeAddress_next (hc : c.Flat) (h : m.fetchView c rip = .ok (addr, n))
    (h' : m.translate (c.codeAddress (rip + UInt64.ofNat n)) .execute c.cpl = .ok addr') (hk : k < maxInstrLen) :
    m.translate (c.codeAddress (rip + UInt64.ofNat (n + k))) .execute c.cpl = .ok (addr' + UInt64.ofNat k) ∧
      (addr' + UInt64.ofNat k).toNat = addr'.toNat + k := by
  obtain ⟨htr, rfl, -⟩ := fetchView_flat hc h
  have hzero := hc.pageOffset_codeAddress rip
  rw [toPageEnd_translate htr] at hzero
  have hk' : k < toPageEnd (c.codeAddress (rip + UInt64.ofNat (toPageEnd addr))) := by
    unfold toPageEnd at hzero ⊢
    rw [hzero]
    unfold maxInstrLen at hk
    unfold pageSize
    omega
  rw [UInt64.ofNat_add, ← UInt64.add_assoc, hc.codeAddress_add hk']
  refine ⟨translate_add h' hk', (pageOf_add ?_).2.2.2⟩
  rw [← toPageEnd_translate h']
  exact hk'

/-- An instruction in one page. -/
theorem shows_of_decode (hc : c.Flat) (h : m.fetchView c c.rip = .ok (addr, n))
    (hi : m.ram.decode c.fetchMode addr = .complete i)
    (hle : i.len ≤ n) : m.Shows c i := by
  obtain ⟨-, -, hin⟩ := Ram.len_of_decode hi
  refine ⟨m.ram.slice addr i.len, Ram.decodeInstr_slice hi (Nat.le_refl _),
    by rw [Ram.length_slice]; omega, fun k hk => ?_⟩
  obtain ⟨htr, hadd⟩ := translate_codeAddress hc h (show k < n by omega)
  exact ⟨_, htr, by rw [hadd, Ram.getElem?_slice, if_pos hk]⟩

/-- An instruction across the end of a page is shown where the second page is mapped to bytes that
complete it. -/
theorem shows_iff_of_crosses (hc : c.Flat) (h : m.fetchView c c.rip = .ok (addr, n)) (hn : n < i.len)
    (hmax : i.len ≤ maxInstrLen) :
    m.Shows c i ↔ ∃ addr', m.translate (c.codeAddress (c.rip + UInt64.ofNat n)) .execute c.cpl = .ok addr' ∧
      decodeInstr (m.ram.slice addr n ++ m.ram.slice addr' maxInstrLen) c.fetchMode = .complete i := by
  obtain ⟨-, hend, hin⟩ := fetchView_flat hc h
  have hlen : (m.ram.slice addr n).length = n := by rw [Ram.length_slice]; omega
  have hbyte : ∀ {addr'}, m.translate (c.codeAddress (c.rip + UInt64.ofNat n)) .execute c.cpl = .ok addr' → ∀ k < i.len,
      ∃ a, m.translate (c.codeAddress (c.rip + UInt64.ofNat k)) .execute c.cpl = .ok a ∧
        m.ram.bytes[a.toNat]? = (m.ram.slice addr n ++ m.ram.slice addr' maxInstrLen)[k]? := by
    intro addr' htr' k hk
    rw [List.getElem?_append, hlen]
    by_cases hkn : k < n
    · obtain ⟨htr, hadd⟩ := translate_codeAddress hc h hkn
      exact ⟨_, htr, by rw [hadd, if_pos hkn, Ram.getElem?_slice, if_pos hkn]⟩
    · obtain ⟨htr, hadd⟩ := translate_codeAddress_next hc h htr' (show k - n < maxInstrLen by omega)
      rw [Nat.add_sub_cancel' (by omega)] at htr
      exact ⟨_, htr, by rw [hadd, if_neg hkn, Ram.getElem?_slice, if_pos (by omega)]⟩
  constructor
  · rintro ⟨bytes, hdec, hlength, hshown⟩
    obtain ⟨addr', htr', -⟩ := hshown n hn
    refine ⟨addr', htr', decodeInstr_congr hdec ?_⟩
    apply List.ext_getElem?
    intro k
    rw [List.getElem?_take, List.getElem?_take]
    by_cases hk : k < i.len
    · rw [if_pos hk, if_pos hk]
      obtain ⟨a, hta, ha⟩ := hshown k hk
      obtain ⟨a', hta', ha'⟩ := hbyte htr' k hk
      rw [hta] at hta'
      cases hta'
      rw [← ha, ← ha']
    · rw [if_neg hk, if_neg hk]
  · rintro ⟨addr', htr', hdec⟩
    obtain ⟨-, -, hle⟩ := len_of_decodeInstr hdec
    refine ⟨(m.ram.slice addr n ++ m.ram.slice addr' maxInstrLen).take i.len, ?_, ?_, fun k hk => ?_⟩
    · refine decodeInstr_congr hdec ?_
      rw [List.take_take, Nat.min_self]
    · rw [List.length_take]
      omega
    · obtain ⟨a, hta, ha⟩ := hbyte htr' k hk
      exact ⟨a, hta, by rw [ha, List.getElem?_take, if_pos hk]⟩

end MappedRam

end TraceCore
