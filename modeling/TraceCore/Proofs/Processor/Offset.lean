/-
Offsets in an open window. The offset that a window has for an instruction pointer, found without translating anything,
is the entry of the window that would be opened for that instruction pointer now, and nothing else of the window would be
different. No offset of a window stands for an instruction pointer that the code may not be fetched from.
-/
import TraceCore.Proofs.Processor.PageEnd

namespace TraceCore

variable {cpu : Cpu} {rip rip₀ linear linear₀ bias bias₀ : UInt64} {size size₀ : Nat}

/-- All that is left of a window may be fetched from. -/
theorem admits_of_windowAt (h : windowAt cpu rip = .ok (linear, bias, size)) (hr : cpu.Reaches rip) :
    Cpu.Admits { cpu with rip } (size - pageOffset linear) := by
  obtain ⟨hin, hsize⟩ := windowAt_size h
  rw [pageOffset_eq] at hin ⊢
  unfold Cpu.Admits
  change if cpu.codeSize = .b64 then _ else _
  split
  case isTrue hb =>
    obtain ⟨hcanonical, rfl, -, -⟩ := (windowAt_b64 hb).1 h
    intro k hk
    -- bit 47 does not change in the middle of a page
    have hadd : (linear + UInt64.ofNat k).toNat = linear.toNat + k :=
      Ram.toNat_add_ofNat (by have := linear.toNat_lt; unfold pageSize at *; omega)
    show isCanonical (linear + UInt64.ofNat k) = true
    rw [isCanonical_congr (show _ = linear.toNat / 2 ^ 47 by unfold pageSize at *; omega)]
    exact hcanonical
  case isFalse hb =>
    obtain ⟨hle, -, -, hsize⟩ := (windowAt_segment hb).1 h
    have hlow := hr.resolve_left hb
    have hend : size ≤ cpu.cs.limit.toNat - rip.toNat % 2 ^ 32 + linear.toNat % pageSize + 1 := by
      rw [hsize]
      exact Nat.min_le_left ..
    show rip.toNat + (size - linear.toNat % pageSize) ≤ cpu.cs.limit.toNat + 1
    rw [Nat.mod_eq_of_lt hlow] at hle hend
    omega

/-- The sum with a bias moves as far as the instruction pointer does. -/
theorem toNat_add_of_move {a b : UInt64} {x y : Nat} (h : (b + bias).toNat = y) (hmove : x + b.toNat = y + a.toNat)
    (hx : x < pageSize) : (a + bias).toNat = x := by
  have ha := a.toNat_lt
  have hbias := bias.toNat_lt
  rw [UInt64.toNat_add] at h ⊢
  unfold pageSize at hx
  omega

/-- In one page, offsets in a segment that are less than a page apart are as far apart as the addresses. -/
theorem segment_move {base x y offset offset₀ : Nat} (hx : x = (base + offset) % 2 ^ 32)
    (hy : y = (base + offset₀) % 2 ^ 32) (hpage : x / 4096 = y / 4096) (habove : offset₀ < offset + 4096)
    (hbelow : offset < offset₀ + 4096) : x + offset₀ = y + offset := by
  omega

/-- An instruction pointer less than a page away whose code is in the same page lies in the window. -/
theorem offset_of_windowAt (h₀ : windowAt cpu rip₀ = .ok (linear₀, bias₀, size₀)) (hr₀ : cpu.Reaches rip₀)
    (h : windowAt cpu rip = .ok (linear, bias, size)) (hr : cpu.Reaches rip) (hpage : pageOf linear = pageOf linear₀)
    (hbelow : rip.toNat < rip₀.toNat + pageSize) (habove : rip₀.toNat < rip.toNat + pageSize) :
    (rip + bias₀).toNat = pageOffset linear ∧ pageOffset linear < size₀ := by
  have hpage : linear.toNat / pageSize = linear₀.toNat / pageSize := by rw [← toNat_pageOf, ← toNat_pageOf, hpage]
  have hoffset := pageOffset_eq linear
  have hoffset₀ := pageOffset_eq linear₀
  have hin := pageOffset_lt linear
  have hbias := windowAt_bias h₀ hr₀
  unfold pageSize at hpage hoffset hoffset₀ hbelow habove
  by_cases hb : cpu.codeSize = .b64
  · obtain ⟨-, rfl, -, rfl⟩ := (windowAt_b64 hb).1 h₀
    obtain ⟨-, rfl, -, -⟩ := (windowAt_b64 hb).1 h
    exact ⟨toNat_add_of_move hbias (by omega) hin, hin⟩
  · obtain ⟨hle₀, hlinear₀, -, hsize₀⟩ := (windowAt_segment hb).1 h₀
    obtain ⟨hle, hlinear, -, -⟩ := (windowAt_segment hb).1 h
    rw [Nat.mod_eq_of_lt (hr₀.resolve_left hb)] at hle₀ hlinear₀ hsize₀
    rw [Nat.mod_eq_of_lt (hr.resolve_left hb)] at hle hlinear
    have hmove := segment_move hlinear hlinear₀ hpage habove hbelow
    have hsize : linear.toNat % 4096 < min (cpu.cs.limit.toNat - rip₀.toNat + linear₀.toNat % 4096 + 1) 4096 := by
      clear hlinear hlinear₀ hsize₀ hbias hin habove hbelow
      omega
    refine ⟨toNat_add_of_move hbias (by omega) hin, ?_⟩
    rw [hsize₀, hoffset]
    exact hsize

namespace FetchWindow

variable {window : FetchWindow} {o k : Nat}

/-- Instruction pointers that follow each other have offsets that do. -/
theorem offset?_add (h : window.offset? rip = some o) (hsize : window.size ≤ pageSize) (hk : o + k < window.size) :
    window.offset? (rip + UInt64.ofNat k) = some (o + k) := by
  obtain ⟨-, rfl⟩ := offset?_eq_some.1 h
  have hadd : (rip + UInt64.ofNat k + window.bias).toNat = (rip + window.bias).toNat + k := by
    rw [UInt64.add_assoc, UInt64.add_comm (UInt64.ofNat k), ← UInt64.add_assoc]
    exact Ram.toNat_add_ofNat (by unfold pageSize at hsize; omega)
  exact offset?_eq_some.2 ⟨by omega, hadd.symm⟩

end FetchWindow

namespace Board

variable {γ δ : Type} {guard : Guard (Board γ δ)} {w w' : Board γ δ} {window : FetchWindow}

/-- A window and one that is opened for `rip` under the same mappings. If `rip` lies in the window, it has a window of
its own, on the same page, with the same bytes to fetch; up to the end of the window all may be fetched from. If `rip`
has a window on that page and is less than a page away, it lies in the first one, at the entry of its own. -/
theorem openWindow_anew (guard' : Guard (Board γ δ)) (hopen : (openWindow bus guard cpu rip₀ w).1 = .ok window)
    (hr₀ : cpu.Reaches rip₀) (hr : cpu.Reaches rip) (hmap : w'.mem.mappings = w.mem.mappings)
    (hsize : w'.mem.ram.size = w.mem.ram.size) :
    (∀ o, window.offset? rip = some o →
      (∃ own, (openWindow bus guard' cpu rip w').1 = .ok own ∧
        pageOf (cpu.codeAddress rip) = pageOf (cpu.codeAddress rip₀) ∧ own.base = window.base ∧ own.entry = o ∧
          own.remaining o = window.remaining o) ∧
      Cpu.Admits { cpu with rip } (window.size - o) ∧
      ∀ k < window.size - o, window.offset? (rip + UInt64.ofNat k) = some (o + k)) ∧
    (∀ own, (openWindow bus guard' cpu rip w').1 = .ok own →
      pageOf (cpu.codeAddress rip) = pageOf (cpu.codeAddress rip₀) →
      rip.toNat < rip₀.toNat + pageSize → rip₀.toNat < rip.toNat + pageSize → window.offset? rip = some own.entry) := by
  obtain ⟨linear₀, addr₀, hat₀, htr₀, hbacked₀, hbase₀, -, -, -⟩ := (openWindow_eq_ok guard).1 hopen
  rw [Cpu.codeAddress_of_windowAt hat₀]
  constructor
  · intro o ho
    obtain ⟨hlt, rfl⟩ := FetchWindow.offset?_eq_some.1 ho
    obtain ⟨linear, hat, hpage, hoffset⟩ := windowAt_of_offset hat₀ hlt hr
    obtain ⟨addr, htr, hframe⟩ := MappedRam.translate_of_pageOf htr₀ hpage
    have hbase := pageBase_congr hframe
    have htr' : w'.mem.translate linear .execute cpu.cpl = .ok addr := by rw [MappedRam.translate_congr hmap, htr]
    have hbacked : (w'.mem.ram.page? (pageBase addr)).isSome = true := by
      rw [hbase, ← Option.not_isNone, Ram.isNone_page?_congr hsize, Option.not_isNone, hbacked₀]
    let watched := guard'.watches (pageBase linear) window.size .execute w'
    let own : FetchWindow :=
      ⟨pageBase addr, window.bias, window.size, pageOffset linear, watched.2.mem.remaps, watched.1⟩
    have hown : (openWindow bus guard' cpu rip w').1 = .ok own :=
      (openWindow_eq_ok guard').2 ⟨linear, addr, hat, htr', hbacked, rfl, rfl, rfl, rfl⟩
    refine ⟨⟨own, hown, ?_, hbase.trans hbase₀.symm, hoffset, rfl⟩, ?_, fun k hk => ?_⟩
    · rw [Cpu.codeAddress_of_windowAt hat, hpage]
    · rw [← hoffset]
      exact admits_of_windowAt hat hr
    · exact FetchWindow.offset?_add ho (windowAt_size hat₀).2 (by omega)
  · intro own hown hpage hbelow habove
    obtain ⟨linear, addr, hat, -, -, -, hentry, -, -⟩ := (openWindow_eq_ok guard').1 hown
    rw [Cpu.codeAddress_of_windowAt hat] at hpage
    obtain ⟨hoffset, hlt⟩ := offset_of_windowAt hat₀ hr₀ hat hr hpage hbelow habove
    rw [hentry]
    exact FetchWindow.offset?_eq_some.2 ⟨by rw [hoffset]; exact hlt, hoffset.symm⟩

/-- In a segment that starts and ends in the middle of a page, a window that was opened at its start: the offset of the
hundredth byte is that of its own window, and the last byte that has one is that at the limit. -/
theorem openWindow_anew_segment :
    let cpu : Cpu := { Cpu.new .protectedMode with cs := { Segment.flat 8 with base := 0x300, limit := 0x7FF } }
    let w : Board Unit Unit := ⟨{ ram := .zeroPage }, (), (), #[{}]⟩
    let window : FetchWindow := ⟨0, 0x300, 0xB00, 0x300, 0, false⟩
    (openWindow bus .none cpu 0 w).1 = .ok window ∧ window.offset? 100 = some 0x364 ∧
      (∃ own, (openWindow bus .none cpu 100 w).1 = .ok own ∧ own.entry = 0x364 ∧ window.offset? 100 = some own.entry) ∧
        Cpu.Admits { cpu with rip := 100 } (0xB00 - 0x364) ∧ window.offset? 0x7FF = some 0xAFF := by
  intro cpu w window
  have hopen : (openWindow bus .none cpu 0 w).1 = .ok window := by decide +kernel
  have hoffset : window.offset? 100 = some 0x364 := by decide
  obtain ⟨hin, hsame⟩ := openWindow_anew .none hopen (Or.inr (by decide))
    (Or.inr (show (100 : UInt64).toNat < 2 ^ 32 by decide)) (rfl : w.mem.mappings = w.mem.mappings) rfl
  obtain ⟨⟨own, hown, hpage, -, hentry, -⟩, hadmits, hoffsets⟩ := hin 0x364 hoffset
  have hagain := hsame own hown hpage (by decide) (by decide)
  exact ⟨hopen, hoffset, ⟨own, hown, hentry, hagain⟩, hadmits, hoffsets 0x79B (by decide)⟩

end Board

end TraceCore
