/-
How long a fetch window is good for. It keeps the mappings that it was opened under, so a remap closes
it, but neither the code segment, the code size nor the privilege level. Every instruction pointer in
it is fetched as by the processor it was opened for, whatever that processor has become since.
-/
import TraceCore.Processor.Dispatch
import TraceCore.Proofs.Exec.Ran
import TraceCore.Proofs.Fetch.View

namespace TraceCore

variable {γ δ : Type}

theorem MappedRam.moves_write (m : MappedRam) (addr : UInt64) (src : List UInt8) : m.Moves (m.write addr src).2 := by
  refine ⟨Nat.le_refl _, ?_, fun _ => rfl⟩
  show (m.ram.write addr src).2.bytes.size = _
  unfold Ram.write
  split
  · exact size_overwrite ..
  · rfl

/-! ## Windows -/

/-- What a window depends on is the same in both states. -/
structure Cpu.SameFetch (c c' : Cpu) : Prop where
  code : c'.codeSize = .b64 ↔ c.codeSize = .b64
  base : c'.cs.base = c.cs.base
  limit : c'.cs.limit = c.cs.limit
  cpl : c'.cpl = c.cpl

theorem Cpu.SameContext.sameFetch {c c' : Cpu} (h : c.SameContext c') : c.SameFetch c' :=
  ⟨by rw [h.codeSize], by rw [h.2.1], by rw [h.2.1], h.2.2.2.2⟩

theorem Cpu.SameFetch.windowAt {c c' : Cpu} (h : c.SameFetch c') (rip : UInt64) : windowAt c' rip = windowAt c rip := by
  unfold TraceCore.windowAt
  simp only [h.code, h.base, h.limit]

theorem Cpu.SameFetch.fetchView {c c' : Cpu} (h : c.SameFetch c') (m : MappedRam) (rip : UInt64) :
    m.fetchView c' rip = m.fetchView c rip := by
  unfold MappedRam.fetchView
  rw [h.windowAt, h.cpl]

theorem Cpu.SameFetch.openWindow {ω : Type} {c c' : Cpu} (h : c.SameFetch c') (bus : Bus ω) (guard : Guard ω)
    (rip : UInt64) (w : ω) : openWindow bus guard c' rip w = openWindow bus guard c rip w := by
  unfold TraceCore.openWindow
  rw [h.windowAt, h.cpl]

namespace FetchWindow

variable {window : FetchWindow} {c c' : Cpu} {w w' : Board γ δ} {rip : UInt64} {o : Nat}

/-- The window was opened for a processor in this state, and memory only went on since. -/
def OpenedFor (window : FetchWindow) (c : Cpu) (w : Board γ δ) : Prop :=
  ∃ guard rip, ∃ w₀ : Board γ δ, guard.Quiet ∧ (openWindow Board.bus guard c rip w₀).1 = .ok window ∧ w₀.mem.Moves w.mem

theorem OpenedFor.moves (h : window.OpenedFor c w) (hm : w.mem.Moves w'.mem) : window.OpenedFor c w' := by
  obtain ⟨guard, rip, w₀, hquiet, hopen, hmoves⟩ := h
  exact ⟨guard, rip, w₀, hquiet, hopen, hmoves.trans hm⟩

theorem OpenedFor.congr (h : window.OpenedFor c w) (hc : c.SameFetch c') : window.OpenedFor c' w := by
  obtain ⟨guard, rip, w₀, hquiet, hopen, hmoves⟩ := h
  exact ⟨guard, rip, w₀, hquiet, by rw [hc.openWindow]; exact hopen, hmoves⟩

/-- While no mapping changes, a window has an instruction pointer where its processor fetches it from,
if the code of that processor can have such an instruction pointer, and only then. -/
theorem OpenedFor.fetchView_iff (h : window.OpenedFor c w) (hremaps : window.remaps = w.mem.remaps)
    (ho : window.offset? rip = some o) :
    w.mem.fetchView c rip = .ok (window.address o, window.remaining o) ↔ c.Reaches rip := by
  obtain ⟨guard, rip₀, w₀, hquiet, hopen, hmoves⟩ := h
  obtain ⟨linear, addr, hat, -, -, -, -, hre, -⟩ := (Board.openWindow_eq_ok guard).1 hopen
  rw [hremaps, hquiet.watches] at hre
  have hlt := offset?_eq_some.1 ho
  constructor
  · intro hview
    by_contra hr
    obtain ⟨-, hless⟩ := remaining_lt_of_not_reaches hat hlt.1 hr
    obtain ⟨linear', bias', size', hat', -, -, hn⟩ := Board.fetchView_eq_ok.1 hview
    have := hless _ _ _ hat'
    unfold remaining at hn
    rw [hlt.2] at hn
    omega
  · intro hr
    rw [MappedRam.fetchView_congr hmoves.size (hmoves.same hre)]
    exact Board.fetchView_of_offset hopen ho hr

end FetchWindow

namespace Processor

variable {ω : Type} {bus : Bus ω} {p : Processor} {c : Cpu} {rip : UInt64} {o : Nat}

/-- The open window has the instruction pointer, and no mapping changed since. -/
theorem offsetOf_eq_some {w : ω} :
    p.offsetOf bus rip w = some o ↔ p.window.remaps = bus.remaps w ∧ p.window.offset? rip = some o := by
  unfold offsetOf
  split
  case isTrue hsame => exact (and_iff_right hsame).symm
  case isFalse hdiffers => exact ⟨nofun, fun h => absurd h.1 hdiffers⟩

/-- Nothing lies in a closed window. -/
theorem window_ne_zero {w : ω} (h : p.offsetOf bus rip w = some o) : p.window.size ≠ 0 := by
  have hlt := FetchWindow.offset_lt (offsetOf_eq_some.1 h).2
  omega

/-- It was opened for the processor, and has the instruction pointer where that fetches it from. -/
theorem fetchView_of_offsetOf {w : Board γ δ} (hwindow : p.window.size = 0 ∨ p.window.OpenedFor c w)
    (ho : p.offsetOf Board.bus rip w = some o) :
    p.window.OpenedFor c w ∧
      (w.mem.fetchView c rip = .ok (p.window.address o, p.window.remaining o) ↔ c.Reaches rip) := by
  have hopened := hwindow.resolve_left (window_ne_zero ho)
  obtain ⟨hremaps, hoffset⟩ := offsetOf_eq_some.1 ho
  exact ⟨hopened, hopened.fetchView_iff hremaps hoffset⟩

end Processor

/-! ## Building traces -/

namespace TraceCache

variable {ω : Type} {bus : Bus ω} {Q : ω → Prop}

/-- What registering code and opening the next window keep, asking for a trace keeps. -/
theorem ensure_keeps (hregister : ∀ p mask w, Q w → Q (bus.mapStamps (·.register p mask) w)) (decode : Decoder)
    (site : Site)
    {next : UInt64 → ω → Except Fault FetchWindow × ω} (hnext : ∀ rip w, Q w → Q (next rip w).2) (c : TraceCache)
    (w : ω) (hw : Q w) : Q (c.ensure bus decode site next w).2.2 := by
  have hsplit : ∀ slot stamp page c w, Q w → Q (buildSplit bus decode site next slot stamp page c w).2.2 := by
    intro slot stamp page c w hw
    unfold buildSplit
    split
    case isTrue => exact hw
    case isFalse =>
      dsimp only
      have hw := hnext (site.rip + UInt64.ofNat (page.window (pageOffset site.addr) site.remaining).length) w hw
      cases hn : next (site.rip + UInt64.ofNat (page.window (pageOffset site.addr) site.remaining).length) w with
      | mk r w₁ =>
      rw [hn] at hw
      cases r with
      | error f => exact hw
      | ok window =>
        dsimp only
        split
        case h_1 => exact hw
        case h_2 offset _ =>
          split
          case h_1 => exact hw
          case h_2 tailPage _ =>
            split
            case h_1 => exact hw
            case h_2 => exact hw
            case h_3 i _ =>
              split
              case isTrue => exact hw
              case isFalse =>
                split
                case isTrue => exact hregister _ _ _ hw
                case isFalse => exact hregister _ _ _ (hregister _ _ _ hw)
  have hbuild : ∀ c w, Q w → Q (build bus decode site next c w).2.2 := by
    intro c w hw
    unfold build
    dsimp only
    split
    case h_1 => exact hw
    case h_2 page _ =>
      split
      case h_1 => exact hsplit _ _ _ _ _ hw
      case h_2 => exact hw
      case h_3 => exact hregister _ _ _ hw
  unfold ensure
  split
  case h_1 => exact hw
  case h_2 => exact hbuild _ _ hw

end TraceCache

end TraceCore
