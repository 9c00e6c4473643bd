/-
Watched instructions. A guard that watches a set of linear addresses is asked for a window when that is opened, and for
an instruction only if it said yes then. So a run stops before an instruction with a watched byte if the window has one
too, and executes it otherwise: when the byte is in the next page, or when the window was opened under another guard.
That is so for any bus, decoder and delivery.
-/
import TraceCore.Proofs.Processor.Mapped
import TraceCore.Proofs.Processor.Watched

namespace TraceCore

/-! ## Watched addresses -/

/-- One of the addresses is in the range. -/
def Meets (R : Set Nat) (addr : UInt64) (len : Nat) : Prop := ∃ a ∈ R, addr.toNat ≤ a ∧ a < addr.toNat + len

/-- The guard watches these linear addresses for execution. -/
def Guard.WatchesCode {ω : Type} (g : Guard ω) (R : Set Nat) : Prop :=
  ∀ addr len w, (g.watches addr len .execute w).1 = true ↔ Meets R addr len

variable {ω : Type} {c : Cpu} {rip linear bias : UInt64} {size : Nat}

theorem size_of_windowAt (h : windowAt c rip = .ok (linear, bias, size)) : size ≠ 0 := by
  unfold windowAt at h
  split at h
  case isTrue =>
    split at h
    case isTrue => cases h; decide
    case isFalse => cases h
  case isFalse =>
    dsimp only at h
    split at h
    case isTrue => cases h
    case isFalse =>
      cases h
      split
      case isTrue => exact Nat.succ_ne_zero _
      case isFalse => decide

theorem openWindow_spec {bus : Bus ω} {guard : Guard ω} {w : ω} {window : FetchWindow}
    (h : (openWindow bus guard c rip w).1 = .ok window) :
    ∃ linear w', windowAt c rip = .ok (linear, window.bias, window.size) ∧
      window.watched = (guard.watches (pageBase linear) window.size .execute w').1 := by
  unfold openWindow at h
  split at h
  case h_1 => cases h
  case h_2 linear bias size hat =>
    generalize bus.translate linear .execute c.cpl w = out at h
    obtain ⟨pf | addr, w₁⟩ := out
    · cases h
    · dsimp only at h
      split at h
      case isTrue => cases h
      case isFalse =>
        cases h
        exact ⟨linear, w₁, hat, rfl⟩

namespace Processor

variable {s : Socket ω} {R : Set Nat} {limit budget : Nat} {p₀ p p' p'' : Processor} {w₀ w w' : ω} {point : Point}

/-! ## Being stopped -/

theorem linear_eq_codeAddress (c : Cpu) (rip : UInt64) :
    (if c.codeSize = .b64 then rip else (c.cs.base + rip) &&& 0xFFFFFFFF) = c.codeAddress rip := by
  unfold Cpu.codeAddress
  split
  case isTrue => rfl
  case isFalse =>
    apply UInt64.toNat_inj.1
    rw [toNat_and_low, toNat_and_low, UInt64.toNat_add, UInt64.toNat_add, toNat_and_low]
    omega

/-- What keeps a debugger from stopping the processor. -/
theorem stopsAt_eq_false_iff (hg : s.guard.WatchesCode R) (len : Nat) :
    (p.stopsAt s p.cpu.rip len w).1 = false ↔ p.resume = true ∨ (s.guard.stopsBefore p.cpu.rip w).1 = false ∧
      (p.window.watched = false ∨ ¬Meets R (p.cpu.codeAddress p.cpu.rip) len) := by
  unfold stopsAt
  split
  case isTrue hresume => simp [hresume]
  case isFalse hresume =>
    dsimp only
    rw [linear_eq_codeAddress]
    split
    case isTrue hstops => simp [hresume, hstops]
    case isFalse hstops =>
      split
      case isTrue hwatched =>
        rw [← hg _ _ (s.guard.stopsBefore p.cpu.rip w).2]
        simp [hresume, hstops, hwatched]
      case isFalse hwatched => simp [hresume, hstops, hwatched]

theorem stopsAt_of_stops {len : Nat} (h : (p.stopsAt s rip len w).1 = true) : (p.stopsAt s rip len w).2.1 = p := by
  unfold stopsAt at h ⊢
  split at h
  case isTrue => cases h
  case isFalse hresume =>
    rw [if_neg hresume]
    dsimp only
    split
    case isTrue => rfl
    case isFalse => split <;> rfl

/-! ## Windows of a run -/

/-- The processor is not told anew to go past a breakpoint, and its window stays, is closed, or is opened with this
socket. -/
structure Reopens (s : Socket ω) (p p' : Processor) : Prop where
  resume : p'.resume = true → p.resume = true
  window : p'.window = p.window ∨ p'.window.size = 0 ∨
    ∃ c rip w, (openWindow s.bus s.guard c rip w).1 = .ok p'.window

theorem Reopens.same (hresume : p'.resume = p.resume) (hwindow : p'.window = p.window) : Reopens s p p' :=
  ⟨fun h => hresume ▸ h, Or.inl hwindow⟩

theorem Reopens.trans (h : Reopens s p p') (h' : Reopens s p' p'') : Reopens s p p'' := by
  refine ⟨fun hresume => h.resume (h'.resume hresume), ?_⟩
  rcases h'.window with hsame | hchanged
  · rw [hsame]
    exact h.window
  · exact Or.inr hchanged

theorem reopens_serve (s : Socket ω) (p : Processor) (w : ω) : Reopens s p (serve s p w).2.1 := by
  have hserved := served_serve s p w
  generalize serve s p w = out at hserved ⊢
  cases hserved <;> exact .same rfl rfl

theorem reopens_handFault (s : Socket ω) (fault : Fault) (rip : UInt64) (p : Processor) (w : ω) :
    Reopens s p (p.handFault s fault rip w).2.1 := by
  have hclosed : ∀ {window : FetchWindow} {q : Processor}, window = p.window ∨ window = p.window.close →
      q.resume = p.resume → q.window = window → Reopens s p q := by
    rintro window q (rfl | rfl) hresume hwindow
    · exact .same hresume hwindow
    · exact ⟨fun h => hresume ▸ h, Or.inr (Or.inl (by rw [hwindow]; rfl))⟩
  have hhanded := handed_handFault s fault rip p w
  generalize p.handFault s fault rip w = out at hhanded ⊢
  cases hhanded with
  | retried window closed => exact hclosed closed rfl rfl
  | delivered window closed => exact hclosed closed rfl rfl
  | escalated window closed => exact hclosed closed rfl rfl

/-- Where the search succeeds, there is an open window. -/
theorem reopens_findTrace (s : Socket ω) (p : Processor) (w : ω) : Reopens s p (p.findTrace s w).2.1 ∧
    ∀ slot, (p.findTrace s w).1 = .ok slot → (p.findTrace s w).2.1.window.size ≠ 0 := by
  have henter : Reopens s p (p.enterWindow s w).2.1 ∧
      ∀ o, (p.enterWindow s w).1 = .ok o → (p.enterWindow s w).2.1.window.size ≠ 0 := by
    unfold enterWindow
    split
    case h_1 o ho =>
      exact ⟨.same rfl rfl, fun _ _ => window_ne_zero ho⟩
    case h_2 =>
      rcases hopen : openWindow s.bus s.guard p.cpu p.cpu.rip w with ⟨e | window, w'⟩
      · exact ⟨.same rfl rfl, nofun⟩
      · have hok : (openWindow s.bus s.guard p.cpu p.cpu.rip w).1 = .ok window := by rw [hopen]
        obtain ⟨linear, -, hat, -⟩ := openWindow_spec hok
        exact ⟨⟨fun h => h, Or.inr (Or.inr ⟨_, _, _, hok⟩)⟩, fun _ _ => size_of_windowAt hat⟩
  unfold findTrace
  generalize p.enterWindow s w = out at henter ⊢
  obtain ⟨e | o, p₁, w₁⟩ := out
  · exact ⟨henter.1, nofun⟩
  · exact ⟨henter.1.trans (.same rfl rfl), fun _ _ => henter.2 o rfl⟩

/-- At a record there is an open window. -/
def Windowed (p : Processor) : Point → Prop
  | .boundary => True
  | .record .. => p.window.size ≠ 0

theorem windowed_of_open (h : p.window.size ≠ 0) : ∀ point, p.Windowed point
  | .boundary => trivial
  | .record .. => h

theorem windowed_handFault {fault : Fault} {next : Point} (h : (p.handFault s fault rip w).1 = .goto next) :
    (p.handFault s fault rip w).2.1.Windowed next := by
  have hhanded := handed_handFault s fault rip p w
  generalize p.handFault s fault rip w = out at hhanded h ⊢
  cases hhanded with
  | retried => cases h; trivial
  | delivered => cases h; trivial
  | escalated => cases h

theorem reopens_stepBoundary (s : Socket ω) (limit : Nat) (p : Processor) (w : ω) :
    Reopens s p (p.stepBoundary s limit w).2.1 ∧
      ∀ next, (p.stepBoundary s limit w).1 = .goto next → (p.stepBoundary s limit w).2.1.Windowed next := by
  have hreset : Reopens s p { p with linker := p.linker.reset } := .same rfl rfl
  have hserve := hreset.trans (reopens_serve s { p with linker := p.linker.reset } w)
  have hbounded := bounded_stepBoundary s limit p w
  generalize p.stepBoundary s limit w = out at hbounded ⊢
  cases hbounded with
  | left exit p₁ w₁ served =>
    rw [served] at hserve
    exact ⟨hserve, nofun⟩
  | halted p₁ w₁ served _ =>
    rw [served] at hserve
    exact ⟨hserve, nofun⟩
  | spent p₁ w₁ served _ _ =>
    rw [served] at hserve
    exact ⟨hserve, nofun⟩
  | searched p₁ w₁ served _ _ =>
    rw [served] at hserve
    obtain ⟨hfind, hopened⟩ := reopens_findTrace s p₁ w₁
    unfold searched
    generalize p₁.findTrace s w₁ = out at hfind hopened ⊢
    obtain ⟨fault | slot, p₂, w₂⟩ := out
    · exact ⟨(hserve.trans hfind).trans (reopens_handFault ..), fun _ => windowed_handFault⟩
    · exact ⟨hserve.trans hfind, fun next _ => windowed_of_open (hopened slot rfl) next⟩

theorem reopens_stepRecord {index left generation : Nat} {branch : Option Nat} (hopen : p.window.size ≠ 0) (w : ω) :
    Reopens s p (p.stepRecord s limit index left generation branch w).2.1 ∧
      ∀ next, (p.stepRecord s limit index left generation branch w).1 = .goto next →
        (p.stepRecord s limit index left generation branch w).2.1.Windowed next := by
  have hrecorded := recorded_stepRecord s limit index left generation branch p w
  generalize p.stepRecord s limit index left generation branch w = out at hrecorded ⊢
  -- an instruction leaves the window alone
  have hran : ∀ {i : Instr} {p₁ p₂ : Processor} {w₁ w₂ : ω} {x : Except Fault Flow} {hit : Bool},
      p.stopsAt s p.cpu.rip i.len w = (false, p₁, w₁) → p₁.execute s limit i w₁ = (x, hit, p₂, w₂) →
      p₂.resume = false ∧ p₂.window = p.window := by
    intro i p₁ p₂ w₁ w₂ x hit hpasses hexecuted
    obtain ⟨cpu, retired, rfl, -⟩ := ran_only hpasses hexecuted
    exact ⟨rfl, rfl⟩
  have hcounted : ∀ (flow : Flow) {q : Processor}, q.resume = false ∧ q.window = p.window →
      (q.counted flow).resume = false ∧ (q.counted flow).window = p.window := by
    intro flow q hq
    obtain ⟨retired, honly⟩ := counted_only q flow
    rw [honly]
    exact hq
  have hreopens : ∀ {q : Processor}, q.resume = false ∧ q.window = p.window → Reopens s p q := by
    rintro q ⟨hresume, hwindow⟩
    exact ⟨fun h => absurd (hresume.symm.trans h) Bool.false_ne_true, Or.inl hwindow⟩
  cases hrecorded with
  | missing => exact ⟨.same rfl rfl, fun next _ => windowed_of_open hopen next⟩
  | stopped record found p₁ w₁ stops =>
    have hsame := stopsAt_of_stops (show (p.stopsAt s p.cpu.rip record.instr.len w).1 = true by rw [stops])
    rw [stops] at hsame
    obtain rfl : p₁ = p := hsame
    exact ⟨.same rfl rfl, nofun⟩
  | faulted record found p₁ w₁ passes fault hit p₂ w₂ executed =>
    exact ⟨(hreopens (hran passes executed)).trans (reopens_handFault ..), fun _ => windowed_handFault⟩
  | struck record found p₁ w₁ passes flow p₂ w₂ executed =>
    exact ⟨hreopens (hcounted flow (hran passes executed)), nofun⟩
  | left record found p₁ w₁ passes flow p₂ w₂ executed _ =>
    have hq := hcounted flow (hran passes executed)
    exact ⟨hreopens hq, fun next _ => windowed_of_open (by rw [hq.2]; exact hopen) next⟩
  | next record found p₁ w₁ passes flow p₂ w₂ executed _ _ _ =>
    have hq := hcounted flow (hran passes executed)
    exact ⟨hreopens hq, fun next _ => windowed_of_open (by rw [hq.2]; exact hopen) next⟩
  | through record found p₁ w₁ passes flow p₂ w₂ executed _ _ =>
    have hq := hcounted flow (hran passes executed)
    obtain ⟨linker, cache, hfollow⟩ := follow_only s limit (branched index branch flow) (p₂.counted flow) w₂
    rw [hfollow]
    exact ⟨hreopens hq, fun next _ => windowed_of_open (by rw [show _ = p.window from hq.2]; exact hopen) next⟩

/-- The window of a visited record is that of the start, or was opened in the run. -/
theorem window_of_visits (hv : Visits s limit p₀ w₀ point p w) : Reopens s p₀ p ∧ p.Windowed point := by
  induction hv with
  | start => exact ⟨.same rfl rfl, trivial⟩
  | @goto point next p p' w w' _ steps ih =>
    obtain ⟨hreopens, hwindowed⟩ := ih
    have hstep : Reopens s p (p.step s limit point w).2.1 ∧
        ∀ next, (p.step s limit point w).1 = .goto next → (p.step s limit point w).2.1.Windowed next := by
      cases point with
      | boundary => exact reopens_stepBoundary s limit p w
      | record => exact reopens_stepRecord hwindowed w
    rw [steps] at hstep
    exact ⟨hreopens.trans hstep.1, hstep.2 next rfl⟩

/-! ## What is executed -/

/-- The window was asked about when it was opened, for a state `c` and the page of `linear`. -/
structure AskedFor (R : Set Nat) (window : FetchWindow) (c : Cpu) (linear : UInt64) : Prop where
  opened : ∃ rip, windowAt c rip = .ok (linear, window.bias, window.size)
  watched : window.watched = true ↔ Meets R (pageBase linear) window.size

/-- Where the code segment is as it was then, no instruction inside an unwatched window has a watched byte. -/
theorem AskedFor.misses {window : FetchWindow} (h : AskedFor R window c linear) (hunwatched : window.watched = false)
    {c' : Cpu} (hsame : c.SameFetch c') (hr : c'.Reaches rip) {o len : Nat} (ho : window.offset? rip = some o)
    (hinside : o + len ≤ window.size) : ¬Meets R (c'.codeAddress rip) len := by
  rintro ⟨a, ha, hfrom, hto⟩
  obtain ⟨rip₀, hat⟩ := h.opened
  rw [← hsame.windowAt] at hat
  obtain ⟨hlt, rfl⟩ := FetchWindow.offset?_eq_some.1 ho
  obtain ⟨linear', hat', hpage, hoffset⟩ := windowAt_of_offset hat hlt hr
  rw [Cpu.codeAddress_of_windowAt hat'] at hfrom hto
  have hbase : (pageBase linear).toNat + (rip + window.bias).toNat = linear'.toNat := by
    rw [← Board.pageBase_congr hpage, Ram.toNat_pageBase, ← hoffset, pageOffset_eq]
    exact Nat.div_add_mod' ..
  exact Bool.false_ne_true (hunwatched.symm.trans (h.watched.2 ⟨a, ha, by omega, by omega⟩))

theorem askedFor_of_openWindow (hg : s.guard.WatchesCode R) {window : FetchWindow}
    (h : (openWindow s.bus s.guard c rip w).1 = .ok window) : ∃ linear, AskedFor R window c linear := by
  obtain ⟨linear, w', hat, hwatched⟩ := openWindow_spec h
  exact ⟨linear, ⟨rip, hat⟩, by rw [hwatched]; exact hg _ _ w'⟩

/-- An instruction is executed if the processor was told to go past a breakpoint, or if there is no breakpoint and not
both window and instruction have a watched byte. Else the run is stopped at it. The window is asked about when it is
opened: by this run's guard, or before the run by another. -/
theorem stopped_of_used (hused : Used ω p₀) (hg : s.guard.WatchesCode R) {index left generation : Nat}
    {branch : Option Nat} {record : Record}
    (hv : Visits s (p₀.limitFor budget) p₀ w₀ (.record index left generation branch) p w)
    (hfound : p.cache.pool[index]? = some record) :
    (p.window = p₀.window ∨ ∃ c linear, AskedFor R p.window c linear) ∧
    ((∃ q v, Executes s (p₀.limitFor budget) p₀ w₀ (.record index left generation branch) p w record.instr q v) ↔
      p.resume = true ∨ (s.guard.stopsBefore p.cpu.rip w).1 = false ∧
        (p.window.watched = false ∨ ¬Meets R (p.cpu.codeAddress p.cpu.rip) record.instr.len)) ∧
    ((¬∃ q v, Executes s (p₀.limitFor budget) p₀ w₀ (.record index left generation branch) p w record.instr q v) →
      ∃ w', p₀.run s budget w₀ = (.breakpoint, p, w')) ∧
    (p.resume = true → p₀.resume = true) ∧
    ∀ q v, Executes s (p₀.limitFor budget) p₀ w₀ (.record index left generation branch) p w record.instr q v →
      q.resume = false := by
  obtain ⟨hreopens, hwindowed⟩ := window_of_visits hv
  have hexecutes :
      (∃ q v, Executes s (p₀.limitFor budget) p₀ w₀ (.record index left generation branch) p w record.instr q v) ↔
        (p.stopsAt s p.cpu.rip record.instr.len w).1 = false := by
    constructor
    · rintro ⟨q, v, h⟩
      rw [h.passes]
    · intro hpasses
      exact ⟨_, _, hv, ⟨index, left, generation, branch, record, rfl, hfound, rfl⟩, Prod.ext hpasses rfl⟩
  refine ⟨?_, hexecutes.trans (stopsAt_eq_false_iff hg _), fun hnot => ?_, hreopens.resume, fun q v h => ?_⟩
  · rcases hreopens.window with hsame | hclosed | ⟨c, rip, v, hopened⟩
    · exact Or.inl hsame
    · exact absurd hclosed hwindowed
    · exact Or.inr ⟨c, askedFor_of_openWindow hg hopened⟩
  · rw [hexecutes, Bool.not_eq_false] at hnot
    have hsame := stopsAt_of_stops hnot
    rcases hstops : p.stopsAt s p.cpu.rip record.instr.len w with ⟨stop, p₁, w₁⟩
    rw [hstops] at hnot hsame
    obtain rfl : stop = true := hnot
    obtain rfl : p₁ = p := hsame
    refine ⟨w₁, run_of_visits hused.fit hv ?_⟩
    unfold step stepRecord
    dsimp only
    rw [hfound]
    dsimp only
    rw [hstops]
  · have hresume := resume_stopsAt s p.cpu.rip record.instr.len p w
    rw [h.passes] at hresume
    exact hresume

/-! ## An instruction across pages -/

/-- A guard that watches one address for execution. -/
def codeAt {ω : Type} (a : Nat) : Guard ω where
  stopsBefore _ w := (false, w)
  watches addr len kind w := (kind = .execute && addr.toNat ≤ a && a < addr.toNat + len, w)

theorem watchesCode_codeAt (a : Nat) : (codeAt a : Guard ω).WatchesCode {a} := by
  intro addr len w
  constructor
  · intro h
    exact ⟨a, rfl, by simpa [codeAt] using h⟩
  · rintro ⟨b, rfl, h⟩
    simpa [codeAt] using h

/-- `mov eax, 0x44332211` across the end of the first page, then `hlt`. -/
def crossBytes : List UInt8 :=
  List.replicate 0xFFE 0 ++ ([0xB8, 0x11, 0x22, 0x33, 0x44, 0xF4] ++ List.replicate 0xFFC 0)

theorem length_crossBytes : crossBytes.length = 0x2000 := by
  rw [crossBytes, List.length_append, List.length_append, List.length_replicate, List.length_replicate]
  rfl

def crossBoard : Board Unit Unit :=
  ⟨{ ram := ⟨⟨crossBytes⟩, .ofPages 2, by simp only [List.size_toArray, length_crossBytes]; rfl⟩ }, (), (), #[{}]⟩

def crossMove : Instr := { op := .moveImm .rax 0x44332211, len := 5 }

/-- A processor there. -/
def crosser : Processor := small ((Cpu.new .protectedMode).setRip 0xFFE)

theorem used_crosser : Used (Board Unit Unit) crosser := used_small ..

/-- What the processor does first, with `a` watched. -/
def crosserStep (a : Nat) : Step × Processor × Board Unit Unit :=
  crosser.step (Board.socket (codeAt a) .toCaller 0) (crosser.limitFor 10) .boundary crossBoard

theorem visits_crosserStep {a : Nat} (h : (crosserStep a).1 = .goto (.record 0 0 0 none)) :
    Visits (Board.socket (codeAt a) .toCaller 0) (crosser.limitFor 10) crosser crossBoard (.record 0 0 0 none)
      (crosserStep a).2.1 (crosserStep a).2.2 := .first h

/-- Watched in the first page, the run stops at the instruction. Watched in the second, it is executed. -/
theorem stopped_crosser :
    (∃ w', crosser.run (Board.socket (codeAt 0xFFF) .toCaller 0) 10 crossBoard =
      (.breakpoint, (crosserStep 0xFFF).2.1, w')) ∧
    ∃ q v, Executes (Board.socket (codeAt 0x1000) .toCaller 0) (crosser.limitFor 10) crosser crossBoard
      (.record 0 0 0 none) (crosserStep 0x1000).2.1 (crosserStep 0x1000).2.2 crossMove q v := by
  obtain ⟨hgoes, hpool, hresume, hwatched, haddress⟩ : (crosserStep 0xFFF).1 = .goto (.record 0 0 0 none) ∧
      (crosserStep 0xFFF).2.1.cache.pool[0]?.map (·.instr) = some crossMove ∧
      (crosserStep 0xFFF).2.1.resume = false ∧ (crosserStep 0xFFF).2.1.window.watched = true ∧
      (crosserStep 0xFFF).2.1.cpu.codeAddress (crosserStep 0xFFF).2.1.cpu.rip = 0xFFE := by
    decide +kernel
  obtain ⟨hgoes', hpool', hunwatched⟩ : (crosserStep 0x1000).1 = .goto (.record 0 0 0 none) ∧
      (crosserStep 0x1000).2.1.cache.pool[0]?.map (·.instr) = some crossMove ∧
      (crosserStep 0x1000).2.1.window.watched = false := by
    decide +kernel
  obtain ⟨record, hfound, hinstr⟩ := Option.map_eq_some_iff.1 hpool
  obtain ⟨record', hfound', hinstr'⟩ := Option.map_eq_some_iff.1 hpool'
  have hstops := stopped_of_used used_crosser (watchesCode_codeAt 0xFFF) (visits_crosserStep hgoes) hfound
  have hmisses := stopped_of_used used_crosser (watchesCode_codeAt 0x1000) (visits_crosserStep hgoes') hfound'
  rw [hinstr] at hstops
  rw [hinstr'] at hmisses
  refine ⟨hstops.2.2.1 fun hexecutes => ?_, hmisses.2.1.2 (Or.inr ⟨rfl, Or.inl hunwatched⟩)⟩
  rcases hstops.2.1.1 hexecutes with htold | ⟨-, hclear | hmeets⟩
  · exact Bool.false_ne_true (hresume.symm.trans htold)
  · exact Bool.false_ne_true (hclear.symm.trans hwatched)
  · rw [haddress] at hmeets
    exact hmeets ⟨0xFFF, rfl, by decide⟩

end Processor

end TraceCore
