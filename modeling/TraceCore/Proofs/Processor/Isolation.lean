/-
User code is isolated. At the user's privilege level a processor stores into frames only that some page gives to the user
for stores, and what it does depends on frames only that some page gives to the user at all: it runs alike on two boards
that differ elsewhere. The check is made when a window is opened and when data is reached; what is cached of the pages
behind a window is never looked up from another.
-/
import TraceCore.Proofs.Exec.Together
import TraceCore.Proofs.Memory.User
import TraceCore.Proofs.Processor.Tandem
import TraceCore.Proofs.Processor.Twins

namespace TraceCore

variable {γ δ : Type} {w₀ w v : Board γ δ} {i : Nat}

namespace Board

/-- Isolated boards, as they are reached from the user's privilege level. -/
def userPairing (w₀ : Board γ δ) : Pairing (Board γ δ) (Board γ δ) where
  related := Isolated w₀
  lost _ := False
  level := 3
  grants access linear addr := pageOffset addr = pageOffset linear ∧ w₀.UserPage addr ∧
    (access = .write → ∀ n, n / pageSize = addr.toNat / pageSize → w₀.mem.UserStore n)

theorem Isolated.events (h : Isolated w₀ w v) (i : Nat) : (line i).events v = (line i).events w := by
  show v.lines.getD i {} = w.lines.getD i {}
  rw [h.alike.lines]

theorem Isolated.granted (h : Isolated w₀ w v) (hframed : w₀.mem.Framed) {linear addr : UInt64} {access : Access}
    (htranslate : w.mem.translate linear access 3 = .ok addr) : w₀.userPairing.grants access linear addr := by
  have htranslate₀ := (MappedRam.translate_congr h.mappings linear access 3).symm.trans htranslate
  refine ⟨MappedRam.pageOffset_translate htranslate, fun n hn => (hframed.granted htranslate₀ hn).1, ?_⟩
  intro hwrite n hn
  exact (hframed.granted htranslate₀ hn).2 hwrite

/-- What lies in the page of a linear address, lies in the page that it is translated to. -/
theorem bytesInPage_le_toPageEnd {linear addr : UInt64} (h : pageOffset addr = pageOffset linear) (len : Nat) :
    bytesInPage linear len ≤ toPageEnd addr := by
  unfold bytesInPage toPageEnd
  rw [h]
  exact Nat.min_le_right ..

/-- What the user reaches answers alike on isolated boards, which stay isolated. -/
theorem joins_unwatched (hframed : w₀.mem.Framed) (d : Delivery (Board γ δ)) (i : Nat) :
    w₀.userPairing.Joins (unwatched d i) (unwatched d i) where
  loses := ⟨fun _ _ _ _ h => h, fun _ _ _ h => h, fun _ _ _ h => h, fun _ _ _ h => h⟩
  translate linear access w v h := ⟨(h.translate linear access 3).symm, h⟩
  granted linear access cpl w addr h htranslate := by
    obtain ⟨⟨v, hrelated⟩, rfl⟩ := h.resolve_left id
    exact hrelated.granted hframed htranslate
  read linear addr len w v hgrants h := by
    exact Or.inr ⟨(h.read hgrants.2.1 (bytesInPage_le_toPageEnd hgrants.1 len)).symm, h⟩
  write linear addr src w v hgrants hfits h := by
    refine h.write (hgrants.2.2 rfl) ?_
    rw [← hfits]
    exact bytesInPage_le_toPageEnd hgrants.1 src.length
  watches _ _ _ _ h := ⟨rfl, h⟩
  events w v h := (h.events i).symm

end Board

open Board

/-- All of the window lies in a page of the user. -/
def FetchWindow.Within (window : FetchWindow) (w₀ : Board γ δ) : Prop :=
  ∀ offset < window.size, w₀.UserPage (window.address offset)

/-! ## Fetching -/

namespace Board.Isolated

/-- Windows are opened alike, and in pages of the user only. -/
theorem openWindow (h : Isolated w₀ w v) (hframed : w₀.mem.Framed) {cpu : Cpu} (hlevel : cpu.cpl = 3) (rip : UInt64) :
    (openWindow bus .none cpu rip v).1 = (openWindow bus .none cpu rip w).1 ∧
      ∀ window, (TraceCore.openWindow bus .none cpu rip w).1 = .ok window →
        window.Within w₀ ∧ window.entry < window.size := by
  constructor
  · unfold TraceCore.openWindow
    rcases windowAt cpu rip with e | ⟨linear, bias, size⟩
    · rfl
    · dsimp only
      rw [show bus.translate linear .execute cpu.cpl v = (v.mem.translate linear .execute cpu.cpl, v) from rfl,
        show bus.translate linear .execute cpu.cpl w = (w.mem.translate linear .execute cpu.cpl, w) from rfl, h.translate]
      cases w.mem.translate linear .execute cpu.cpl with
      | error pf => rfl
      | ok addr =>
        have hbacked : (bus.codePage (pageBase addr) v).isNone = (bus.codePage (pageBase addr) w).isNone :=
          Ram.isNone_page?_congr h.alike.size _
        have hremaps : bus.remaps v = bus.remaps w := h.alike.remaps
        dsimp only [Guard.none]
        rw [hbacked, hremaps]
        split <;> rfl
  · intro window hopen
    obtain ⟨linear, addr, hat, htranslate, -, hbase, hentry, -⟩ := (openWindow_eq_ok .none).1 hopen
    rw [hlevel] at htranslate
    obtain ⟨hin, hsize⟩ := windowAt_size hat
    refine ⟨fun offset hoffset n hn => (h.granted hframed htranslate).2.1 n ?_, by rwa [hentry]⟩
    have haddr := addr.toNat_lt
    unfold FetchWindow.address at hn
    rw [hn, hbase, UInt64.toNat_add, Ram.toNat_pageBase, UInt64.toNat_ofNat']
    unfold pageSize at *
    omega

end Board.Isolated

/-- The same answer and cache, and boards that are isolated. -/
structure Fetched {α : Type} (w₀ : Board γ δ) (x y : α × TraceCache × Board γ δ) : Prop where
  answer : y.1 = x.1
  cache : y.2.1 = x.2.1
  boards : Isolated w₀ x.2.2 y.2.2

namespace TraceCache

variable {cpu : Cpu}

theorem buildSplit_isolated (h : Isolated w₀ w v) (hframed : w₀.mem.Framed) (hlevel : cpu.cpl = 3) (decode : Decoder)
    (site : Site) (slot : Nat) (stamp : UInt32) {page page' : PageView}
    (hpage : ∀ offset len, page'.window offset len = page.window offset len) (c : TraceCache) :
    Fetched w₀ (c.buildSplit bus decode site (nextWindow .none cpu) slot stamp page w)
      (c.buildSplit bus decode site (nextWindow .none cpu) slot stamp page' v) := by
  unfold buildSplit
  dsimp only
  simp only [hpage]
  split
  case isTrue => exact ⟨rfl, rfl, h⟩
  case isFalse =>
    generalize site.rip + UInt64.ofNat (page.window (pageOffset site.addr) site.remaining).length = rip
    obtain ⟨hopen, hwithin⟩ := h.openWindow hframed hlevel rip
    have hw := openWindow_none cpu rip w
    have hv := openWindow_none cpu rip v
    unfold nextWindow
    generalize openWindow bus .none cpu rip w = out at hopen hwithin hw ⊢
    generalize openWindow bus .none cpu rip v = out' at hopen hv ⊢
    obtain ⟨found, w'⟩ := out
    obtain ⟨found', v'⟩ := out'
    dsimp only at hopen hwithin hw hv ⊢
    subst hopen hw hv
    cases found' with
    | error e => exact ⟨rfl, rfl, h⟩
    | ok window =>
      dsimp only [Except.mapError]
      cases hoffset : window.offset? rip with
      | none => exact ⟨rfl, rfl, h⟩
      | some offset =>
        have huser := (hwithin window rfl).1 offset (FetchWindow.offset_lt hoffset)
        dsimp only
        rw [show bus.stamps v' = bus.stamps w' from h.alike.stamps]
        rcases h.page? huser with ⟨hnone, hnone'⟩ | ⟨tail, tail', hsome, hsome', htail⟩
        · rw [show bus.codePage (window.address offset) w' = Option.none from hnone,
            show bus.codePage (window.address offset) v' = Option.none from hnone']
          exact ⟨rfl, rfl, h⟩
        · rw [show bus.codePage (window.address offset) w' = some tail from hsome,
            show bus.codePage (window.address offset) v' = some tail' from hsome']
          dsimp only
          rw [htail]
          split
          case h_1 => exact ⟨rfl, rfl, h⟩
          case h_2 => exact ⟨rfl, rfl, h⟩
          case h_3 instr _ =>
            split
            case isTrue => exact ⟨rfl, rfl, h⟩
            case isFalse =>
              split
              case isTrue => exact ⟨rfl, rfl, h.mapStamps _⟩
              case isFalse => exact ⟨rfl, rfl, (h.mapStamps _).mapStamps _⟩

/-- The trace at a site in a page of the user is found and built alike. -/
theorem ensure_isolated (h : Isolated w₀ w v) (hframed : w₀.mem.Framed) (hlevel : cpu.cpl = 3) (decode : Decoder)
    (site : Site) (hsite : w₀.UserPage site.addr) (c : TraceCache) :
    Fetched w₀ (c.ensure bus decode site (nextWindow .none cpu) w) (c.ensure bus decode site (nextWindow .none cpu) v) := by
  unfold ensure
  rw [show bus.stamps v = bus.stamps w from h.alike.stamps]
  rcases c.lookup (bus.stamps w) site.addr site.mode with ⟨_ | slot, c₁⟩
  case some => exact ⟨rfl, rfl, h⟩
  case none =>
    dsimp only
    unfold build
    dsimp only
    rw [show bus.stamps v = bus.stamps w from h.alike.stamps]
    rcases h.page? hsite with ⟨hnone, hnone'⟩ | ⟨page, page', hsome, hsome', hpage⟩
    · rw [show bus.codePage site.addr w = Option.none from hnone, show bus.codePage site.addr v = Option.none from hnone']
      exact ⟨rfl, rfl, h⟩
    · rw [show bus.codePage site.addr w = some page from hsome, show bus.codePage site.addr v = some page' from hsome']
      dsimp only
      rw [decodeRun_congr hpage]
      split
      case h_1 => exact buildSplit_isolated h hframed hlevel decode site _ _ hpage _
      case h_2 => exact ⟨rfl, rfl, h⟩
      case h_3 => exact ⟨rfl, rfl, h.mapStamps _⟩

end TraceCache

namespace Processor

variable {p : Processor}

/-- At the user's privilege level, with a window into a page of the user. -/
structure Inside (w₀ : Board γ δ) (p : Processor) : Prop where
  level : p.cpu.cpl = 3
  window : p.window.Within w₀

/-- The same outcome and processor, which is still at the user's level, and boards that are isolated. -/
abbrev Confined {α : Type} (w₀ : Board γ δ) (x y : α × Processor × Board γ δ) : Prop :=
  InTandem (Inside w₀) (Isolated w₀) x y

theorem offsetOf_isolated (hw : Isolated w₀ w v) (p : Processor) (rip : UInt64) :
    p.offsetOf bus rip v = p.offsetOf bus rip w := by
  unfold offsetOf
  rw [show bus.remaps v = bus.remaps w from hw.alike.remaps]

/-- The window is entered alike, at an offset of a page of the user. -/
theorem enterWindow_isolated (hframed : w₀.mem.Framed) (hp : p.Inside w₀) (hw : Isolated w₀ w v) :
    Confined w₀ (p.enterWindow (unwatched .toCaller i) w) (p.enterWindow (unwatched .toCaller i) v) ∧
      ∀ offset, (p.enterWindow (unwatched .toCaller i) w).1 = .ok offset →
        offset < (p.enterWindow (unwatched .toCaller i) w).2.1.window.size := by
  obtain ⟨hopen, hwithin⟩ := hw.openWindow hframed hp.level p.cpu.rip
  have hopenw := openWindow_none p.cpu p.cpu.rip w
  have hopenv := openWindow_none p.cpu p.cpu.rip v
  unfold enterWindow
  rw [show p.offsetOf (unwatched .toCaller i).bus p.cpu.rip v = p.offsetOf (unwatched .toCaller i).bus p.cpu.rip w from
    offsetOf_isolated hw p p.cpu.rip]
  cases hoffset : p.offsetOf (unwatched .toCaller i).bus p.cpu.rip w with
  | some offset =>
    refine ⟨⟨rfl, rfl, hp, hw⟩, fun _ heq => ?_⟩
    cases heq
    exact FetchWindow.offset_lt (offsetOf_eq_some.1 hoffset).2
  | none =>
    dsimp only
    rw [show (unwatched .toCaller i : Socket (Board γ δ)).bus = bus from rfl,
      show (unwatched .toCaller i : Socket (Board γ δ)).guard = .none from rfl]
    generalize openWindow bus .none p.cpu p.cpu.rip w = out at hopen hwithin hopenw ⊢
    generalize openWindow bus .none p.cpu p.cpu.rip v = out' at hopen hopenv ⊢
    obtain ⟨found, w'⟩ := out
    obtain ⟨found', v'⟩ := out'
    dsimp only at hopen hwithin hopenw hopenv ⊢
    subst hopen hopenw hopenv
    cases found' with
    | error e => exact ⟨⟨rfl, rfl, hp, hw⟩, nofun⟩
    | ok window =>
      obtain ⟨hin, hentry⟩ := hwithin window rfl
      refine ⟨⟨rfl, rfl, ⟨hp.level, hin⟩, hw⟩, fun _ heq => ?_⟩
      cases heq
      exact hentry

theorem findTrace_isolated (hframed : w₀.mem.Framed) (hp : p.Inside w₀) (hw : Isolated w₀ w v) :
    Confined w₀ (p.findTrace (unwatched .toCaller i) w) (p.findTrace (unwatched .toCaller i) v) := by
  obtain ⟨⟨houtcome, hprocessor, hinside, hboards⟩, hoffset⟩ := enterWindow_isolated (i := i) hframed hp hw
  unfold findTrace
  generalize p.enterWindow (unwatched .toCaller i) w = out at houtcome hprocessor hinside hboards hoffset ⊢
  generalize p.enterWindow (unwatched .toCaller i) v = out' at houtcome hprocessor hboards ⊢
  obtain ⟨found, q, w'⟩ := out
  obtain ⟨found', q', v'⟩ := out'
  dsimp only at houtcome hprocessor hinside hboards hoffset ⊢
  subst houtcome hprocessor
  cases found' with
  | error e => exact ⟨rfl, rfl, hinside, hboards⟩
  | ok offset =>
    have hfetched := TraceCache.ensure_isolated hboards hframed hinside.level q'.decode
      { addr := q'.window.address offset, mode := q'.cpu.fetchMode, rip := q'.cpu.rip
        remaining := q'.window.remaining offset } (hinside.window offset (hoffset offset rfl)) q'.cache
    obtain ⟨hanswer, hcache, hafter⟩ := hfetched
    refine ⟨hanswer, ?_, ⟨hinside.level, hinside.window⟩, hafter⟩
    exact congrArg (fun cache => { q' with cache }) hcache

/-! ## Events and faults -/

theorem serve_isolated (hp : p.Inside w₀) (hw : Isolated w₀ w v) :
    Confined w₀ (serve (unwatched .toCaller i) p w) (serve (unwatched .toCaller i) p v) := by
  unfold serve EventLine.take EventLine.clear
  dsimp only
  rw [show (unwatched .toCaller i : Socket (Board γ δ)).line = line i from rfl, hw.events i]
  split
  case isTrue => exact ⟨rfl, rfl, hp, hw⟩
  case isFalse =>
    have hcleared := hw.set i ((line i).events w \ .stopTrace)
    generalize (line i).set ((line i).events w \ .stopTrace) w = w₁ at hcleared ⊢
    generalize (line i).set ((line i).events w \ .stopTrace) v = v₁ at hcleared ⊢
    rw [hcleared.events i]
    have hheard := hcleared.set i (((line i).events w₁).take .debugStop).2
    split
    case isTrue => exact ⟨rfl, rfl, hp, hheard⟩
    case isFalse =>
      split
      case isFalse => exact ⟨rfl, rfl, hp, hheard⟩
      case isTrue =>
        rw [show (unwatched .toCaller i : Socket (Board γ δ)).delivery = .toCaller from rfl]
        unfold Delivery.toCaller EventLine.take
        dsimp only
        rw [hheard.events i]
        refine ⟨rfl, rfl, ⟨?_, hp.window⟩, hheard.set i _⟩
        dsimp only
        split
        case isTrue => exact hp.level
        case isFalse => exact hp.level

theorem handFault_isolated (hp : p.Inside w₀) (hw : Isolated w₀ w v) (fault : Fault) (rip : UInt64) :
    Confined w₀ (p.handFault (unwatched .toCaller i) fault rip w) (p.handFault (unwatched .toCaller i) fault rip v) := by
  refine ⟨rfl, rfl, ⟨hp.level, ?_⟩, hw⟩
  cases fault with
  | fetch e => exact fun offset hoffset => absurd hoffset (Nat.not_lt_zero offset)
  | _ => exact hp.window

/-! ## Running -/

theorem execute_isolated (hframed : w₀.mem.Framed) (hp : p.Inside w₀) (hw : Isolated w₀ w v) (limit : Nat)
    (instr : Instr) : Confined w₀
      ((p.execute (unwatched .toCaller i) limit instr w).1, (p.execute (unwatched .toCaller i) limit instr w).2.2)
      ((p.execute (unwatched .toCaller i) limit instr v).1, (p.execute (unwatched .toCaller i) limit instr v).2.2) ∧
    (p.execute (unwatched .toCaller i) limit instr v).2.1 = (p.execute (unwatched .toCaller i) limit instr w).2.1 := by
  have hjoins := joins_unwatched hframed .toCaller i
  obtain ⟨houtcome, hhit, hfirst, hsecond, hlevel, hworlds⟩ :=
    (hjoins.execute (.refl p) hp.level hw limit instr).resolve_left fun h => h
  refine ⟨⟨houtcome, hsecond.trans hfirst.symm, ⟨hlevel, ?_⟩, hworlds⟩, hhit⟩
  dsimp only
  rw [hfirst]
  exact hp.window

/-- At the user's privilege level a processor cannot tell isolated boards apart. -/
theorem tandem_isolated (hframed : w₀.mem.Framed) (i : Nat) :
    (unwatched .toCaller i).Tandem (Inside w₀) (Isolated w₀) (unwatched .toCaller i) where
  remaps hw := hw.alike.remaps
  stamps hw := hw.alike.stamps
  events hw := hw.events i
  carries _ _ _ hp := ⟨hp.level, hp.window⟩
  serve := serve_isolated
  handFault fault rip hp hw := handFault_isolated hp hw fault rip
  findTrace hp hw := findTrace_isolated hframed hp hw
  stopsAt _ _ hp hw := by
    rw [stopsAt_unwatched, stopsAt_unwatched]
    exact ⟨rfl, rfl, ⟨hp.level, hp.window⟩, hw⟩
  execute limit instr hp hw := execute_isolated hframed hp hw limit instr

theorem run_isolated (hframed : w₀.mem.Framed) (hp : p.Inside w₀) (hw : Isolated w₀ w v) (budget : Nat) :
    Confined w₀ (p.run (unwatched .toCaller i) budget w) (p.run (unwatched .toCaller i) budget v) :=
  (tandem_isolated hframed i).run hp hw budget

/-- User code that runs on two boards stores what it may, and cannot tell from anything else where it is. -/
structure Isolates (w : Board γ δ) (x y : Exit × Processor × Board γ δ) : Prop where
  kept : ∀ n, ¬ w.mem.UserStore n → x.2.2.mem.ram.bytes[n]? = w.mem.ram.bytes[n]?
  exit : y.1 = x.1
  cpu : y.2.1.cpu = x.2.1.cpu
  retired : y.2.1.retired = x.2.1.retired
  bytes : ∀ n, w.mem.UserFrame n → y.2.2.mem.ram.bytes[n]? = x.2.2.mem.ram.bytes[n]?

/-- A run at the user's privilege level changes nothing outside the frames that the user may store to. On boards that
agree in the frames of the user it leaves for the same reason, in the same state, after as many instructions, and they
agree in these frames again. -/
theorem isolates_of_new {id : Nat} {config : CoreConfig} {cpu : Cpu} (hnew : Processor.new id config cpu = .ok p)
    (hlevel : cpu.cpl = 3) (hframed : w.mem.Framed) (halike : w.UserAlike v) (i budget : Nat) :
    Isolates w (p.run (unwatched .toCaller i) budget w) (p.run (unwatched .toCaller i) budget v) := by
  obtain ⟨hcpu, -, -⟩ := new_eq_ok hnew
  have hwindow : p.window = .empty := by
    unfold Processor.new withDecoder at hnew
    cases hvalid : config.validate with
    | error e => rw [hvalid] at hnew; cases hnew
    | ok _ => rw [hvalid] at hnew; cases hnew; rfl
  have hinside : p.Inside w := by
    refine ⟨by rw [hcpu]; exact hlevel, fun offset hoffset => ?_⟩
    rw [hwindow] at hoffset
    exact absurd hoffset (Nat.not_lt_zero offset)
  obtain ⟨houtcome, hprocessor, -, hboards⟩ := run_isolated (i := i) hframed hinside (.refl halike) budget
  refine ⟨hboards.kept, houtcome, ?_, ?_, fun n hn => hboards.bytes hn⟩
  · rw [hprocessor]
  · rw [hprocessor]

/-- Code that stores into the next page, where a secret is. -/
def vaultBytes (secret : UInt8) : Array UInt8 :=
  (overwrite (Array.replicate 8192 0) 0 [0xA2, 0x00, 0x10, 0x00, 0x00]).setIfInBounds 4096 secret

theorem size_vaultBytes (secret : UInt8) : (vaultBytes secret).size = 8192 := by
  unfold vaultBytes
  rw [Array.size_setIfInBounds, size_overwrite, Array.size_replicate]

/-- Only the page of the code is the user's. -/
def vaultMappings : Std.HashMap UInt64 Mapping :=
  (Std.HashMap.insert ∅ 0 { frame := 0 }).insert 1 { frame := 1, user := false }

def vault (secret : UInt8) : Board Unit Unit where
  mem :=
    { ram := { bytes := vaultBytes secret, stamps := .ofPages 2, aligned := by rw [size_vaultBytes]; rfl }
      mappings := some vaultMappings }
  guard := ()
  delivery := ()
  lines := #[{}]

/-- A processor at the user's privilege level. -/
def burglar : Processor := { Bench.counting 4 with cpu := { Cpu.new .protectedMode with cpl := 3 } }

theorem mapping?_vault {secret : UInt8} {linear : UInt64} {mapping : Mapping}
    (h : (vault secret).mem.mapping? linear = some mapping) :
    mapping = { frame := 0 } ∨ mapping = { frame := 1, user := false } := by
  replace h : vaultMappings[pageOf linear]? = some mapping := h
  unfold vaultMappings at h
  rw [Std.HashMap.getElem?_insert, Std.HashMap.getElem?_insert, Std.HashMap.getElem?_empty] at h
  split at h
  case isTrue => cases h; exact Or.inr rfl
  case isFalse =>
    split at h
    case isTrue => cases h; exact Or.inl rfl
    case isFalse => cases h

theorem framed_vault (secret : UInt8) : (vault secret).mem.Framed := by
  refine ⟨rfl, fun linear mapping hmapping => ?_⟩
  rcases mapping?_vault hmapping with rfl | rfl <;> decide

/-- The user sees no difference between secrets. -/
theorem userAlike_vault (secret secret' : UInt8) : (vault secret).UserAlike (vault secret') := by
  have hmem : ∀ secret, (vault secret).mem.mappings = some vaultMappings ∧ (vault secret).mem.remaps = 0 ∧
      (vault secret).mem.ram.stamps = .ofPages 2 ∧ (vault secret).lines = #[{}] := fun _ => ⟨rfl, rfl, rfl, rfl⟩
  have hbytes : ∀ secret, (vault secret).mem.ram.bytes = vaultBytes secret := by
    intro secret
    unfold vault
    dsimp only
  obtain ⟨hmappings, hremaps, hstamps, hlines⟩ := hmem secret
  obtain ⟨hmappings', hremaps', hstamps', hlines'⟩ := hmem secret'
  refine ⟨hmappings'.trans hmappings.symm, hremaps'.trans hremaps.symm, hstamps'.trans hstamps.symm,
    hlines'.trans hlines.symm, by rw [hbytes, hbytes, size_vaultBytes, size_vaultBytes], fun n hn => ?_⟩
  obtain ⟨linear, mapping, hmapping, huser, hframe⟩ := hn
  have hlow : n / pageSize = 0 := by
    rcases mapping?_vault hmapping with rfl | rfl
    · exact hframe
    · cases huser
  have hne : 4096 ≠ n := by
    unfold pageSize at hlow
    omega
  rw [hbytes, hbytes]
  unfold vaultBytes
  rw [Array.getElem?_setIfInBounds_ne hne, Array.getElem?_setIfInBounds_ne hne]

theorem isolates_vault : Isolates (vault 0) (burglar.run (unwatched .toCaller 0) 5 (vault 0))
    (burglar.run (unwatched .toCaller 0) 5 (vault 7)) := by
  have hnew : Processor.new 0 (Bench.counting 4).config { Cpu.new .protectedMode with cpl := 3 } = .ok burglar := rfl
  exact isolates_of_new hnew rfl (framed_vault 0) (userAlike_vault 0 7) 0 5

end Processor

end TraceCore
