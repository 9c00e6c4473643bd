/-
Where instructions are fetched from: the physical address of an instruction pointer and the bytes
to the end of its window. `openWindow` finds them, and as long as no mapping changes, every window
that an instruction pointer lies in gives the same.
-/
import TraceCore.Proofs.Fetch.Window
import TraceCore.Proofs.Trace.Build

namespace TraceCore

/-! ## Reading a page -/

namespace Ram

/-- Where both have the page of the address, at most `n` bytes from there on are read alike. -/
def ReadsAs (ram ram' : Ram) (addr : UInt64) (n : Nat) : Prop :=
  ∀ page page', ram.page? addr = some page → ram'.page? addr = some page' → ∀ k ≤ n,
    page'.window (pageOffset addr) k = page.window (pageOffset addr) k

variable {ram ram' : Ram} {addr : UInt64} {n : Nat}

theorem readsAs_of_bytes (h : ∀ k < n, ram'.bytes[addr.toNat + k]? = ram.bytes[addr.toNat + k]?) :
    ram.ReadsAs ram' addr n := by
  intro page page' hpage hpage' k hk
  rw [window_eq_slice hpage rfl, window_eq_slice hpage' rfl]
  exact slice_eq fun j hj => h j (by omega)

theorem isNone_page?_congr (hsize : ram'.bytes.size = ram.bytes.size) (addr : UInt64) :
    (ram'.page? addr).isNone = (ram.page? addr).isNone := by
  have hsome : (ram'.page? addr).isSome = (ram.page? addr).isSome := by
    rw [Bool.eq_iff_iff, isSome_page?, isSome_page?, hsize]
  rw [← Option.not_isSome, ← Option.not_isSome, hsome]

/-- Memory of the same size has the same pages. -/
theorem ReadsAs.page? (h : ram.ReadsAs ram' addr n) (hsize : ram'.bytes.size = ram.bytes.size) :
    (ram.page? addr = none ∧ ram'.page? addr = none) ∨ ∃ page page', ram.page? addr = some page ∧
      ram'.page? addr = some page' ∧ ∀ k ≤ n, page'.window (pageOffset addr) k = page.window (pageOffset addr) k := by
  have hnone := isNone_page?_congr hsize addr
  cases hpage : ram.page? addr with
  | none =>
    rw [hpage] at hnone
    exact Or.inl ⟨rfl, Option.isNone_iff_eq_none.1 hnone⟩
  | some page =>
    cases hpage' : ram'.page? addr with
    | none => rw [hpage, hpage'] at hnone; cases hnone
    | some page' => exact Or.inr ⟨page, page', rfl, rfl, h page page' hpage hpage'⟩

end Ram

/-! ## Translation -/

theorem toNat_address (m : Mapping) (linear : UInt64) :
    (m.address linear).toNat = m.frame.toNat % 2 ^ 52 * pageSize + linear.toNat % pageSize := by
  have hmod : (linear % 4096).toNat = linear.toNat % 4096 := by simp
  have hshift : (m.frame <<< 12).toNat = 2 ^ 12 * (m.frame.toNat % 2 ^ 52) := by
    rw [UInt64.toNat_shiftLeft, show (12 : UInt64).toNat % 64 = 12 from rfl, Nat.shiftLeft_eq]
    omega
  unfold Mapping.address
  rw [UInt64.toNat_or, hmod, hshift, ← Nat.two_pow_add_eq_or_of_lt (by omega)]
  unfold pageSize
  omega

namespace MappedRam

theorem ram_ofSize {size : UInt64} {m : MappedRam} (h : ofSize size = .ok m) : Ram.ofSize size = .ok m.ram := by
  unfold ofSize at h
  cases hram : Ram.ofSize size with
  | error e => rw [hram] at h; cases h
  | ok ram => rw [hram] at h; cases h; rfl

variable {m m' : MappedRam} {linear linear' addr : UInt64} {access : Access} {cpl : UInt8}

theorem pageOffset_translate (h : m.translate linear access cpl = .ok addr) : pageOffset addr = pageOffset linear := by
  unfold translate at h
  split at h
  case h_1 => cases h; rfl
  case h_2 mappings _ =>
    split at h
    case h_1 => cases h
    case h_2 mapping _ =>
      split at h
      case isFalse => cases h
      case isTrue =>
        cases h
        rw [pageOffset_eq, pageOffset_eq, toNat_address]
        unfold pageSize
        omega

/-- Addresses of one page go to one page. -/
theorem translate_of_pageOf (h : m.translate linear access cpl = .ok addr) (hp : pageOf linear' = pageOf linear) :
    ∃ addr', m.translate linear' access cpl = .ok addr' ∧ pageOf addr' = pageOf addr := by
  unfold translate at h ⊢
  rw [hp]
  split at h
  case h_1 => cases h; exact ⟨linear', rfl, hp⟩
  case h_2 mappings _ =>
    split at h
    case h_1 => cases h
    case h_2 mapping _ =>
      split at h
      case isFalse => cases h
      case isTrue hallows =>
        cases h
        rw [if_pos hallows]
        refine ⟨_, rfl, UInt64.toNat_inj.1 ?_⟩
        rw [toNat_pageOf, toNat_pageOf, toNat_address, toNat_address]
        unfold pageSize
        omega

theorem toPageEnd_translate (h : m.translate linear access cpl = .ok addr) : toPageEnd linear = toPageEnd addr := by
  unfold toPageEnd
  rw [pageOffset_translate h]

/-- In one page physical addresses follow each other as linear ones do. -/
theorem translate_add {k : Nat} (h : m.translate linear access cpl = .ok addr) (hk : k < toPageEnd linear) :
    m.translate (linear + UInt64.ofNat k) access cpl = .ok (addr + UInt64.ofNat k) := by
  obtain ⟨hpage, hoffset, -, -⟩ := pageOf_add hk
  obtain ⟨addr', htr, hpage'⟩ := translate_of_pageOf h hpage
  have hoff := pageOffset_translate h
  have hoff' := pageOffset_translate htr
  rw [toPageEnd_translate h] at hk
  obtain ⟨-, -, -, hadd⟩ := pageOf_add hk
  rw [htr]
  congr 1
  have hp : addr'.toNat / pageSize = addr.toNat / pageSize := by rw [← toNat_pageOf, ← toNat_pageOf, hpage']
  apply UInt64.toNat_inj.1
  rw [hadd]
  rw [hoffset, pageOffset_eq] at hoff'
  rw [pageOffset_eq] at hoff
  unfold pageSize at *
  omega

/-- The page of a new mapping is where the mapping says. The first mapping takes all other pages away, and any other
leaves them. -/
theorem translate_map (m : MappedRam) (linear : UInt64) (mapping : Mapping) (linear' : UInt64) (access : Access)
    (cpl : UInt8) :
    (m.map linear mapping).translate linear' access cpl =
      if pageOf linear' = pageOf linear then
        if mapping.allows access cpl then .ok (mapping.address linear') else .error (.of linear' true access cpl)
      else if m.mappings.isSome then m.translate linear' access cpl
      else .error (.of linear' false access cpl) := by
  unfold translate map
  dsimp only
  rw [Std.HashMap.getElem?_insert]
  by_cases hpage : pageOf linear' = pageOf linear
  case pos => rw [if_pos hpage, if_pos (beq_iff_eq.2 hpage.symm)]
  case neg =>
    rw [if_neg hpage, if_neg (fun heq => hpage (beq_iff_eq.1 heq).symm)]
    cases m.mappings with
    | none => simp
    | some mappings => rfl

/-- Physical address of the instruction at `rip`, and the bytes from there to the end of its
window. -/
def fetchView (m : MappedRam) (cpu : Cpu) (rip : UInt64) : Except FetchFault (UInt64 × Nat) :=
  match windowAt cpu rip with
  | .error e => .error e
  | .ok (linear, _, size) =>
    match m.translate linear .execute cpu.cpl with
    | .error pf => .error (.page pf)
    | .ok addr =>
      if (m.ram.page? (pageBase addr)).isNone then .error (.unbacked addr) else .ok (addr, size - pageOffset linear)

/-- `m'` comes after `m`: every change of a mapping is counted, and memory keeps its size. -/
structure Moves (m m' : MappedRam) : Prop where
  remaps : m.remaps ≤ m'.remaps
  size : m'.ram.bytes.size = m.ram.bytes.size
  same : m'.remaps = m.remaps → m'.mappings = m.mappings

theorem Moves.refl (m : MappedRam) : m.Moves m := ⟨Nat.le_refl _, rfl, fun _ => rfl⟩

theorem Moves.trans {a b c : MappedRam} (h : a.Moves b) (h' : b.Moves c) : a.Moves c :=
  ⟨Nat.le_trans h.remaps h'.remaps, h'.size.trans h.size, fun he => by
    have := h.remaps
    have := h'.remaps
    rw [h'.same (by omega), h.same (by omega)]⟩

/-- Memory that holds and maps the same, whatever its stamps are. -/
structure Agrees (m m' : MappedRam) : Prop where
  bytes : m'.ram.bytes = m.ram.bytes
  mappings : m'.mappings = m.mappings

theorem Agrees.of_eq (h : m' = m) : m.Agrees m' := by
  rw [h]
  exact ⟨rfl, rfl⟩

theorem Agrees.page? (h : m.Agrees m') (addr : UInt64) : m'.ram.page? addr = m.ram.page? addr := by
  unfold Ram.page?
  simp only [h.bytes]

theorem translate_congr (h : m'.mappings = m.mappings) (linear : UInt64) (access : Access) (cpl : UInt8) :
    m'.translate linear access cpl = m.translate linear access cpl := by
  unfold translate
  rw [h]

theorem Agrees.translate (h : m.Agrees m') (linear : UInt64) (access : Access) (cpl : UInt8) :
    m'.translate linear access cpl = m.translate linear access cpl := translate_congr h.mappings linear access cpl

theorem Agrees.readsAs (h : m.Agrees m') (addr : UInt64) (n : Nat) : m.ram.ReadsAs m'.ram addr n := by
  intro page page' hpage hpage' k _
  rw [h.page?, hpage] at hpage'
  cases hpage'
  rfl

/-- What is fetched from where depends on the mappings and on how much memory there is. -/
theorem fetchView_congr (hsize : m'.ram.bytes.size = m.ram.bytes.size) (hmap : m'.mappings = m.mappings) (cpu : Cpu)
    (rip : UInt64) : m'.fetchView cpu rip = m.fetchView cpu rip := by
  unfold fetchView translate
  simp only [hmap, Ram.isNone_page?_congr hsize]

theorem Agrees.fetchView (h : m.Agrees m') (cpu : Cpu) (rip : UInt64) : m'.fetchView cpu rip = m.fetchView cpu rip :=
  fetchView_congr (by rw [h.bytes]) h.mappings cpu rip

end MappedRam

/-! ## Opening a window -/

/-- The guard leaves memory alone. -/
structure Guard.Quiet {γ δ : Type} (guard : Guard (Board γ δ)) : Prop where
  stopsBefore : ∀ rip w, (guard.stopsBefore rip w).2.mem = w.mem
  watches : ∀ addr len kind w, (guard.watches addr len kind w).2.mem = w.mem

theorem Guard.quiet_none {γ δ : Type} : (Guard.none : Guard (Board γ δ)).Quiet := ⟨fun _ _ => rfl, fun _ _ _ _ => rfl⟩

namespace Board

variable {γ δ : Type} {cpu : Cpu} {rip rip' addr : UInt64} {w : Board γ δ} {window : FetchWindow}

/-- Opening a window asks the guard, and does nothing else. -/
theorem openWindow_world (guard : Guard (Board γ δ)) (cpu : Cpu) (rip : UInt64) (w : Board γ δ) :
    (openWindow bus guard cpu rip w).2 = w ∨
      ∃ linear size, (openWindow bus guard cpu rip w).2 = (guard.watches linear size .execute w).2 := by
  unfold openWindow
  split
  case h_1 => exact Or.inl rfl
  case h_2 l _ size _ =>
    rw [show bus.translate l .execute cpu.cpl w = (w.mem.translate l .execute cpu.cpl, w) from rfl]
    cases w.mem.translate l .execute cpu.cpl with
    | error pf => exact Or.inl rfl
    | ok addr =>
      dsimp only
      split
      case isTrue => exact Or.inl rfl
      case isFalse => exact Or.inr ⟨pageBase l, size, rfl⟩

theorem mem_openWindow {guard : Guard (Board γ δ)} (h : guard.Quiet) (cpu : Cpu) (rip : UInt64) (w : Board γ δ) :
    (openWindow bus guard cpu rip w).2.mem = w.mem := by
  rcases openWindow_world guard cpu rip w with hw | ⟨linear, size, hw⟩
  · rw [hw]
  · rw [hw, h.watches]

theorem openWindow_none (cpu : Cpu) (rip : UInt64) (w : Board γ δ) : (openWindow bus .none cpu rip w).2 = w := by
  rcases openWindow_world .none cpu rip w with hw | ⟨linear, size, hw⟩
  · exact hw
  · rw [hw]
    rfl

theorem openWindow_eq_ok (guard : Guard (Board γ δ)) :
    (openWindow bus guard cpu rip w).1 = .ok window ↔
      ∃ linear addr, windowAt cpu rip = .ok (linear, window.bias, window.size) ∧
      w.mem.translate linear .execute cpu.cpl = .ok addr ∧ (w.mem.ram.page? (pageBase addr)).isSome = true ∧
        window.base = pageBase addr ∧ window.entry = pageOffset linear ∧
          window.remaps = (guard.watches (pageBase linear) window.size .execute w).2.mem.remaps ∧
            window.watched = (guard.watches (pageBase linear) window.size .execute w).1 := by
  unfold openWindow
  cases hat : windowAt cpu rip with
  | error e => simp
  | ok found =>
    obtain ⟨linear, bias, size⟩ := found
    dsimp only
    rw [show bus.translate linear .execute cpu.cpl w = (w.mem.translate linear .execute cpu.cpl, w) from rfl]
    cases htr : w.mem.translate linear .execute cpu.cpl with
    | error pf => simp [htr]
    | ok addr =>
      dsimp only
      rw [show bus.codePage (pageBase addr) w = w.mem.ram.page? (pageBase addr) from rfl]
      cases hpage : w.mem.ram.page? (pageBase addr) with
      | none => simp [htr, hpage]
      | some page =>
        simp only [Option.isNone_some, Bool.false_eq_true, if_false, Except.ok.injEq]
        constructor
        · rintro rfl
          exact ⟨linear, addr, rfl, htr, by rw [hpage]; rfl, rfl, rfl, rfl, rfl⟩
        · rintro ⟨linear', addr', hat', htr', -, hbase, hentry, hremaps, hwatched⟩
          cases hat'
          rw [htr] at htr'
          cases htr'
          cases window
          simp_all [bus]

theorem openWindow_eq_error (guard : Guard (Board γ δ)) {e : FetchFault} :
    (openWindow bus guard cpu rip w).1 = .error e ↔ w.mem.fetchView cpu rip = .error e := by
  unfold openWindow MappedRam.fetchView
  cases hat : windowAt cpu rip with
  | error e => simp
  | ok found =>
    obtain ⟨linear, bias, size⟩ := found
    dsimp only
    rw [show bus.translate linear .execute cpu.cpl w = (w.mem.translate linear .execute cpu.cpl, w) from rfl]
    cases w.mem.translate linear .execute cpu.cpl with
    | error pf => simp
    | ok addr =>
      dsimp only
      rw [show bus.codePage (pageBase addr) w = w.mem.ram.page? (pageBase addr) from rfl]
      split <;> simp

theorem address_pageBase (addr : UInt64) : pageBase addr + UInt64.ofNat (pageOffset addr) = addr := by
  unfold pageBase pageOffset
  rw [UInt64.ofNat_toNat, UInt64.sub_add_cancel]

/-- The entry of a window is where its instruction pointer is fetched from. -/
theorem fetchView_of_openWindow {guard : Guard (Board γ δ)} (h : (openWindow bus guard cpu rip w).1 = .ok window) :
    w.mem.fetchView cpu rip = .ok (window.address window.entry, window.remaining window.entry) := by
  obtain ⟨linear, addr, hat, htr, hpage, hbase, hentry, -, -⟩ := (openWindow_eq_ok guard).1 h
  unfold MappedRam.fetchView FetchWindow.address FetchWindow.remaining
  rw [hat]
  dsimp only
  rw [htr]
  dsimp only
  rw [← Option.not_isSome, hpage, hbase, hentry, ← MappedRam.pageOffset_translate htr, address_pageBase]
  rfl

theorem fetchView_eq_ok {m : MappedRam} {n : Nat} :
    m.fetchView cpu rip = .ok (addr, n) ↔ ∃ linear bias size, windowAt cpu rip = .ok (linear, bias, size) ∧
      m.translate linear .execute cpu.cpl = .ok addr ∧ (m.ram.page? (pageBase addr)).isSome = true ∧
        n = size - pageOffset linear := by
  unfold MappedRam.fetchView
  cases hat : windowAt cpu rip with
  | error e => simp
  | ok found =>
    obtain ⟨linear, bias, size⟩ := found
    dsimp only
    cases htr : m.translate linear .execute cpu.cpl with
    | error pf => simp [htr]
    | ok addr' =>
      dsimp only
      cases hpage : m.ram.page? (pageBase addr') with
      | none =>
        simp only [Option.isNone_none, if_true]
        constructor
        · intro h; cases h
        · rintro ⟨linear', bias', size', hat', htr', hpage', -⟩
          cases hat'
          rw [htr] at htr'; cases htr'
          rw [hpage] at hpage'; cases hpage'
      | some page =>
        simp only [Option.isNone_some, Bool.false_eq_true, if_false, Except.ok.injEq, Prod.mk.injEq]
        constructor
        · rintro ⟨rfl, rfl⟩
          exact ⟨linear, bias, size, ⟨rfl, rfl, rfl⟩, htr, by rw [hpage]; rfl, rfl⟩
        · rintro ⟨linear', bias', size', ⟨rfl, rfl, rfl⟩, htr', -, rfl⟩
          rw [htr] at htr'; cases htr'
          exact ⟨rfl, rfl⟩

theorem pageBase_congr {a b : UInt64} (h : pageOf a = pageOf b) : pageBase a = pageBase b := by
  apply UInt64.toNat_inj.1
  rw [Ram.toNat_pageBase, Ram.toNat_pageBase, ← toNat_pageOf, ← toNat_pageOf, h]

/-- Another instruction pointer of the same window. -/
theorem fetchView_same {m : MappedRam} {linear bias : UInt64} {size : Nat}
    (hat : windowAt cpu rip = .ok (linear, bias, size)) (htr : m.translate linear .execute cpu.cpl = .ok addr)
    (hpage : (m.ram.page? (pageBase addr)).isSome = true) (ho : (rip' + bias).toNat < size) (hr : cpu.Reaches rip') :
    m.fetchView cpu rip' = .ok (pageBase addr + UInt64.ofNat (rip' + bias).toNat, size - (rip' + bias).toNat) := by
  obtain ⟨linear', hat', hp, hoff⟩ := windowAt_of_offset hat ho hr
  obtain ⟨addr', htr', hp'⟩ := MappedRam.translate_of_pageOf htr hp
  have hbase := pageBase_congr hp'
  refine fetchView_eq_ok.2 ⟨linear', bias, size, hat', ?_, ?_, by rw [hoff]⟩
  · rw [htr', ← address_pageBase addr', MappedRam.pageOffset_translate htr', hoff, hbase]
  · rw [← hoff, ← MappedRam.pageOffset_translate htr', ← hbase, address_pageBase, hbase]
    exact hpage

/-- Every instruction pointer of a window is fetched from where the window has it. -/
theorem fetchView_of_offset {guard : Guard (Board γ δ)} (h : (openWindow bus guard cpu rip w).1 = .ok window) {o : Nat}
    (ho : window.offset? rip' = some o) (hr : cpu.Reaches rip') :
    w.mem.fetchView cpu rip' = .ok (window.address o, window.remaining o) := by
  obtain ⟨linear, addr, hat, htr, hpage, hbase, -, -, -⟩ := (openWindow_eq_ok guard).1 h
  obtain ⟨hlt, rfl⟩ := FetchWindow.offset?_eq_some.1 ho
  rw [fetchView_same hat htr hpage hlt hr]
  unfold FetchWindow.address FetchWindow.remaining
  rw [hbase]

/-- An instruction that does not reach the end of the window, and what comes behind it. -/
theorem fetchView_add {m : MappedRam} {n k : Nat} (h : m.fetchView cpu rip = .ok (addr, n)) (hr : cpu.Reaches rip)
    (hk : k < n) : m.fetchView cpu (rip + UInt64.ofNat k) = .ok (addr + UInt64.ofNat k, n - k) ∧
      cpu.Reaches (rip + UInt64.ofNat k) := by
  obtain ⟨linear, bias, size, hat, htr, hpage, rfl⟩ := fetchView_eq_ok.1 h
  have hbias := windowAt_bias hat hr
  obtain ⟨hin, hsize⟩ := windowAt_size hat
  have hlt := pageOffset_lt linear
  have hmove : (rip + UInt64.ofNat k + bias).toNat = pageOffset linear + k := by
    have hk' : (UInt64.ofNat k).toNat = k := by
      rw [UInt64.toNat_ofNat']; unfold pageSize at hsize; omega
    rw [UInt64.add_assoc, UInt64.add_comm (UInt64.ofNat k), ← UInt64.add_assoc, UInt64.toNat_add, hbias, hk']
    unfold pageSize at hsize
    omega
  have hreach : cpu.Reaches (rip + UInt64.ofNat k) := by
    by_cases hb : cpu.codeSize = .b64
    · exact Or.inl hb
    · obtain ⟨hle, -, -, hs⟩ := (windowAt_segment hb).1 hat
      have hlimit := cpu.cs.limit.toNat_lt
      have ho := pageOffset_eq linear
      have hrip : rip.toNat < 2 ^ 32 := by
        rcases hr with hr | hr
        · exact absurd hr hb
        · exact hr
      have hle' : size ≤ cpu.cs.limit.toNat - rip.toNat % 2 ^ 32 + linear.toNat % pageSize + 1 := by
        rw [hs]; exact Nat.min_le_left ..
      clear hs
      right
      rw [UInt64.toNat_add, UInt64.toNat_ofNat']
      omega
  refine ⟨?_, hreach⟩
  have hlt' : (rip + UInt64.ofNat k + bias).toNat < size := by omega
  rw [fetchView_same hat htr hpage hlt' hreach, hmove, UInt64.ofNat_add,
    ← UInt64.add_assoc, ← MappedRam.pageOffset_translate htr, address_pageBase, Nat.sub_sub]

/-! ## Behind a window -/

/-- The windows that an instruction may go on in. -/
def nextWindow (guard : Guard (Board γ δ)) (cpu : Cpu) (rip : UInt64) (w : Board γ δ) :
    Except Fault FetchWindow × Board γ δ :=
  let (r, w) := openWindow bus guard cpu rip w
  (r.mapError .fetch, w)

variable {guard : Guard (Board γ δ)}

theorem nextWindow_eq_ok :
    (nextWindow guard cpu rip w).1 = .ok window ↔ (openWindow bus guard cpu rip w).1 = .ok window := by
  unfold nextWindow
  dsimp only
  cases (openWindow bus guard cpu rip w).1 with
  | error e => exact ⟨nofun, nofun⟩
  | ok window' =>
    constructor
    · intro h; cases h; rfl
    · intro h; cases h; rfl

theorem reaches_of_nextWindow (h : (nextWindow guard cpu rip w).1 = .ok window) {o : Nat}
    (ho : window.offset? rip = some o) : cpu.Reaches rip := by
  obtain ⟨linear, addr, hat, -⟩ := (openWindow_eq_ok _).1 (nextWindow_eq_ok.1 h)
  exact reaches_of_offset hat (FetchWindow.offset?_eq_some.1 ho).1

theorem fetchView_of_nextWindow (h : (nextWindow guard cpu rip w).1 = .ok window) {o : Nat}
    (ho : window.offset? rip = some o) :
    w.mem.fetchView cpu rip = .ok (window.address o, window.remaining o) :=
  fetchView_of_offset (nextWindow_eq_ok.1 h) ho (reaches_of_nextWindow h ho)

/-- What a window is opened on does not depend on who is asked, nor on what memory holds. -/
theorem openWindow_congr (guard guard' : Guard (Board γ δ)) (cpu : Cpu) (rip : UInt64) {w' : Board γ δ}
    (hsize : w'.mem.ram.bytes.size = w.mem.ram.bytes.size) (hmap : w'.mem.mappings = w.mem.mappings) :
    (∃ e, (openWindow bus guard cpu rip w).1 = .error e ∧ (openWindow bus guard' cpu rip w').1 = .error e) ∨
      ∃ a b, (openWindow bus guard cpu rip w).1 = .ok a ∧ (openWindow bus guard' cpu rip w').1 = .ok b ∧
        b.base = a.base ∧ b.bias = a.bias ∧ b.size = a.size := by
  have hsame := MappedRam.fetchView_congr hsize hmap cpu rip
  cases hopen : (openWindow bus guard cpu rip w).1 with
  | error e =>
    refine Or.inl ⟨e, rfl, (openWindow_eq_error guard').2 ?_⟩
    rw [hsame]
    exact (openWindow_eq_error guard).1 hopen
  | ok a =>
    cases hopen' : (openWindow bus guard' cpu rip w').1 with
    | error e =>
      have hview := (openWindow_eq_error guard').1 hopen'
      rw [hsame, fetchView_of_openWindow hopen] at hview
      cases hview
    | ok b =>
      obtain ⟨linear, addr, hat, htr, -, hbase, -⟩ := (openWindow_eq_ok guard).1 hopen
      obtain ⟨linear', addr', hat', htr', -, hbase', -⟩ := (openWindow_eq_ok guard').1 hopen'
      rw [hat, Except.ok.injEq, Prod.mk.injEq, Prod.mk.injEq] at hat'
      obtain ⟨rfl, hbias, hsize⟩ := hat'
      rw [MappedRam.translate_congr hmap, htr] at htr'
      cases htr'
      exact Or.inr ⟨a, b, rfl, rfl, hbase'.trans hbase.symm, hbias.symm, hsize.symm⟩

/-- Nor does what is decoded there, if the bytes that are looked at are the same. -/
theorem decodeAt_congr_of_reads {guard' : Guard (Board γ δ)} {w' : Board γ δ} (hguard : guard.Quiet)
    (hguard' : guard'.Quiet) (hsize : w'.mem.ram.bytes.size = w.mem.ram.bytes.size)
    (hmap : w'.mem.mappings = w.mem.mappings) (decode : Decoder) (site : Site)
    (hhead : w.mem.ram.ReadsAs w'.mem.ram site.addr (min site.remaining maxInstrLen))
    (htail : ∀ page len window o, w.mem.ram.page? site.addr = some page →
      len = (page.window (pageOffset site.addr) site.remaining).length →
      (nextWindow guard cpu (site.rip + UInt64.ofNat len) w).1 = .ok window →
      window.offset? (site.rip + UInt64.ofNat len) = some o →
      w.mem.ram.ReadsAs w'.mem.ram (window.address o) (min (window.remaining o) (maxInstrLen - len))) :
    (decodeAt bus decode site (nextWindow guard' cpu) w').1 =
      (decodeAt bus decode site (nextWindow guard cpu) w).1 := by
  unfold decodeAt
  rcases hhead.page? hsize with ⟨hnone, hnone'⟩ | ⟨page, page', hpage, hpage', hsame⟩
  · rw [show bus.codePage site.addr w' = none from hnone', show bus.codePage site.addr w = none from hnone]
  · rw [show bus.codePage site.addr w' = some page' from hpage', show bus.codePage site.addr w = some page from hpage]
    dsimp only
    rw [hsame _ (Nat.le_refl _)]
    cases decode (page.window (pageOffset site.addr) (min site.remaining maxInstrLen)) site.mode with
    | invalid => rfl
    | complete i => rw [apply_ite Prod.fst, apply_ite Prod.fst]
    | short =>
      dsimp only
      unfold decodeAcross
      split
      case isTrue => rfl
      case isFalse hshort =>
        dsimp only
        rw [hsame site.remaining (by omega)]
        have htail := fun window o => htail page _ window o hpage rfl
        generalize (page.window (pageOffset site.addr) site.remaining) = head at htail ⊢
        generalize site.rip + UInt64.ofNat head.length = rip at htail ⊢
        have hworld := mem_openWindow hguard cpu rip w
        have hworld' := mem_openWindow hguard' cpu rip w'
        have hopen := openWindow_congr guard guard' cpu rip hsize hmap
        unfold nextWindow at htail ⊢
        generalize openWindow bus guard cpu rip w = out at hworld hopen htail ⊢
        generalize openWindow bus guard' cpu rip w' = out' at hworld' hopen ⊢
        obtain ⟨r, w₁⟩ := out
        obtain ⟨r', w₁'⟩ := out'
        dsimp only at hworld hworld' hopen htail ⊢
        rcases hopen with ⟨e, rfl, rfl⟩ | ⟨a, b, rfl, rfl, hbase, hbias, hwidth⟩
        · rfl
        · -- the two windows differ in what decoding does not look at
          have hoffset : b.offset? rip = a.offset? rip := by
            unfold FetchWindow.offset?
            rw [hbias, hwidth]
          have haddress : ∀ o, b.address o = a.address o := fun o => by
            unfold FetchWindow.address
            rw [hbase]
          have hremaining : ∀ o, b.remaining o = a.remaining o := fun o => by
            unfold FetchWindow.remaining
            rw [hwidth]
          dsimp only [Except.mapError] at htail ⊢
          rw [hoffset]
          cases ho : a.offset? rip with
          | none => rfl
          | some o =>
            dsimp only
            rw [haddress, hremaining]
            have hpages : ∀ addr, bus.codePage addr w₁ = w.mem.ram.page? addr ∧
                bus.codePage addr w₁' = w'.mem.ram.page? addr := fun addr =>
              ⟨congrArg (·.ram.page? addr) hworld, congrArg (·.ram.page? addr) hworld'⟩
            rw [(hpages _).1, (hpages _).2]
            rcases (htail a o rfl ho).page? hsize with ⟨hnone, hnone'⟩ | ⟨tail, tail', htail, htail', hsame⟩
            · rw [hnone, hnone']
            · rw [htail, htail']
              dsimp only
              rw [hsame _ (Nat.le_refl _)]
              cases decode (head ++ tail.window (pageOffset (a.address o))
                (min (a.remaining o) (maxInstrLen - head.length))) site.mode with
              | invalid => rfl
              | short => rfl
              | complete i => rw [apply_ite Prod.fst, apply_ite Prod.fst]

theorem decodeAt_congr {guard' : Guard (Board γ δ)} {w' : Board γ δ} (hguard : guard.Quiet) (hguard' : guard'.Quiet)
    (hmem : w.mem.Agrees w'.mem) (decode : Decoder) (site : Site) :
    (decodeAt bus decode site (nextWindow guard' cpu) w').1 =
      (decodeAt bus decode site (nextWindow guard cpu) w).1 :=
  decodeAt_congr_of_reads hguard hguard' (by rw [hmem.bytes]) hmem.mappings decode site (hmem.readsAs _ _)
    fun _ _ _ _ _ _ _ _ => hmem.readsAs _ _

/-- An instruction pointer that the code can have lies in the window that is opened for it. -/
theorem nextWindow_of_fetchView (guard : Guard (Board γ δ)) {n : Nat} (h : w.mem.fetchView cpu rip = .ok (addr, n))
    (hr : cpu.Reaches rip) :
    ∃ window o, (nextWindow guard cpu rip w).1 = .ok window ∧ window.offset? rip = some o ∧ window.address o = addr ∧
      window.remaining o = n := by
  cases hopen : (openWindow bus guard cpu rip w).1 with
  | error e =>
    rw [(openWindow_eq_error guard).1 hopen] at h
    cases h
  | ok window =>
    have hview := fetchView_of_openWindow hopen
    rw [h] at hview
    cases hview
    obtain ⟨linear, addr, hat, -, -, -, hentry, -⟩ := (openWindow_eq_ok guard).1 hopen
    refine ⟨window, window.entry, nextWindow_eq_ok.2 hopen, ?_, rfl, rfl⟩
    unfold FetchWindow.offset?
    dsimp only
    rw [windowAt_bias hat hr, if_pos (windowAt_size hat).1, hentry]

/-- The bytes that may be fetched lie in one page. -/
theorem fetchView_le {m : MappedRam} {n : Nat} (h : m.fetchView cpu rip = .ok (addr, n)) :
    0 < n ∧ n ≤ toPageEnd addr ∧ addr.toNat < m.ram.bytes.size := by
  obtain ⟨linear, bias, size, hat, htr, hpage, rfl⟩ := fetchView_eq_ok.1 h
  obtain ⟨hin, hsize⟩ := windowAt_size hat
  refine ⟨by omega, ?_, ?_⟩
  · unfold toPageEnd
    rw [MappedRam.pageOffset_translate htr]
    omega
  · have hbase := Ram.toNat_pageBase addr
    have hbacked := Ram.isSome_page?.1 hpage
    have haligned := m.ram.aligned
    rw [hbase] at hbacked
    unfold pageSize at *
    omega

/-- What is fetched behind a window lies at the start of a page. -/
theorem continues_nextWindow (hguard : guard.Quiet) (site : Site)
    (hview : w.mem.fetchView cpu site.rip = .ok (site.addr, site.remaining))
    (hcont : cpu.Continues site.rip) : TraceCache.Continues site (nextWindow guard cpu) w := by
  refine ⟨fun rip => mem_openWindow hguard cpu rip w, (fetchView_le hview).2.1, fun window o hshort hopen ho => ?_⟩
  obtain ⟨linear, bias, size, hat, htr, hpage, hrem⟩ := fetchView_eq_ok.1 hview
  have hopen' := nextWindow_eq_ok.1 hopen
  obtain ⟨linear', addr', hat', htr', -, hbase, -⟩ := (openWindow_eq_ok _).1 hopen'
  have hlt := FetchWindow.offset?_eq_some.1 ho
  have hreach := reaches_of_offset hat' hlt.1
  have ho' := hlt.2.trans (windowAt_bias hat' hreach)
  rw [hrem] at hat' hreach hshort
  have hbehind := windowAt_behind hat hat' hreach hshort hcont
  refine ⟨?_, ?_⟩
  · unfold toPageEnd
    rw [hrem, hbehind.1, MappedRam.pageOffset_translate htr]
  · have : window.address o = addr' := by
      unfold FetchWindow.address
      rw [ho', hbase, ← MappedRam.pageOffset_translate htr', address_pageBase]
    rw [this, MappedRam.pageOffset_translate htr', hbehind.2]

end Board

end TraceCore
