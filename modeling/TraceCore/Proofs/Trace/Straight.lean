/-
A trace that was joined to others holds what decoding straight on would have given. A trace that is short enough to be
joined ended for a reason that ends a straight run in the same place: a branch, the end of the page, or bytes that are
no instruction. So what is in a cache never shows in the traces that it hands out.
-/
import TraceCore.Proofs.Trace.Every

namespace TraceCore

/-! ## Runs to the end of a page -/

section

variable {mode : FetchMode} {page : PageView} {meeting : UInt64 → Nat → Option Nat}

/-- The run of instructions from `addr` on, up to the end of the page. -/
def pageRun (mode : FetchMode) (page : PageView) (meeting : UInt64 → Nat → Option Nat) (room : Nat) (addr : UInt64) :
    List Instr × RunEnd :=
  decodeRun decodeInstr mode page meeting room addr (pageOffset addr) (toPageEnd addr)

/-- The run when there is no trace to go on in. -/
def straightRun (mode : FetchMode) (page : PageView) (room : Nat) (addr : UInt64) : List Instr × RunEnd :=
  pageRun mode page (fun _ _ => none) room addr

/-- One instruction, and the run behind it. -/
theorem pageRun_succ (room : Nat) (addr : UInt64) : pageRun mode page meeting (room + 1) addr =
    let bytes := page.window (pageOffset addr) (min (toPageEnd addr) maxInstrLen)
    match decodeInstr bytes mode with
    | .short => ([], .short)
    | .invalid => ([], .invalid)
    | .complete i =>
      if !i.fits bytes.length then ([], .invalid)
      else if i.ends || toPageEnd addr - i.len = 0 then ([i], .ended)
      else
        let next := addr + UInt64.ofNat i.len
        match (if maxInstrLen ≤ toPageEnd addr - i.len then meeting next room else none) with
        | some slot => ([i], .meets slot)
        | none => (i :: (pageRun mode page meeting room next).1, (pageRun mode page meeting room next).2) := by
  unfold pageRun
  rw [decodeRun]
  dsimp only
  cases decodeInstr (page.window (pageOffset addr) (min (toPageEnd addr) maxInstrLen)) mode with
  | short => rfl
  | invalid => rfl
  | complete i =>
    dsimp only
    split
    case isTrue => rfl
    case isFalse =>
      split
      case isTrue => rfl
      case isFalse hon =>
        have hlt : i.len < toPageEnd addr := by
          simp only [Bool.or_eq_true, decide_eq_true_eq, not_or] at hon
          omega
        obtain ⟨-, hoffset, htoEnd, -⟩ := pageOf_add hlt
        cases (if maxInstrLen ≤ toPageEnd addr - i.len then meeting (addr + UInt64.ofNat i.len) room else none) with
        | some slot => rfl
        | none =>
          dsimp only
          rw [hoffset, htoEnd]

/-- A run with less room is the front of one with more. -/
theorem straightRun_take {room room' : Nat} (h : room ≤ room') (addr : UInt64) :
    (straightRun mode page room addr).1 = (straightRun mode page room' addr).1.take room := by
  induction room generalizing room' addr with
  | zero => rfl
  | succ room ih =>
    obtain ⟨room', rfl⟩ : ∃ n, room' = n + 1 := ⟨room' - 1, by omega⟩
    have hrest : ∀ next, (straightRun mode page room next).1 = (straightRun mode page room' next).1.take room :=
      ih (by omega)
    unfold straightRun at hrest ⊢
    rw [pageRun_succ, pageRun_succ]
    dsimp only
    cases decodeInstr (page.window (pageOffset addr) (min (toPageEnd addr) maxInstrLen)) mode with
    | short => rfl
    | invalid => rfl
    | complete i =>
      dsimp only
      split
      case isTrue => rfl
      case isFalse =>
        split
        case isTrue => simp
        case isFalse => simp only [ite_self, List.take_succ_cons, hrest]

end

namespace TraceCache

variable {c : TraceCache} {mode : FetchMode} {page : PageView} {meeting : UInt64 → Nat → Option Nat} {most : Nat}

/-- Each trace that a run may meet in page `p` holds the straight run from where it starts. -/
def MeetsStraight (c : TraceCache) (mode : FetchMode) (p : UInt64) (page : PageView) (most : Nat)
    (meeting : UInt64 → Nat → Option Nat) : Prop :=
  ∀ addr room slot, pageOf addr = p → meeting addr room = some slot →
    c.metInstrs (.meets slot) = (straightRun mode page most addr).1 ∧ (c.metInstrs (.meets slot)).length ≤ room

/-- A run with what it meets behind it is the straight run. -/
theorem pageRun_append {addr : UInt64} (h : c.MeetsStraight mode (pageOf addr) page most meeting) {room : Nat}
    (hroom : room ≤ most) :
    (pageRun mode page meeting room addr).1 ++ c.metInstrs (pageRun mode page meeting room addr).2 =
      (straightRun mode page room addr).1 := by
  induction room generalizing addr with
  | zero => rfl
  | succ room ih =>
    have htake : ∀ addr, (straightRun mode page room addr).1 = (straightRun mode page most addr).1.take room :=
      straightRun_take (by omega)
    unfold straightRun at ih htake ⊢
    rw [pageRun_succ, pageRun_succ]
    dsimp only
    cases decodeInstr (page.window (pageOffset addr) (min (toPageEnd addr) maxInstrLen)) mode with
    | short => rfl
    | invalid => rfl
    | complete i =>
      dsimp only
      split
      case isTrue => rfl
      case isFalse =>
        split
        case isTrue => rfl
        case isFalse hon =>
          have hlt : i.len < toPageEnd addr := by
            simp only [Bool.or_eq_true, decide_eq_true_eq, not_or] at hon
            omega
          obtain ⟨hpage, -, -, -⟩ := pageOf_add hlt
          simp only [ite_self]
          split
          case h_2 => rw [List.cons_append, ih (by rw [hpage]; exact h) (by omega)]
          case h_1 slot hmeet =>
            split at hmeet
            case isFalse => cases hmeet
            case isTrue =>
              -- the trace fits, so the straight run from its start ends where it does
              obtain ⟨hsame, hlen⟩ := h _ _ _ hpage hmeet
              unfold straightRun at hsame
              rw [hsame] at hlen
              rw [hsame, htake, List.take_of_length_le hlen]
              rfl

/-- Where no instruction begins, a run is empty for the same reason. -/
theorem pageRun_eq_of_nil (mode : FetchMode) (page : PageView) (meeting : UInt64 → Nat → Option Nat) (room : Nat)
    (addr : UInt64) (h : (pageRun mode page meeting room addr).1 = []) :
    pageRun mode page meeting room addr = straightRun mode page room addr := by
  unfold straightRun
  cases room with
  | zero => rfl
  | succ room =>
    rw [pageRun_succ] at h ⊢
    rw [pageRun_succ]
    dsimp only at h ⊢
    cases hdec : decodeInstr (page.window (pageOffset addr) (min (toPageEnd addr) maxInstrLen)) mode with
    | short => rfl
    | invalid => rfl
    | complete i =>
      rw [hdec] at h
      dsimp only at h ⊢
      split
      case isTrue => rfl
      case isFalse hfits =>
        rw [if_neg hfits] at h
        split at h
        case isTrue => cases h
        case isFalse => split at h <;> cases h

end TraceCache

/-! ## Bytes behind a page -/

theorem PageView.length_window {page : PageView} {offset len : Nat} (h : offset + len ≤ pageSize) :
    (page.window offset len).length = len := by
  have := page.inside
  simp only [window, Array.length_toList, Array.size_extract]
  omega

/-- A page shows nothing but the bytes of memory. -/
theorem Ram.page?_congr {ram ram' : Ram} (h : ram.bytes = ram'.bytes) (addr : UInt64) :
    ram.page? addr = ram'.page? addr := by
  cases ram
  cases ram'
  cases h
  rfl

namespace Site

/-- The bytes behind a site as its next window shows them: where they start and how many there are, if the window
reaches them. -/
def beyond {ω : Type} (site : Site) (next : UInt64 → ω → Except Fault FetchWindow × ω) (w : ω) :
    Except Fault (Option (UInt64 × Nat)) :=
  let rip := site.rip + UInt64.ofNat site.remaining
  (next rip w).1.map fun window => (window.offset? rip).map fun o => (window.address o, window.remaining o)

/-- The instruction at the end of the page, which goes on in the bytes beyond. -/
def across (site : Site) (ram : Ram) (page : PageView) (beyond : Option (UInt64 × Nat)) : Except Fault Instr :=
  let headBytes := page.window (pageOffset site.addr) site.remaining
  match beyond with
  | none => .error (.exhausted (.boundaryDecodeFailed headBytes.length))
  | some (tailAddr, remaining) =>
    match ram.page? tailAddr with
    | none => .error (.fetch (.unbacked tailAddr))
    | some tailPage =>
      let bytes := headBytes ++ tailPage.window (pageOffset tailAddr) (min remaining (maxInstrLen - headBytes.length))
      match decodeInstr bytes site.mode with
      | .invalid => .error (.decode site.rip)
      | .short => .error (.exhausted (.boundaryDecodeFailed bytes.length))
      | .complete i => if i.fits bytes.length then .ok i else .error (.exhausted (.boundaryDecodeFailed bytes.length))

variable {γ δ : Type} {bytes : Array UInt8} {after : UInt64 → FetchMode → Option (Option (UInt64 × Nat))} {site : Site}
  {next : UInt64 → Board γ δ → Except Fault FetchWindow × Board γ δ} {w v : Board γ δ}

/-- A site whose window reaches the end of its page, where the next window does not change: behind a page comes, for
each mode, what `after` says, whatever instruction pointer leads there. -/
structure Steady (bytes : Array UInt8) (after : UInt64 → FetchMode → Option (Option (UInt64 × Nat))) (site : Site)
    (next : UInt64 → Board γ δ → Except Fault FetchWindow × Board γ δ) : Prop where
  toEnd : site.remaining = toPageEnd site.addr
  leaves : ∀ rip w, (next rip w).2.mem.ram.bytes = w.mem.ram.bytes
  same : ∀ w v, w.mem.ram.bytes = bytes → v.mem.ram.bytes = bytes → site.beyond next w = site.beyond next v
  after : ∀ w, w.mem.ram.bytes = bytes → (site.beyond next w).toOption = after (pageOf site.addr) site.mode

theorem Steady.decodeAcross_eq (hs : site.Steady bytes after next) (page : PageView) (w : Board γ δ) :
    (decodeAcross Board.bus decodeInstr site next page w).1 =
      if maxInstrLen ≤ site.remaining then .error (.exhausted (.tooManyPrefixes site.remaining))
      else (site.beyond next w).bind (site.across w.mem.ram page) := by
  have hlength : (page.window (pageOffset site.addr) site.remaining).length = site.remaining := by
    refine PageView.length_window ?_
    have := pageOffset_lt site.addr
    rw [hs.toEnd]
    unfold toPageEnd
    omega
  have hleaves := hs.leaves (site.rip + UInt64.ofNat site.remaining) w
  unfold decodeAcross beyond across
  split
  case isTrue => rfl
  case isFalse =>
    dsimp only
    rw [hlength]
    generalize next (site.rip + UInt64.ofNat site.remaining) w = out at hleaves ⊢
    obtain ⟨f | window, w₁⟩ := out
    · rfl
    · dsimp only [Except.map, Except.bind]
      cases window.offset? (site.rip + UInt64.ofNat site.remaining) with
      | none => rfl
      | some offset =>
        dsimp only [Option.map]
        rw [← Ram.page?_congr hleaves,
          show Board.bus.codePage (window.address offset) w₁ = w₁.mem.ram.page? (window.address offset) from rfl]
        cases w₁.mem.ram.page? (window.address offset) with
        | none => rfl
        | some tailPage =>
          dsimp only
          generalize page.window (pageOffset site.addr) site.remaining ++ tailPage.window
            (pageOffset (window.address offset)) (min (window.remaining offset) (maxInstrLen - site.remaining)) = bytes
          cases decodeInstr bytes site.mode with
          | invalid => rfl
          | short => rfl
          | complete i => cases hfits : i.fits bytes.length <;> simp [hfits]

/-- What decoding straight on gives at a site: a run of instructions up to the end of the page, or the one that goes on
behind it. -/
def content (site : Site) (next : UInt64 → Board γ δ → Except Fault FetchWindow × Board γ δ) (room : Nat)
    (w : Board γ δ) : Except Fault (List Instr) :=
  match w.mem.ram.page? site.addr with
  | none => .error (.fetch (.unbacked site.addr))
  | some page =>
    match straightRun site.mode page room site.addr with
    | ([], .short) => (decodeAcross Board.bus decodeInstr site next page w).1.map ([·])
    | ([], .invalid) => .error (.decode site.rip)
    | (run, _) => .ok run

theorem across_congr {ram ram' : Ram} (h : ram.bytes = ram'.bytes) (site : Site) (page : PageView)
    (b : Option (UInt64 × Nat)) : site.across ram page b = site.across ram' page b := by
  unfold across
  rcases b with _ | ⟨tailAddr, remaining⟩
  · rfl
  · dsimp only
    rw [Ram.page?_congr h]

/-- The instruction was decoded from the end of the page and some bytes behind it. -/
theorem decode_of_across {ram : Ram} {page : PageView} {b : Option (UInt64 × Nat)} {i : Instr}
    (h : site.across ram page b = .ok i) :
    ∃ rest, decodeInstr (page.window (pageOffset site.addr) site.remaining ++ rest) site.mode = .complete i := by
  unfold across at h
  rcases b with _ | ⟨tailAddr, remaining⟩
  · cases h
  · dsimp only at h
    cases hpage : ram.page? tailAddr with
    | none => rw [hpage] at h; cases h
    | some tailPage =>
      rw [hpage] at h
      dsimp only at h
      split at h
      case h_1 => cases h
      case h_2 => cases h
      case h_3 j hdec =>
        split at h
        case isFalse => cases h
        case isTrue =>
          cases h
          exact ⟨_, hdec⟩

/-- Only the faults name the instruction pointer. -/
theorem across_eq_ok {site site' : Site} {ram : Ram} {page : PageView} {b : Option (UInt64 × Nat)} {i : Instr}
    (haddr : site'.addr = site.addr) (hmode : site'.mode = site.mode) (hrem : site'.remaining = site.remaining)
    (h : site.across ram page b = .ok i) : site'.across ram page b = .ok i := by
  unfold across at h ⊢
  rw [haddr, hmode, hrem]
  rcases b with _ | ⟨tailAddr, remaining⟩
  · cases h
  · dsimp only at h ⊢
    cases hpage : ram.page? tailAddr with
    | none => rw [hpage] at h; cases h
    | some tailPage =>
      rw [hpage] at h
      dsimp only at h ⊢
      split at h
      case h_1 => cases h
      case h_2 => cases h
      case h_3 => exact h

/-- What a site holds is the same in every world with the same bytes. -/
theorem Steady.content_same (hs : site.Steady bytes after next) (hw : w.mem.ram.bytes = bytes)
    (hv : v.mem.ram.bytes = bytes) (room : Nat) : site.content next room w = site.content next room v := by
  have hbytes := hw.trans hv.symm
  unfold content
  rw [Ram.page?_congr hbytes]
  cases v.mem.ram.page? site.addr with
  | none => rfl
  | some page =>
    dsimp only
    have hacross : site.across w.mem.ram page = site.across v.mem.ram page := funext fun b => across_congr hbytes ..
    rw [hs.decodeAcross_eq, hs.decodeAcross_eq, hs.same w v hw hv, hacross]

/-- And what is decoded there does not depend on the instruction pointer. -/
theorem Steady.content_eq_ok {site' : Site} {next' : UInt64 → Board γ δ → Except Fault FetchWindow × Board γ δ}
    {room : Nat} {is : List Instr} (hs : site.Steady bytes after next) (hs' : site'.Steady bytes after next')
    (haddr : site'.addr = site.addr) (hmode : site'.mode = site.mode) (hw : w.mem.ram.bytes = bytes)
    (h : site.content next room w = .ok is) : site'.content next' room w = .ok is := by
  have hrem : site'.remaining = site.remaining := by rw [hs.toEnd, hs'.toEnd, haddr]
  unfold content at h ⊢
  rw [haddr, hmode]
  cases hpage : w.mem.ram.page? site.addr with
  | none => rw [hpage] at h; cases h
  | some page =>
    rw [hpage] at h
    dsimp only at h ⊢
    split at h
    case h_2 => cases h
    case h_3 hshort hinvalid => exact h
    case h_1 hrun =>
      rw [hs.decodeAcross_eq] at h
      rw [hs'.decodeAcross_eq, hrem]
      split at h
      case isTrue => cases h
      case isFalse hlt =>
        rw [if_neg hlt]
        -- the instruction pointers differ, but what comes behind the page is that of `after` for both
        have hb' := hs'.after w hw
        rw [haddr, hmode, ← hs.after w hw] at hb'
        cases hb : site.beyond next w with
        | error f => rw [hb] at h; cases h
        | ok b =>
          rw [hb] at h hb'
          cases hbeyond : site'.beyond next' w with
          | error f => rw [hbeyond] at hb'; cases hb'
          | ok b' =>
            rw [hbeyond] at hb'
            obtain rfl : b' = b := Option.some.inj hb'
            change Except.map _ (site.across w.mem.ram page b') = .ok is at h
            show Except.map _ (site'.across w.mem.ram page b') = .ok is
            cases hi : site.across w.mem.ram page b' with
            | error f => rw [hi] at h; cases h
            | ok i =>
              rw [hi] at h
              rw [across_eq_ok haddr hmode hrem hi]
              exact h

end Site

/-- Addresses of one page are backed by the same bytes. -/
theorem Ram.page?_of_pageOf {a b : UInt64} (h : pageOf a = pageOf b) (ram : Ram) : ram.page? a = ram.page? b := by
  have hbase : pageBase a = pageBase b := by
    apply UInt64.toNat_inj.1
    rw [toNat_pageBase, toNat_pageBase, ← toNat_pageOf, ← toNat_pageOf, h]
  unfold page?
  rw [hbase]

/-! ## Caches -/

namespace TraceCache

open Board

variable {γ δ : Type} {bytes : Array UInt8} {after : UInt64 → FetchMode → Option (Option (UInt64 × Nat))} {site : Site}
  {next : UInt64 → Board γ δ → Except Fault FetchWindow × Board γ δ} {w v : Board γ δ} {c : TraceCache}
  {config : CoreConfig}

/-- The trace holds what decoding straight on gives, at whatever site it is asked for. -/
structure Reads (γ δ : Type) (bytes : Array UInt8) (after : UInt64 → FetchMode → Option (Option (UInt64 × Nat)))
    (room : Nat) (t : Trace) (is : List Instr) : Prop where
  byteLen : t.byteLen = Ram.bytesOf is
  content : ∀ (site : Site) (next : UInt64 → Board γ δ → Except Fault FetchWindow × Board γ δ) (w : Board γ δ),
    site.Steady bytes after next → w.mem.ram.bytes = bytes → site.addr = t.addr → site.mode = t.mode →
      site.content next room w = .ok is
  straight : t.tail = .none → ∀ (ram : Ram) (page : PageView), ram.bytes = bytes → ram.page? t.addr = some page →
    (straightRun t.mode page room t.addr).1 = is

theorem stampless_reads {room : Nat} : Trace.Stampless (Reads γ δ bytes after room) := by
  intro stamps t t' is hrefresh h
  obtain ⟨headStamp, tailStamp, rfl⟩ := Trace.refresh_eq hrefresh
  exact ⟨h.byteLen, h.content, fun htail => h.straight (by simpa using htail)⟩

/-- The records and the byte length of the trace that was asked for; none if its slot is empty. -/
def answer {ω : Type} (out : Except Fault Nat × TraceCache × ω) : Except Fault (Option (List Instr × Nat)) :=
  out.1.map fun slot => (out.2.1.trace? slot).map fun t => (out.2.1.instrs t, t.byteLen)

theorem Placed.answer {c' : TraceCache} {slot : Nat} {t : Trace} {is : List Instr} (hp : c.Placed c' slot t is)
    (hslot : slot < c.slots.size) (hbytes : t.byteLen = Ram.bytesOf is) (w : Board γ δ) :
    TraceCache.answer (.ok slot, c', w) = .ok (some (is, Ram.bytesOf is)) := by
  unfold TraceCache.answer
  dsimp only [Except.map]
  rw [hp.trace? hslot, if_pos rfl, Option.map_some, hp.instrs, hbytes]

/-- A run with what it meets behind it, put into the cache. -/
theorem reads_buildRun {page : PageView} {run : List Instr} {ending : RunEnd} {slot : Nat}
    (h : c.Every config (Reads γ δ bytes after config.maxTraceLen)) (hslot : slot < c.slots.size) (stamp : UInt32)
    (hs : site.Steady bytes after next) (hw : w.mem.ram.bytes = bytes) (hpage : w.mem.ram.page? site.addr = some page)
    (hne : run ≠ []) (hrun : run ++ c.metInstrs ending = (straightRun site.mode page config.maxTraceLen site.addr).1) :
    (buildRun bus site slot stamp run ending c w).1.Every config (Reads γ δ bytes after config.maxTraceLen) ∧
      ∀ v : Board γ δ, answer (.ok slot, (buildRun bus site slot stamp run ending c w).1, v) =
        (site.content next config.maxTraceLen w).map fun is => some (is, Ram.bytesOf is) := by
  obtain ⟨t, hp, haddr, hmode, -, hlen, -⟩ := placed_buildRun bus site slot stamp run ending c w
  have hcontent : site.content next config.maxTraceLen w = .ok (run ++ c.metInstrs ending) := by
    unfold Site.content
    rw [hpage]
    dsimp only
    generalize straightRun site.mode page config.maxTraceLen site.addr = out at hrun ⊢
    obtain ⟨is, e⟩ := out
    obtain rfl : run ++ c.metInstrs ending = is := hrun
    cases run with
    | nil => exact absurd rfl hne
    | cons i run => rfl
  have hbytes : t.byteLen = Ram.bytesOf (run ++ c.metInstrs ending) := by
    rw [hlen, Ram.bytesOf_append, metInstrs]
    cases ending with
    | meets s =>
      cases hmet : c.met (.meets s) with
      | none => rfl
      | some t' => simp [(h.all s t' hmet).byteLen]
    | _ => rfl
  refine ⟨h.placed hp hslot ⟨hbytes, fun site' next' w' hs' hw' haddr' hmode' => ?_, fun _ ram page' hram hpage' => ?_⟩,
    fun v => ?_⟩
  · rw [hs'.content_same hw' hw]
    exact hs.content_eq_ok hs' (haddr'.trans haddr) (hmode'.trans hmode) hw hcontent
  · rw [haddr, Ram.page?_congr (hram.trans hw.symm), hpage] at hpage'
    cases hpage'
    rw [haddr, hmode, ← hrun]
  · rw [hp.answer hslot hbytes, hcontent]
    rfl

/-- The instruction that goes on behind the page, put into the cache. -/
theorem reads_buildSplit {page : PageView} {slot : Nat}
    (h : c.Every config (Reads γ δ bytes after config.maxTraceLen)) (hslot : slot < c.slots.size) (stamp : UInt32)
    (hs : site.Steady bytes after next) (hw : w.mem.ram.bytes = bytes) (hpage : w.mem.ram.page? site.addr = some page)
    (hshort : decodeInstr (page.window (pageOffset site.addr) (min site.remaining maxInstrLen)) site.mode = .short)
    (hrun : straightRun site.mode page config.maxTraceLen site.addr = ([], .short)) :
    (buildSplit bus decodeInstr site next slot stamp page c w).2.1.Every config
        (Reads γ δ bytes after config.maxTraceLen) ∧
      answer (buildSplit bus decodeInstr site next slot stamp page c w) =
        (site.content next config.maxTraceLen w).map fun is => some (is, Ram.bytesOf is) := by
  have hcontent : site.content next config.maxTraceLen w =
      (decodeAcross bus decodeInstr site next page w).1.map ([·]) := by
    unfold Site.content
    rw [hpage]
    dsimp only
    rw [hrun]
  rw [hcontent]
  rcases buildSplit_cases bus decodeInstr site next slot stamp page c w with
    ⟨f, w', hout, hf, -⟩ | ⟨c', w', t, i, hout, hi, hp, haddr, hmode, hlen, hparted⟩
  · rw [hout, hf]
    exact ⟨h, rfl⟩
  · rw [hi] at hcontent ⊢
    rw [hout]
    have hbytes : t.byteLen = Ram.bytesOf [i] := by simpa using hlen
    refine ⟨h.placed hp hslot ⟨hbytes, fun site' next' w' hs' hw' haddr' hmode' => ?_, fun hnone => ?_⟩, ?_⟩
    · rw [hs'.content_same hw' hw]
      exact hs.content_eq_ok hs' (haddr'.trans haddr) (hmode'.trans hmode) hw hcontent
    · -- an instruction that ends in the page would have been decoded there
      exfalso
      have hle := hparted.fits_of_tail hnone
      rw [hs.decodeAcross_eq] at hi
      split at hi
      case isTrue => cases hi
      case isFalse hlt =>
        cases hb : site.beyond next w with
        | error f => rw [hb] at hi; cases hi
        | ok b =>
          rw [hb] at hi
          obtain ⟨rest, hdec⟩ := Site.decode_of_across hi
          have hsame : decodeInstr (page.window (pageOffset site.addr) site.remaining) site.mode = .complete i :=
            decodeInstr_congr hdec (by rw [List.take_append_of_le_length hle])
          rw [Nat.min_eq_left (by omega), hsame] at hshort
          cases hshort
    · rw [hp.answer hslot hbytes]
      rfl

/-- What building makes of a cache of such traces. -/
theorem reads_build (h : c.Every config (Reads γ δ bytes after config.maxTraceLen)) (hvalid : config.validate = .ok ())
    (hs : site.Steady bytes after next) (hw : w.mem.ram.bytes = bytes) :
    (c.build bus decodeInstr site next w).2.1.Every config (Reads γ δ bytes after config.maxTraceLen) ∧
      answer (c.build bus decodeInstr site next w) =
        (site.content next config.maxTraceLen w).map fun is => some (is, Ram.bytesOf is) := by
  have hbounds := CoreConfig.bounds_of_validate hvalid
  have hslots := hbounds.slots
  have hpos := hbounds.room
  have hroom := h.makeRoom site
  have hslot : c.slotOf site.addr site.mode < (c.makeRoom site).slots.size := by
    rw [hroom.slots, ← h.slots]
    exact c.slotOf_lt (by rw [h.slots]; exact hslots) _ _
  rw [build_eq]
  cases hpage : w.mem.ram.page? site.addr with
  | none =>
    refine ⟨hroom, ?_⟩
    unfold Site.content
    rw [hpage]
    rfl
  | some page =>
    have hmeets : (c.makeRoom site).MeetsStraight site.mode (pageOf site.addr) page config.maxTraceLen
        ((c.makeRoom site).joinable w.mem.ram.stamps site.mode) := by
      intro addr room slot haddr hjoin
      obtain ⟨t, ht, rfl, hmode, htail, hlen, -⟩ := joinable_eq_some hjoin
      have hmet : (c.makeRoom site).metInstrs (.meets slot) = (c.makeRoom site).instrs t := by
        simp [metInstrs, met, ht]
      rw [hmet]
      constructor
      · rw [← hmode]
        refine ((hroom.all slot t ht).straight htail w.mem.ram page hw ?_).symm
        rw [Ram.page?_of_pageOf haddr, hpage]
      · rwa [length_instrs (hroom.inPool slot t ht)]
    have hrunFrom := runFrom_decodeRun site.mode ((c.makeRoom site).joinable w.mem.ram.stamps site.mode) hpage
      config.maxTraceLen rfl (Nat.le_of_eq hs.toEnd)
    have hrun := pageRun_append hmeets (le_refl config.maxTraceLen)
    have hnil := pageRun_eq_of_nil site.mode page ((c.makeRoom site).joinable w.mem.ram.stamps site.mode)
      config.maxTraceLen site.addr
    have hwindow : page.window (pageOffset site.addr) (min site.remaining maxInstrLen) =
        w.mem.ram.slice site.addr (min site.remaining maxInstrLen) := by
      rw [Ram.window_eq_slice hpage rfl, Nat.min_eq_left (by rw [hs.toEnd]; exact Nat.min_le_left ..)]
    unfold pageRun at hrun hnil
    rw [← hs.toEnd] at hrun hnil
    dsimp only
    rw [hroom.room]
    generalize decodeRun decodeInstr site.mode page ((c.makeRoom site).joinable w.mem.ram.stamps site.mode)
      config.maxTraceLen site.addr (pageOffset site.addr) site.remaining = out at hrunFrom hrun hnil ⊢
    obtain ⟨run, ending⟩ := out
    dsimp only at hrunFrom hrun hnil
    cases run with
    | nil =>
      rcases hrunFrom.empty rfl hpos with ⟨rfl, hshort⟩ | ⟨rfl, -⟩
      · exact reads_buildSplit hroom hslot _ hs hw hpage (by rw [hwindow, hshort]) (hnil rfl).symm
      · refine ⟨hroom, ?_⟩
        unfold Site.content
        rw [hpage]
        dsimp only
        rw [← hnil rfl]
        rfl
    | cons i run =>
      obtain ⟨hevery, hanswer⟩ := reads_buildRun hroom hslot ((bus.stamps w).page (pageOf site.addr)).stamp hs hw hpage
        (List.cons_ne_nil i run) hrun
      exact ⟨hevery, hanswer _⟩

/-- Whatever the cache holds, what it gives for a site is what decoding straight on gives. -/
theorem reads_ensure (h : c.Every config (Reads γ δ bytes after config.maxTraceLen)) (hvalid : config.validate = .ok ())
    (hs : site.Steady bytes after next) (hw : w.mem.ram.bytes = bytes) :
    (c.ensure bus decodeInstr site next w).2.1.Every config (Reads γ δ bytes after config.maxTraceLen) ∧
      answer (c.ensure bus decodeInstr site next w) =
        (site.content next config.maxTraceLen w).map fun is => some (is, Ram.bytesOf is) := by
  have hlook := h.aged stampless_reads (.lookup (bus.stamps w) c site.addr site.mode)
  have hfound := found_of_lookup c (bus.stamps w) site.addr site.mode
  unfold ensure
  generalize c.lookup (bus.stamps w) site.addr site.mode = out at hlook hfound ⊢
  obtain ⟨r, d⟩ := out
  cases r with
  | none => exact reads_build hlook hvalid hs hw
  | some slot =>
    obtain ⟨-, t, ht, haddr, hmode, -⟩ := hfound slot rfl
    have hreads := hlook.all slot t ht
    refine ⟨hlook, ?_⟩
    rw [hreads.content site next w hs hw haddr.symm hmode.symm]
    unfold answer
    dsimp only [Except.map]
    rw [ht, Option.map_some, hreads.byteLen]

/-- A cache that was filled from memory with these bytes: traces were looked up and built at steady sites, branches
were followed, and everything was dropped, in any order. The stamps may have been anything at any time. -/
inductive Filled (γ δ : Type) (config : CoreConfig) (bytes : Array UInt8)
    (after : UInt64 → FetchMode → Option (Option (UInt64 × Nat))) : TraceCache → Prop
  | new : Filled γ δ config bytes after (.new config)
  | ensure {c : TraceCache} {site : Site} {next : UInt64 → Board γ δ → Except Fault FetchWindow × Board γ δ}
      {w : Board γ δ} : Filled γ δ config bytes after c → site.Steady bytes after next → w.mem.ram.bytes = bytes →
      Filled γ δ config bytes after (c.ensure bus decodeInstr site next w).2.1
  | lookup {c : TraceCache} (stamps : StampTable) (addr : UInt64) (mode : FetchMode) :
      Filled γ δ config bytes after c → Filled γ δ config bytes after (c.lookup stamps addr mode).2
  | chain {c : TraceCache} (l : Linker) (stamps : StampTable) (index : Nat) (addr : UInt64) (mode : FetchMode)
      (mayFollow : Bool) : Filled γ δ config bytes after c →
      Filled γ δ config bytes after (l.chain c stamps index addr mode mayFollow).2.2
  | flush {c : TraceCache} : Filled γ δ config bytes after c → Filled γ δ config bytes after c.flush

theorem Filled.reads (h : Filled γ δ config bytes after c) (hvalid : config.validate = .ok ()) :
    c.Every config (Reads γ δ bytes after config.maxTraceLen) := by
  induction h with
  | new => exact every_new ..
  | ensure _ hs hw ih => exact (reads_ensure ih hvalid hs hw).1
  | lookup stamps addr mode _ ih => exact ih.aged stampless_reads (.lookup stamps _ addr mode)
  | chain l stamps index addr mode mayFollow _ ih => exact ih.chain stampless_reads ..
  | flush _ ih => exact ih.flush

/-- A filled cache and an empty one give the same trace for a site, or the same fault, whatever was joined, dropped or
replaced in between. -/
theorem answer_eq_new (hvalid : config.validate = .ok ()) (h : Filled γ δ config bytes after c)
    (hs : site.Steady bytes after next) (hw : w.mem.ram.bytes = bytes) (hv : v.mem.ram.bytes = bytes) :
    answer (c.ensure bus decodeInstr site next w) = answer ((new config).ensure bus decodeInstr site next v) ∧
      answer (c.ensure bus decodeInstr site next w) ≠ .ok .none := by
  have hfilled := (reads_ensure (h.reads hvalid) hvalid hs hw).2
  have hnew := (reads_ensure (Filled.new.reads hvalid) hvalid hs hv).2
  rw [hfilled, hnew, hs.content_same hw hv]
  refine ⟨rfl, ?_⟩
  cases site.content next config.maxTraceLen v <;> exact nofun

/-- A page that begins with two instructions that do nothing and one that halts. -/
def restingPage : Ram := Ram.zeroPage.store 0 [0x90, 0x90, 0xF4]

def restingBoard : Board Unit Unit := ⟨{ ram := restingPage }, (), (), #[]⟩

/-- A site on the page, with nothing behind it. -/
def restingSite (addr : UInt64) : Site := ⟨addr, (Cpu.new .protectedMode).fetchMode, addr, toPageEnd addr⟩

def nothingBehind (_ : UInt64) (w : Board Unit Unit) : Except Fault FetchWindow × Board Unit Unit :=
  (.error (.fetch (.unbacked 0x1000)), w)

theorem steady_restingSite (addr : UInt64) :
    (restingSite addr).Steady restingPage.bytes (fun _ _ => .none) nothingBehind :=
  ⟨rfl, fun _ _ => rfl, fun _ _ _ _ => rfl, fun _ _ => rfl⟩

def restingConfig : CoreConfig := { traceSlots := 2, recordPool := 9, maxTraceLen := 4 }

/-- A cache with the trace of the second and third instruction. -/
def restingCache : TraceCache :=
  ((new restingConfig).ensure bus decodeInstr (restingSite 1) nothingBehind restingBoard).2.1

theorem filled_restingCache : Filled Unit Unit restingConfig restingPage.bytes (fun _ _ => .none) restingCache :=
  .ensure .new (steady_restingSite 1) (show restingBoard.mem.ram.bytes = restingPage.bytes from rfl)

/-- The trace of all three is joined to the one that is there, and nobody can tell. -/
theorem answer_joined :
    (restingCache.ensure bus decodeInstr (restingSite 0) nothingBehind restingBoard).2.1.stats.merges = 1 ∧
      answer (restingCache.ensure bus decodeInstr (restingSite 0) nothingBehind restingBoard) =
        answer ((new restingConfig).ensure bus decodeInstr (restingSite 0) nothingBehind restingBoard) := by
  have hbytes : restingBoard.mem.ram.bytes = restingPage.bytes := rfl
  constructor
  · decide +kernel
  · exact (answer_eq_new rfl filled_restingCache (steady_restingSite 0) hbytes hbytes).1

end TraceCache

end TraceCore
