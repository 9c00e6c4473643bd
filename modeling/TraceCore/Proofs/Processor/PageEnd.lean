/-
Instructions that straddle the end of a page are decoded as they are inside one. The bytes at an instruction pointer may
be mapped wherever the mappings put the two pages; what is decoded, what is recorded and what is refused is the same.
-/
import TraceCore.Proofs.Instr.PrefixCode
import TraceCore.Proofs.Processor.Limit
import TraceCore.Proofs.Trace.Stitch

namespace TraceCore

/-! ## Bytes that may be fetched -/

/-- The `n` instruction pointers from the present one on may be fetched from: in 64-bit code all of them are canonical,
in other code they end with the code segment at the latest. -/
def Cpu.Admits (c : Cpu) (n : Nat) : Prop :=
  if c.codeSize = .b64 then ∀ k < n, isCanonical (c.rip + UInt64.ofNat k) = true
  else c.rip.toNat + n ≤ c.cs.limit.toNat + 1

instance (c : Cpu) (n : Nat) : Decidable (c.Admits n) := by unfold Cpu.Admits; infer_instance

namespace Cpu

variable {c : Cpu} {n k : Nat}

theorem Admits.toNat_rip (h : c.Admits n) (hb : c.codeSize ≠ .b64) (hk : k < n) :
    (c.rip + UInt64.ofNat k).toNat = c.rip.toNat + k ∧ c.rip.toNat + n ≤ c.cs.limit.toNat + 1 := by
  unfold Admits at h
  rw [if_neg hb] at h
  have hlimit := c.cs.limit.toNat_lt
  exact ⟨Ram.toNat_add_ofNat (by omega), h⟩

theorem Admits.reaches (h : c.Admits n) (hk : k < n) : c.Reaches (c.rip + UInt64.ofNat k) := by
  by_cases hb : c.codeSize = .b64
  · exact Or.inl hb
  · obtain ⟨hrip, hle⟩ := h.toNat_rip hb hk
    have hlimit := c.cs.limit.toNat_lt
    exact Or.inr (by omega)

/-- Each of them has a window, and only the end of the page can cut the others off. -/
theorem Admits.windowAt (h : c.Admits n) (hk : k < n) :
    ∃ bias size, windowAt c (c.rip + UInt64.ofNat k) = .ok (c.codeAddress (c.rip + UInt64.ofNat k), bias, size) ∧
      min (n - k) (toPageEnd (c.codeAddress (c.rip + UInt64.ofNat k))) ≤
        size - pageOffset (c.codeAddress (c.rip + UInt64.ofNat k)) := by
  by_cases hb : c.codeSize = .b64
  · have hcanonical : isCanonical (c.rip + UInt64.ofNat k) = true := by
      unfold Admits at h
      rw [if_pos hb] at h
      exact h k hk
    have hat := (windowAt_b64 hb).2 ⟨hcanonical, rfl, rfl, rfl⟩
    rw [codeAddress_of_windowAt hat]
    exact ⟨_, _, hat, Nat.min_le_right ..⟩
  · obtain ⟨hrip, hle⟩ := h.toNat_rip hb hk
    have hlimit := c.cs.limit.toNat_lt
    obtain ⟨bias, size, hat⟩ := windowAt_of_le hb (show (c.rip + UInt64.ofNat k).toNat % 2 ^ 32 ≤ c.cs.limit.toNat by
      omega)
    obtain ⟨-, -, -, hsize⟩ := (windowAt_segment hb).1 hat
    refine ⟨bias, size, hat, ?_⟩
    have hoffset := pageOffset_eq (c.codeAddress (c.rip + UInt64.ofNat k))
    unfold toPageEnd
    omega

end Cpu

/-- The bytes of a range are those of a shorter one, and others behind them. -/
theorem Ram.slice_split (ram : Ram) (addr : UInt64) {j k : Nat} (h : j ≤ k) :
    ram.slice addr k = ram.slice addr j ++ (ram.slice addr k).drop j := by
  have htake := ram.take_slice addr j k
  rw [Nat.min_eq_left h] at htake
  rw [← htake, List.take_append_drop]

namespace MappedRam

variable {m : MappedRam} {c : Cpu} {bytes : List UInt8} {addr : UInt64} {k n : Nat}

theorem Shown.take (h : m.Shown c bytes) (n : Nat) : m.Shown c (bytes.take n) := by
  intro k hk
  rw [List.length_take] at hk
  obtain ⟨addr, htr, hbyte⟩ := h k (by omega)
  exact ⟨addr, htr, by rw [List.getElem?_take_of_lt (by omega)]; exact hbyte⟩

/-- Each byte that is shown and admitted can be fetched, and the ones behind it to the end of the page. -/
theorem Shown.admitted (h : m.Shown c bytes) (ha : c.Admits bytes.length) (hk : k < bytes.length) :
    ∃ addr n, m.fetchView c (c.rip + UInt64.ofNat k) = .ok (addr, n) ∧ min (bytes.length - k) (toPageEnd addr) ≤ n := by
  obtain ⟨addr, htr, hbyte⟩ := h k hk
  obtain ⟨bias, size, hat, hroom⟩ := ha.windowAt hk
  rw [List.getElem?_eq_getElem hk] at hbyte
  have hin := (Array.getElem?_eq_some_iff.1 hbyte).1
  have hpage : (m.ram.page? (pageBase addr)).isSome = true := by
    rw [Ram.isSome_page?, Ram.toNat_pageBase]
    exact Nat.lt_of_le_of_lt (Nat.div_mul_le_self ..) hin
  refine ⟨addr, _, Board.fetchView_eq_ok.2 ⟨_, bias, size, hat, htr, hpage, rfl⟩, ?_⟩
  rw [← toPageEnd_translate htr]
  exact hroom

/-- Where the bytes at the instruction pointer are, of which `n` may be fetched from `addr` on: in one page, or with the
page ending there and the others at the start of another one. -/
inductive Lies (m : MappedRam) (c : Cpu) (bytes : List UInt8) (addr : UInt64) (n : Nat) : Prop where
  | inside (fits : bytes.length ≤ n) (slice : m.ram.slice addr bytes.length = bytes)
  | across (tailAddr : UInt64) (tail : Nat) (cut : n < bytes.length) (head : m.ram.slice addr n = bytes.take n)
      (next : m.fetchView c (c.rip + UInt64.ofNat n) = .ok (tailAddr, tail)) (fits : bytes.length ≤ n + tail)
      (slice : m.ram.slice tailAddr (bytes.length - n) = bytes.drop n)

theorem Shown.lies (h : m.Shown c bytes) (ha : c.Admits bytes.length) (hpos : 0 < bytes.length)
    (hlen : bytes.length ≤ maxInstrLen) : ∃ addr n, m.fetchView c c.rip = .ok (addr, n) ∧ m.Lies c bytes addr n := by
  have hzero : c.rip + UInt64.ofNat 0 = c.rip := UInt64.add_zero _
  obtain ⟨addr, n, hview, hroom⟩ := h.admitted ha hpos
  have hreach := ha.reaches hpos
  have hslice : ∀ j ≤ n, j ≤ bytes.length → m.ram.slice addr j = bytes.take j := by
    intro j hj hle
    rw [h.slice hreach hview hj (by omega), List.drop_zero]
  rw [hzero] at hview hreach
  refine ⟨addr, n, hview, ?_⟩
  by_cases hshort : n < bytes.length
  · obtain ⟨tailAddr, tail, hnext, htail⟩ := h.admitted ha hshort
    have hreach' := ha.reaches hshort
    -- the page is what ends there, so the others begin a page
    obtain ⟨linear, bias, size, hat, -, -, rfl⟩ := Board.fetchView_eq_ok.1 hview
    obtain ⟨linear', bias', size', hat', htr', -, -⟩ := Board.fetchView_eq_ok.1 hnext
    obtain ⟨-, hstart⟩ := windowAt_behind hat hat' hreach' (by omega) hreach.continues
    have hfull : toPageEnd tailAddr = pageSize := by
      unfold toPageEnd
      rw [pageOffset_translate htr', hstart, Nat.sub_zero]
    have hrest : bytes.length - (size - pageOffset linear) ≤ tail := by
      unfold maxInstrLen at hlen
      unfold pageSize at hfull
      omega
    refine .across tailAddr tail hshort (hslice _ (Nat.le_refl _) (Nat.le_of_lt hshort)) hnext (by omega) ?_
    rw [h.slice hreach' hnext hrest (by omega)]
    exact List.take_of_length_le (by rw [List.length_drop])
  · have hfits : bytes.length ≤ n := Nat.not_lt.1 hshort
    refine .inside hfits ?_
    rw [hslice _ hfits (Nat.le_refl _), List.take_length]

/-- One of the `len` bytes at an instruction pointer and behind it lies in this chunk of this page. -/
def Occupies (m : MappedRam) (c : Cpu) (rip : UInt64) (len : Nat) (page : UInt64) (chunk : Nat) : Prop :=
  ∃ k < len, ∃ addr, m.translate (c.codeAddress (rip + UInt64.ofNat k)) .execute c.cpl = .ok addr ∧
    pageOf addr = page ∧ pageOffset addr / chunkSize = chunk

variable {rip page : UInt64} {chunk : Nat}

theorem occupies_add (a b : Nat) :
    m.Occupies c rip (a + b) page chunk ↔ m.Occupies c rip a page chunk ∨
      m.Occupies c (rip + UInt64.ofNat a) b page chunk := by
  constructor
  · rintro ⟨k, hk, found⟩
    by_cases hlt : k < a
    · exact Or.inl ⟨k, hlt, found⟩
    · refine Or.inr ⟨k - a, by omega, ?_⟩
      rw [UInt64.add_assoc, ← UInt64.ofNat_add, Nat.add_sub_of_le (Nat.not_lt.1 hlt)]
      exact found
  · rintro (⟨k, hk, found⟩ | ⟨k, hk, found⟩)
    · exact ⟨k, by omega, found⟩
    · refine ⟨a + k, by omega, ?_⟩
      rw [UInt64.ofNat_add, ← UInt64.add_assoc]
      exact found

/-- In one window, those are the chunks that the bytes touch. -/
theorem occupies_of_fetchView (h : m.fetchView c rip = .ok (addr, n)) (hr : c.Reaches rip) (hk : k ≤ n) :
    m.Occupies c rip k page chunk ↔ pageOf addr = page ∧ hasChunk (touchedChunks addr k) chunk = true := by
  have hend := (Board.fetchView_le h).2.1
  have hbyte : ∀ j < k, m.translate (c.codeAddress (rip + UInt64.ofNat j)) .execute c.cpl =
      .ok (addr + UInt64.ofNat j) ∧ pageOf (addr + UInt64.ofNat j) = pageOf addr ∧
      pageOffset (addr + UInt64.ofNat j) = pageOffset addr + j := by
    intro j hj
    obtain ⟨hpage, hoffset, -, -⟩ := pageOf_add (show j < toPageEnd addr by omega)
    exact ⟨translate_of_fetchView (Board.fetchView_add h hr (by omega)).1, hpage, hoffset⟩
  rw [hasChunk_touchedChunks]
  constructor
  · rintro ⟨j, hj, addr', htr, rfl, rfl⟩
    obtain ⟨htr', hpage, hoffset⟩ := hbyte j hj
    rw [htr'] at htr
    cases htr
    refine ⟨hpage.symm, pageOffset addr + j, Nat.le_add_right .., by omega, ?_, by rw [hoffset]⟩
    unfold toPageEnd at hend
    omega
  · rintro ⟨rfl, x, hlow, hhigh, -, rfl⟩
    obtain ⟨htr, hpage, hoffset⟩ := hbyte (x - pageOffset addr) (by omega)
    refine ⟨x - pageOffset addr, by omega, _, htr, hpage, ?_⟩
    rw [hoffset, Nat.add_sub_of_le hlow]

end MappedRam

/-! ## Building the trace there -/

/-- The trace covers this chunk of this page. -/
def Trace.Covers (t : Trace) (page : UInt64) (chunk : Nat) : Prop :=
  ∃ snap ∈ t.coverage, snap.page = page ∧ hasChunk snap.mask chunk = true

namespace TraceCache

variable {γ δ : Type} {guard : Guard (Board γ δ)} {cpu : Cpu} {w : Board γ δ} {c : TraceCache} {bytes : List UInt8}
  {mode : FetchMode} {i : Instr} {addr : UInt64} {n : Nat}

/-- Opens a window at the instruction pointer, and asks for the trace there. -/
def fetch (guard : Guard (Board γ δ)) (cpu : Cpu) (mode : FetchMode) (c : TraceCache) (w : Board γ δ) :
    Except Fault Nat × TraceCache × Board γ δ :=
  match Board.nextWindow guard cpu cpu.rip w with
  | (.error fault, w) => (.error fault, c, w)
  | (.ok window, w) =>
    let site : Site :=
      { addr := window.address window.entry, mode, rip := cpu.rip, remaining := window.remaining window.entry }
    c.ensure Board.bus decodeInstr site (Board.nextWindow guard cpu) w

/-- A processor without an open window looks for its trace that way. -/
theorem findTrace_of_closed {g : Guard (Board γ δ)} {d : Delivery (Board γ δ)} {i : Nat} {p : Processor}
    (hdecode : p.decode = decodeInstr) (hclosed : p.window.size = 0) (w : Board γ δ) :
    let out := p.findTrace (Board.socket g d i) w
    (out.1, out.2.1.cache, out.2.2) = p.cache.fetch g p.cpu p.cpu.fetchMode w := by
  have hoffset : p.offsetOf Board.bus p.cpu.rip w = Option.none := by
    cases ho : p.offsetOf Board.bus p.cpu.rip w with
    | none => rfl
    | some o => exact absurd hclosed (Processor.window_ne_zero ho)
  dsimp only
  unfold Processor.findTrace Processor.enterWindow fetch Board.nextWindow
  rw [show p.offsetOf (Board.socket g d i).bus p.cpu.rip w = Option.none from hoffset,
    show openWindow (Board.socket g d i).bus (Board.socket g d i).guard p.cpu p.cpu.rip w =
      openWindow Board.bus g p.cpu p.cpu.rip w from rfl]
  rcases openWindow Board.bus g p.cpu p.cpu.rip w with ⟨e | window, w₁⟩
  · rfl
  · rw [← hdecode]
    rfl

/-- In a vacant cache the trace is built, at the place that is fetched from. -/
theorem fetch_of_fetchView (hc : c.Vacant) (hg : guard.Quiet) (mode : FetchMode)
    (hview : w.mem.fetchView cpu cpu.rip = .ok (addr, n)) :
    ∃ d : TraceCache, ∃ w₁ : Board γ δ, d.Vacant ∧ w₁.mem = w.mem ∧ c.fetch guard cpu mode w =
      d.build Board.bus decodeInstr ⟨addr, mode, cpu.rip, n⟩ (Board.nextWindow guard cpu) w₁ := by
  have hworld : (Board.nextWindow guard cpu cpu.rip w).2.mem = w.mem := Board.mem_openWindow hg cpu cpu.rip w
  unfold fetch
  rcases hopen : Board.nextWindow guard cpu cpu.rip w with ⟨fault | window, w₁⟩
  · obtain ⟨e, -, he⟩ := Board.nextWindow_eq_error (congrArg Prod.fst hopen)
    rw [hview] at he
    cases he
  · have hentry := Board.fetchView_of_openWindow (Board.nextWindow_eq_ok.1 (congrArg Prod.fst hopen))
    rw [hview] at hentry
    cases hentry
    rw [hopen] at hworld
    obtain ⟨d, hd, hensure⟩ := hc.ensure Board.bus decodeInstr
      ⟨window.address window.entry, mode, cpu.rip, window.remaining window.entry⟩ (Board.nextWindow guard cpu) w₁
    exact ⟨d, w₁, hd, hworld, hensure⟩

/-- What is decoded across the end of the window are the bytes, and maybe some behind them. -/
theorem stitches_of_lies {page : PageView} {tailAddr : UInt64} {tail : Nat} (hg : guard.Quiet) (mode : FetchMode)
    (hview : w.mem.fetchView cpu cpu.rip = .ok (addr, n)) (hlen : bytes.length ≤ maxInstrLen)
    (hadmits : cpu.Admits bytes.length) (hpage : w.mem.ram.page? addr = some page) (hcut : n < bytes.length)
    (hhead : w.mem.ram.slice addr n = bytes.take n)
    (hnext : w.mem.fetchView cpu (cpu.rip + UInt64.ofNat n) = .ok (tailAddr, tail)) (hfits : bytes.length ≤ n + tail)
    (htail : w.mem.ram.slice tailAddr (bytes.length - n) = bytes.drop n) :
    ∃ more, Site.Stitches ⟨addr, mode, cpu.rip, n⟩ Board.bus (Board.nextWindow guard cpu) w page tailAddr
      (bytes ++ more) := by
  have hend := (Board.fetchView_le hview).2.1
  obtain ⟨-, htailEnd, hbacked⟩ := Board.fetchView_le hnext
  obtain ⟨window, o, hopens, henters, haddress, hremaining⟩ :=
    Board.nextWindow_of_fetchView guard hnext (hadmits.reaches hcut)
  have hworld : (Board.nextWindow guard cpu (cpu.rip + UInt64.ofNat n) w).2.mem = w.mem :=
    Board.mem_openWindow hg cpu (cpu.rip + UInt64.ofNat n) w
  obtain ⟨tailPage, htailPage⟩ := Option.isSome_iff_exists.1 (Ram.isSome_page?.2 hbacked)
  have hlast : min (min tail (maxInstrLen - n)) (toPageEnd tailAddr) = min tail (maxInstrLen - n) := by omega
  refine ⟨(w.mem.ram.slice tailAddr (min tail (maxInstrLen - n))).drop (bytes.length - n),
    Nat.lt_of_lt_of_le hcut hlen, ?_, ?_, window, o, tailPage, _, Prod.ext hopens rfl, henters, haddress, ?_, ?_⟩
  · rw [List.length_append]
    exact Nat.le_add_right_of_le (Nat.le_of_lt hcut)
  · rw [Ram.window_eq_slice hpage rfl, Nat.min_eq_left hend, hhead,
      List.take_append_of_le_length (Nat.le_of_lt hcut)]
  · rw [show Board.bus.codePage tailAddr (Board.nextWindow guard cpu (cpu.rip + UInt64.ofNat n) w).2 =
      (Board.nextWindow guard cpu (cpu.rip + UInt64.ofNat n) w).2.mem.ram.page? tailAddr from rfl, hworld, htailPage]
  · rw [Ram.window_eq_slice htailPage rfl, hremaining, hlast, List.drop_append_of_le_length (Nat.le_of_lt hcut),
      ← htail]
    exact w.mem.ram.slice_split tailAddr (by omega)

/-- The window of the site has the bytes, and maybe some behind them, or else as many of them as fit. -/
theorem window_of_lies {page : PageView} (hview : w.mem.fetchView cpu cpu.rip = .ok (addr, n))
    (hlen : bytes.length ≤ maxInstrLen) (hpage : w.mem.ram.page? addr = some page)
    (hlies : w.mem.Lies cpu bytes addr n) :
    ∃ more, page.window (pageOffset addr) (min n maxInstrLen) = bytes.take n ++ more ∧
      (n < bytes.length → more = []) := by
  have hend := (Board.fetchView_le hview).2.1
  rw [Ram.window_eq_slice hpage rfl, Nat.min_eq_left (show min n maxInstrLen ≤ toPageEnd addr by omega)]
  cases hlies with
  | inside fits slice =>
    refine ⟨(w.mem.ram.slice addr (min n maxInstrLen)).drop bytes.length, ?_, fun hcut => absurd hcut (by omega)⟩
    rw [List.take_of_length_le fits]
    have hsplit := w.mem.ram.slice_split addr (show bytes.length ≤ min n maxInstrLen by omega)
    rwa [slice] at hsplit
  | across tailAddr tail cut head =>
    exact ⟨[], by rw [Nat.min_eq_left (by omega), head, List.append_nil], fun _ => rfl⟩

/-- Bytes that are no instruction are refused, whichever window it takes to see it. -/
theorem decodeAt_of_invalid (hg : guard.Quiet) (hview : w.mem.fetchView cpu cpu.rip = .ok (addr, n))
    (hlen : bytes.length ≤ maxInstrLen) (hadmits : cpu.Admits bytes.length) (hlies : w.mem.Lies cpu bytes addr n)
    (hdec : decodeInstr bytes mode = .invalid) :
    (decodeAt Board.bus decodeInstr ⟨addr, mode, cpu.rip, n⟩ (Board.nextWindow guard cpu) w).1 =
      .error (.decode cpu.rip) := by
  obtain ⟨page, hpage⟩ := Option.isSome_iff_exists.1 (Ram.isSome_page?.2 (Board.fetchView_le hview).2.2)
  obtain ⟨more, hwindow, hmore⟩ := window_of_lies hview hlen hpage hlies
  unfold decodeAt
  rw [show Board.bus.codePage addr w = w.mem.ram.page? addr from rfl, hpage]
  dsimp only
  rw [hwindow]
  cases hlies with
  | inside fits =>
    rw [List.take_of_length_le fits, decodeInstr_append_of_invalid hdec]
  | across tailAddr tail cut head next fits slice =>
    rw [hmore cut, List.append_nil]
    cases hfirst : decodeInstr (bytes.take n) mode with
    | invalid => rfl
    | complete i =>
      -- the bytes behind would not change that
      have hle := (len_of_decodeInstr hfirst).2.2
      rw [List.length_take_of_le (Nat.le_of_lt cut)] at hle
      rw [decodeInstr_congr hfirst (show bytes.take i.len = (bytes.take n).take i.len by
        rw [List.take_take, Nat.min_eq_left hle])] at hdec
      cases hdec
    | short =>
      obtain ⟨others, hstitches⟩ := stitches_of_lies hg mode hview hlen hadmits hpage cut head next fits slice
      exact hstitches.decodeAcross_of_invalid (decodeInstr_append_of_invalid hdec others)

/-- An instruction that ends in the window of the site. -/
theorem decodeAt_of_complete (guard : Guard (Board γ δ)) (hview : w.mem.fetchView cpu cpu.rip = .ok (addr, n))
    (hlen : bytes.length ≤ maxInstrLen) (hlies : w.mem.Lies cpu bytes addr n)
    (hdec : decodeInstr bytes mode = .complete i) (hle : i.len ≤ n) :
    (decodeAt Board.bus decodeInstr ⟨addr, mode, cpu.rip, n⟩ (Board.nextWindow guard cpu) w).1 = .ok i := by
  obtain ⟨page, hpage⟩ := Option.isSome_iff_exists.1 (Ram.isSome_page?.2 (Board.fetchView_le hview).2.2)
  obtain ⟨more, hwindow, -⟩ := window_of_lies hview hlen hpage hlies
  obtain ⟨hpos, -, hin⟩ := len_of_decodeInstr hdec
  have hfirst : decodeInstr (bytes.take n ++ more) mode = .complete i := by
    refine decodeInstr_congr hdec ?_
    rw [List.take_append_of_le_length (by rw [List.length_take]; omega), List.take_take, Nat.min_eq_left hle]
  have hfits : i.fits (bytes.take n ++ more).length = true := by
    simp only [Instr.fits, Bool.and_eq_true, bne_iff_ne, decide_eq_true_eq]
    exact ⟨by omega, (len_of_decodeInstr hfirst).2.2⟩
  unfold decodeAt
  rw [show Board.bus.codePage addr w = w.mem.ram.page? addr from rfl, hpage]
  dsimp only
  rw [hwindow, hfirst]
  dsimp only
  rw [if_pos hfits]

/-! ## What is fetched -/

/-- What is fetched is this trace, with these records. -/
def Fetches (c : TraceCache) (guard : Guard (Board γ δ)) (cpu : Cpu) (mode : FetchMode) (w : Board γ δ) (t : Trace)
    (records : List Record) : Prop :=
  ∃ slot c' w', c.fetch guard cpu mode w = (.ok slot, c', w') ∧ c'.trace? slot = some t ∧ c'.records t = records

/-- An instruction is the first record of the trace that is fetched. If it goes on in the next page it is the only one,
and the trace covers the chunks that it occupies. -/
theorem fetches_of_complete (hc : c.Vacant) (hg : guard.Quiet) (hlen : bytes.length ≤ maxInstrLen)
    (hshown : w.mem.Shown cpu bytes) (hadmits : cpu.Admits bytes.length) (hdec : decodeInstr bytes mode = .complete i) :
    ∃ t rest, c.Fetches guard cpu mode w t (⟨i, .none⟩ :: rest) ∧
      (toPageEnd (cpu.codeAddress cpu.rip) < i.len → rest = [] ∧
        ∀ page chunk, t.Covers page chunk ↔ w.mem.Occupies cpu cpu.rip i.len page chunk) := by
  obtain ⟨hpos, -, hin⟩ := len_of_decodeInstr hdec
  have hreach := hadmits.reaches (Nat.lt_of_lt_of_le hpos hin)
  rw [show cpu.rip + UInt64.ofNat 0 = cpu.rip from UInt64.add_zero _] at hreach
  obtain ⟨addr, n, hview, hlies⟩ := hshown.lies hadmits (Nat.lt_of_lt_of_le hpos hin) hlen
  obtain ⟨d, w₁, hd, hmem, hfetch⟩ := fetch_of_fetchView hc hg mode hview
  have hend : n ≤ toPageEnd (cpu.codeAddress cpu.rip) := by
    rw [MappedRam.toPageEnd_translate (MappedRam.translate_of_fetchView hview)]
    exact (Board.fetchView_le hview).2.1
  rw [← hmem] at hview hlies ⊢
  by_cases hle : i.len ≤ n
  · obtain ⟨slot, c', w', t, hbuild, ht, hhead⟩ := build_of_decodeAt hd.slots hd.room
      (decodeAt_of_complete guard hview hlen hlies hdec hle)
    obtain ⟨rest, hrest⟩ := List.head?_eq_some_iff.1 hhead
    exact ⟨t, rest, ⟨slot, c', w', hfetch.trans hbuild, ht, hrest⟩, fun hcross => by omega⟩
  · have hcross : n < i.len := Nat.not_le.1 hle
    cases hlies with
    | inside fits => omega
    | across tailAddr tail cut head next fits slice =>
      obtain ⟨page, hpage⟩ := Option.isSome_iff_exists.1 (Ram.isSome_page?.2 (Board.fetchView_le hview).2.2)
      obtain ⟨more, hstitches⟩ := stitches_of_lies hg mode hview hlen hadmits hpage cut head next fits slice
      have hfull : decodeInstr (bytes ++ more) mode = .complete i :=
        decodeInstr_congr hdec (List.take_append_of_le_length hin)
      obtain ⟨slot, c', w', t, headStamp, tailStamp, hbuild, ht, hrecords, hcoverage⟩ := build_of_stitches hd.slots
        hd.room hstitches hpage (decodeInstr_take_short hfull hcross) hfull hcross (len_of_decodeInstr hfull).2.2
      refine ⟨t, [], ⟨slot, c', w', hfetch.trans hbuild, ht, hrecords⟩, fun _ => ⟨rfl, fun p chunk => ?_⟩⟩
      -- the bytes before the end of the page, and those behind it
      rw [← Nat.add_sub_of_le (Nat.le_of_lt hcross), MappedRam.occupies_add,
        MappedRam.occupies_of_fetchView hview hreach (Nat.le_refl n),
        MappedRam.occupies_of_fetchView next (hadmits.reaches cut) (by omega)]
      unfold Trace.Covers
      rw [hcoverage]
      simp

/-- Bytes that are no instruction are a fault, which names the instruction pointer. -/
theorem fetch_of_invalid (hc : c.Vacant) (hg : guard.Quiet) (hlen : bytes.length ≤ maxInstrLen)
    (hshown : w.mem.Shown cpu bytes) (hadmits : cpu.Admits bytes.length) (hdec : decodeInstr bytes mode = .invalid) :
    (c.fetch guard cpu mode w).1 = .error (.decode cpu.rip) := by
  have hpos : 0 < bytes.length := by
    cases bytes with
    | nil => cases hdec
    | cons b bs => exact Nat.succ_pos _
  obtain ⟨addr, n, hview, hlies⟩ := hshown.lies hadmits hpos hlen
  obtain ⟨d, w₁, hd, hmem, hfetch⟩ := fetch_of_fetchView hc hg mode hview
  rw [← hmem] at hview hlies
  rw [hfetch, build_fst _ _ _ _ hd.room, decodeAt_of_invalid hg hview hlen hadmits hlies hdec]
  rfl

/-- Decoding does not depend on where a page ends. Bytes that tell whether they begin with an instruction, as any
fifteen do, are fetched at two places: inside a page or across the end of one, wherever the mappings put the pages, by
processors that admit the bytes, from vacant caches. Either both fetch a trace that begins with the same record, or both
have the fault of bytes that are no instruction, which names the instruction pointer and is an invalid opcode to the
guest. Where the record goes on in the next page it is the only one, and the trace covers the chunks of both pages that
it occupies, and no others. -/
theorem fetch_anywhere {γ' δ' : Type} {c' : TraceCache} {guard' : Guard (Board γ' δ')} {cpu' : Cpu} {w' : Board γ' δ'}
    (hc : c.Vacant) (hc' : c'.Vacant) (hg : guard.Quiet) (hg' : guard'.Quiet) (mode : FetchMode)
    (hlen : bytes.length ≤ maxInstrLen) (htells : decodeInstr bytes mode ≠ .short)
    (hshown : w.mem.Shown cpu bytes) (hadmits : cpu.Admits bytes.length)
    (hshown' : w'.mem.Shown cpu' bytes) (hadmits' : cpu'.Admits bytes.length) :
    (∃ i t rest t' rest', decodeInstr bytes mode = .complete i ∧
      c.Fetches guard cpu mode w t (⟨i, .none⟩ :: rest) ∧ c'.Fetches guard' cpu' mode w' t' (⟨i, .none⟩ :: rest') ∧
      (toPageEnd (cpu.codeAddress cpu.rip) < i.len → rest = [] ∧
        ∀ page chunk, t.Covers page chunk ↔ w.mem.Occupies cpu cpu.rip i.len page chunk) ∧
      (toPageEnd (cpu'.codeAddress cpu'.rip) < i.len → rest' = [] ∧
        ∀ page chunk, t'.Covers page chunk ↔ w'.mem.Occupies cpu' cpu'.rip i.len page chunk)) ∨
    (decodeInstr bytes mode = .invalid ∧ (c.fetch guard cpu mode w).1 = .error (.decode cpu.rip) ∧
      (c'.fetch guard' cpu' mode w').1 = .error (.decode cpu'.rip) ∧
      (Fault.decode cpu.rip).guestException = some .invalidOpcode ∧
      (Fault.decode cpu'.rip).guestException = some .invalidOpcode) := by
  cases hdec : decodeInstr bytes mode with
  | short => exact absurd hdec htells
  | invalid =>
    exact Or.inr ⟨rfl, fetch_of_invalid hc hg hlen hshown hadmits hdec,
      fetch_of_invalid hc' hg' hlen hshown' hadmits' hdec, rfl, rfl⟩
  | complete i =>
    obtain ⟨t, rest, hfetches, hcross⟩ := fetches_of_complete hc hg hlen hshown hadmits hdec
    obtain ⟨t', rest', hfetches', hcross'⟩ := fetches_of_complete hc' hg' hlen hshown' hadmits' hdec
    exact Or.inl ⟨i, t, rest, t', rest', rfl, hfetches, hfetches', hcross, hcross'⟩

/-- `mov eax, 0x44332211`, and what is behind it. -/
def moveBytes : List UInt8 := [0xB8, 0x11, 0x22, 0x33, 0x44] ++ List.replicate 10 0

/-- A frame with the move in the middle, which its end and its start make up too. -/
def foldedFrame : Ram := ⟨.ofFn fun x : Fin 4096 => moveBytes.getD ((x + 1) % 2048) 0, .ofPages 1, by simp⟩

/-- The frame, mapped to two pages behind each other. -/
def foldedPages (linear : UInt64) : Board Unit Unit :=
  ⟨(({ ram := foldedFrame } : MappedRam).map linear { frame := 0 }).map (linear + 0x1000) { frame := 0 }, (), (), #[{}]⟩

theorem translate_foldedPages {linear addr : UInt64}
    (h : pageOf addr = pageOf linear ∨ pageOf addr = pageOf (linear + 0x1000)) :
    (foldedPages linear).mem.translate addr .execute 0 = .ok (addr % 4096) := by
  have hmapped : ((((∅ : Std.HashMap UInt64 Mapping).insert (pageOf linear) { frame := 0 }).insert
      (pageOf (linear + 0x1000)) { frame := 0 })[pageOf addr]?) = some { frame := 0 } := by
    rw [Std.HashMap.getElem?_insert, Std.HashMap.getElem?_insert]
    rcases h with h | h
    · simp [h]
    · simp [h]
  have haddress : Mapping.address { frame := 0 } addr = addr % 4096 := UInt64.zero_or
  unfold MappedRam.translate foldedPages MappedRam.map
  dsimp only [Option.getD]
  rw [hmapped]
  dsimp only
  rw [haddress]
  rfl

theorem shown_foldedPages (linear : UInt64) {cpu : Cpu} (hcpl : cpu.cpl = 0) (h : ∀ k < moveBytes.length,
    (pageOf (cpu.codeAddress (cpu.rip + UInt64.ofNat k)) = pageOf linear ∨
      pageOf (cpu.codeAddress (cpu.rip + UInt64.ofNat k)) = pageOf (linear + 0x1000)) ∧
    ((cpu.codeAddress (cpu.rip + UInt64.ofNat k) % 4096).toNat + 1) % 2048 = k) :
    (foldedPages linear).mem.Shown cpu moveBytes := by
  intro k hk
  obtain ⟨hpage, hbyte⟩ := h k hk
  refine ⟨_, by rw [hcpl]; exact translate_foldedPages hpage, ?_⟩
  have hin : (cpu.codeAddress (cpu.rip + UInt64.ofNat k) % 4096).toNat < 4096 := pageOffset_lt _
  show foldedFrame.bytes[_]? = _
  unfold foldedFrame
  rw [Array.getElem?_ofFn, dif_pos hin, List.getElem?_eq_getElem hk]
  dsimp only
  rw [hbyte, List.getD_eq_getElem _ _ hk]

/-- A cache of one slot. -/
def oneSlot : TraceCache := new { traceSlots := 1, recordPool := 3, maxTraceLen := 2 }

theorem vacant_oneSlot : oneSlot.Vacant := vacant_new rfl

/-- In 32-bit code the move is fetched across the boundary as it is inside the page, and then it is the only record. -/
theorem fetch_anywhere_move :
    let cut : Cpu := { Cpu.new .protectedMode with rip := 0x1FFF }
    let whole : Cpu := { Cpu.new .protectedMode with rip := 0x17FF }
    let i : Instr := { op := .moveImm .rax 0x44332211, len := 5 }
    ∃ t t' rest', oneSlot.Fetches .none cut cut.fetchMode (foldedPages 0x1000) t [⟨i, .none⟩] ∧
      oneSlot.Fetches .none whole cut.fetchMode (foldedPages 0x1000) t' (⟨i, .none⟩ :: rest') ∧
      ∀ page chunk, t.Covers page chunk ↔ (foldedPages 0x1000).mem.Occupies cut cut.rip 5 page chunk := by
  intro cut whole i
  have hcut : (foldedPages 0x1000).mem.Shown cut moveBytes := shown_foldedPages 0x1000 rfl (by decide)
  have hwhole : (foldedPages 0x1000).mem.Shown whole moveBytes := shown_foldedPages 0x1000 rfl (by decide)
  have hdecode : decodeInstr moveBytes cut.fetchMode = .complete i := by decide +kernel
  rcases fetch_anywhere vacant_oneSlot vacant_oneSlot Guard.quiet_none Guard.quiet_none cut.fetchMode
    (show moveBytes.length ≤ maxInstrLen by decide) (by rw [hdecode]; exact nofun) hcut
    (by decide) hwhole (by decide) with
    ⟨j, t, rest, t', rest', hj, hfetches, hfetches', hcross, -⟩ | ⟨hinvalid, -⟩
  · rw [hdecode] at hj
    cases hj
    obtain ⟨rfl, hcovers⟩ := hcross (by decide)
    exact ⟨t, t', rest', hfetches, hfetches', hcovers⟩
  · rw [hdecode] at hinvalid
    cases hinvalid

/-- Behind the last canonical page of 64-bit code nothing is fetched, mapped or not. An instruction that goes on there
is a fault. -/
theorem fetch_of_nonCanonical (hc : c.Vacant) (hg : guard.Quiet) (hcode : cpu.codeSize = .b64)
    (hshown : w.mem.Shown cpu bytes) (hadmits : cpu.Admits bytes.length) (hshort : decodeInstr bytes mode = .short)
    (hends : toPageEnd (cpu.codeAddress cpu.rip) = bytes.length)
    (hout : isCanonical (cpu.rip + UInt64.ofNat bytes.length) = false) :
    (c.fetch guard cpu mode w).1 = .error (.fetch (.nonCanonical (cpu.rip + UInt64.ofNat bytes.length))) := by
  have hlen := length_of_decodeInstr_short hshort
  have hoffset := pageOffset_lt (cpu.codeAddress cpu.rip)
  have hpos : 0 < bytes.length := by
    unfold toPageEnd at hends
    omega
  obtain ⟨addr, n, hview, hlies⟩ := hshown.lies hadmits hpos (Nat.le_of_lt hlen)
  -- the window ends with the page
  have hn : n = bytes.length ∧ bytes.length = toPageEnd addr := by
    obtain ⟨linear, bias, size, hat, htr, -, rfl⟩ := Board.fetchView_eq_ok.1 hview
    obtain ⟨-, -, -, rfl⟩ := (windowAt_b64 hcode).1 hat
    rw [Cpu.codeAddress_of_windowAt hat] at hends
    exact ⟨hends, hends.symm.trans (MappedRam.toPageEnd_translate htr)⟩
  obtain ⟨rfl, hends⟩ := hn
  obtain ⟨d, w₁, hd, hmem, hfetch⟩ := fetch_of_fetchView hc hg mode hview
  have hat : windowAt cpu (cpu.rip + UInt64.ofNat bytes.length) =
      .error (.nonCanonical (cpu.rip + UInt64.ofNat bytes.length)) := by
    unfold windowAt
    rw [if_pos hcode, hout]
    rfl
  have hnext : (Board.nextWindow guard cpu (cpu.rip + UInt64.ofNat bytes.length) w₁).1 =
      .error (.fetch (.nonCanonical (cpu.rip + UInt64.ofNat bytes.length))) := by
    unfold Board.nextWindow openWindow
    rw [hat]
    rfl
  rw [← hmem] at hlies
  cases hlies with
  | across tailAddr tail cut => exact absurd cut (Nat.lt_irrefl _)
  | inside fits slice =>
    have hin : addr.toNat + toPageEnd addr ≤ w₁.mem.ram.bytes.size := by
      have hslice := congrArg List.length slice
      rw [Ram.length_slice] at hslice
      omega
    have hfault : (decodeAt Board.bus decodeInstr ⟨addr, mode, cpu.rip, bytes.length⟩ (Board.nextWindow guard cpu)
        w₁).1 = .error (.fetch (.nonCanonical (cpu.rip + UInt64.ofNat bytes.length))) :=
      decodeAt_of_short hin (Nat.le_of_eq hends) hlen (by rw [slice]; exact hshort) hnext
    rw [hfetch, build_fst _ _ _ _ hd.room, hfault]
    rfl

/-- So a boundary can make a difference: inside the last canonical page the move is fetched, and across its end it is
not, though the page behind is mapped too. -/
theorem fetch_nonCanonical :
    let w := foldedPages 0x7FFFFFFFF000
    let cut : Cpu := { Cpu.new .longMode with rip := 0x7FFFFFFFFFFF }
    let whole : Cpu := { Cpu.new .longMode with rip := 0x7FFFFFFFF7FF }
    moveBytes.length = maxInstrLen ∧ w.mem.Shown cut moveBytes ∧ w.mem.Shown whole moveBytes ∧
      toPageEnd (cut.codeAddress cut.rip) = 1 ∧ maxInstrLen ≤ toPageEnd (whole.codeAddress whole.rip) ∧ oneSlot.Vacant ∧
      (oneSlot.fetch .none cut cut.fetchMode w).1 = .error (.fetch (.nonCanonical 0x800000000000)) ∧
      ∃ i t rest, oneSlot.Fetches .none whole cut.fetchMode w t (⟨i, .none⟩ :: rest) := by
  intro w cut whole
  have hcut : w.mem.Shown cut moveBytes := shown_foldedPages 0x7FFFFFFFF000 rfl (by decide)
  have hwhole : w.mem.Shown whole moveBytes := shown_foldedPages 0x7FFFFFFFF000 rfl (by decide)
  have hdecode : decodeInstr moveBytes cut.fetchMode =
      .complete { op := .moveImm .rax 0x44332211, len := 5, addrSize := .b64 } := by decide +kernel
  refine ⟨rfl, hcut, hwhole, by decide, by decide, vacant_oneSlot, ?_, ?_⟩
  · exact fetch_of_nonCanonical vacant_oneSlot Guard.quiet_none rfl
      (hcut.take 1) (by decide) (decodeInstr_take_short hdecode (by decide)) (by decide) (by decide)
  · obtain ⟨t, rest, hfetches, -⟩ := fetches_of_complete vacant_oneSlot Guard.quiet_none
      (show moveBytes.length ≤ maxInstrLen by decide) hwhole (by decide) hdecode
    exact ⟨_, t, rest, hfetches⟩

end TraceCache

end TraceCore
