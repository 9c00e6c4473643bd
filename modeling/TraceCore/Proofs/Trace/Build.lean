/-
Building a trace keeps the cache coherent, and the trace that comes out is current. `decodeAt` says
what a processor without a cache would decode at the same place; where it fails, `build` fails alike.
-/
import TraceCore.Proofs.Trace.Run
import TraceCore.Socket.Board

namespace TraceCore

/-! ## Decoding without a cache -/

variable {ω : Type}

/-- The instruction at the end of the site's window. `next` gives the window behind it. -/
def decodeAcross (bus : Bus ω) (decode : Decoder) (site : Site)
    (next : UInt64 → ω → Except Fault FetchWindow × ω) (page : PageView) (w : ω) : Except Fault Instr × ω :=
  if maxInstrLen ≤ site.remaining then (.error (.exhausted (.tooManyPrefixes site.remaining)), w)
  else
    let headBytes := page.window (pageOffset site.addr) site.remaining
    let rip := site.rip + UInt64.ofNat headBytes.length
    match next rip w with
    | (.error fault, w) => (.error fault, w)
    | (.ok window, w) =>
      match window.offset? rip with
      | none => (.error (.exhausted (.boundaryDecodeFailed headBytes.length)), w)
      | some offset =>
        let tailAddr := window.address offset
        match bus.codePage tailAddr w with
        | none => (.error (.fetch (.unbacked tailAddr)), w)
        | some tailPage =>
          let want := min (window.remaining offset) (maxInstrLen - headBytes.length)
          let bytes := headBytes ++ tailPage.window (pageOffset tailAddr) want
          match decode bytes site.mode with
          | .invalid => (.error (.decode site.rip), w)
          | .short => (.error (.exhausted (.boundaryDecodeFailed bytes.length)), w)
          | .complete i =>
            if i.fits bytes.length then (.ok i, w) else (.error (.exhausted (.boundaryDecodeFailed bytes.length)), w)

/-- The instruction at a site. -/
def decodeAt (bus : Bus ω) (decode : Decoder) (site : Site)
    (next : UInt64 → ω → Except Fault FetchWindow × ω) (w : ω) : Except Fault Instr × ω :=
  match bus.codePage site.addr w with
  | none => (.error (.fetch (.unbacked site.addr)), w)
  | some page =>
    let bytes := page.window (pageOffset site.addr) (min site.remaining maxInstrLen)
    match decode bytes site.mode with
    | .invalid => (.error (.decode site.rip), w)
    | .short => decodeAcross bus decode site next page w
    | .complete i => if i.fits bytes.length then (.ok i, w) else (.error (.decode site.rip), w)

/-- Decoding does nothing else, if opening the next window does not. -/
theorem world_decodeAt {bus : Bus ω} {next : UInt64 → ω → Except Fault FetchWindow × ω}
    (hnext : ∀ rip w, (next rip w).2 = w)
    (decode : Decoder) (site : Site) (w : ω) : (decodeAt bus decode site next w).2 = w := by
  have hacross : ∀ page, (decodeAcross bus decode site next page w).2 = w := by
    intro page
    unfold decodeAcross
    split
    case isTrue => rfl
    case isFalse =>
      dsimp only
      have hworld := hnext (site.rip + UInt64.ofNat (page.window (pageOffset site.addr) site.remaining).length) w
      rcases hn : next (site.rip + UInt64.ofNat (page.window (pageOffset site.addr) site.remaining).length) w
        with ⟨r, w₁⟩
      rw [hn] at hworld
      obtain rfl : w₁ = w := hworld
      cases r with
      | error fault => rfl
      | ok window =>
        dsimp only
        split
        case h_1 => rfl
        case h_2 =>
          split
          case h_1 => rfl
          case h_2 =>
            split
            case h_1 => rfl
            case h_2 => rfl
            case h_3 => rw [apply_ite Prod.snd, ite_self]
  unfold decodeAt
  split
  case h_1 => rfl
  case h_2 page _ =>
    dsimp only
    split
    case h_1 => rfl
    case h_2 => exact hacross page
    case h_3 => rw [apply_ite Prod.snd, ite_self]

/-! ## Registering code on a board -/

namespace Board

variable {γ δ : Type}

/-- Code was registered on the board, and nothing else happened to its memory. -/
structure Registered (w w' : Board γ δ) : Prop where
  later : w.mem.ram.Later w'.mem.ram
  generation : w'.mem.ram.stamps.generation = w.mem.ram.stamps.generation
  lag : w'.mem.ram.stamps.lag = w.mem.ram.stamps.lag
  same : ∃ t, w'.mem = w.mem.mapStamps fun _ => t

theorem Registered.of_mem {w w' : Board γ δ} (h : w'.mem = w.mem) : w.Registered w' := by
  refine ⟨?_, by rw [h], by rw [h], w.mem.ram.stamps, h⟩
  rw [h]
  exact .refl _

theorem Registered.refl (w : Board γ δ) : w.Registered w := .of_mem rfl

theorem Registered.trans {a b c : Board γ δ} (h : a.Registered b) (h' : b.Registered c) : a.Registered c := by
  refine ⟨h.later.trans h'.later, h'.generation.trans h.generation, h'.lag.trans h.lag, ?_⟩
  obtain ⟨t, ht⟩ := h.same
  obtain ⟨t', ht'⟩ := h'.same
  exact ⟨t', by rw [ht', ht]; rfl⟩

theorem Registered.bytes {w w' : Board γ δ} (h : w.Registered w') : w'.mem.ram.bytes = w.mem.ram.bytes := by
  obtain ⟨t, ht⟩ := h.same
  rw [ht]
  rfl

theorem registered_register (w : Board γ δ) (p : UInt64) (mask : UInt32) :
    w.Registered (bus.mapStamps (·.register p mask) w) :=
  ⟨Ram.later_register _ p mask, rfl, StampTable.lag_register _ p mask, _, rfl⟩

end Board

/-! ## New traces -/

namespace TraceCache

open Board

variable {γ δ : Type} {c c' : TraceCache} {ram : Ram} {t : Trace} {is : List Instr} {slot : Nat}

/-- `c'` is `c` with a new trace of the instructions `is` in a slot. -/
structure Placed (c c' : TraceCache) (slot : Nat) (t : Trace) (is : List Instr) : Prop where
  slots : c'.slots = c.slots.setIfInBounds slot (some t)
  pool : c'.pool.toList = c.pool.toList ++ is.map (Record.mk · .none)
  epoch : c'.epoch = c.epoch
  room : c'.maxTraceLen = c.maxTraceLen
  capacity : c'.capacity = c.capacity
  start : t.start = c.pool.size
  len : t.len = is.length

theorem Placed.trace? (h : c.Placed c' slot t is) (hslot : slot < c.slots.size) (s : Nat) :
    c'.trace? s = if slot = s then some t else c.trace? s := by
  rw [← trace?_put c slot s (some t) hslot]
  show c'.slots[s]?.join = _
  rw [h.slots]; rfl

theorem Placed.instrs (h : c.Placed c' slot t is) : c'.instrs t = is := by
  unfold TraceCache.instrs
  rw [Array.toList_extract, h.pool, h.start, h.len, ← Array.length_toList]
  simp only [List.extract_eq_take_drop, List.drop_left, Nat.add_sub_cancel_left]
  rw [List.take_of_length_le (by simp), List.map_map]
  exact List.map_id _

theorem Placed.coherent (hp : c.Placed c' slot t is) (h : c.Coherent ram) (hslot : slot < c.slots.size)
    (hempty : c.trace? slot = .none) (hne : is ≠ []) (hholds : t.Holds ram is) : c'.Coherent ram := by
  have hpool : c'.pool = c.pool ++ (is.map (Record.mk · .none)).toArray := by
    apply Array.ext'
    rw [hp.pool, Array.toList_append]
  have hgrow := h.grow (is.map (Record.mk · .none)).toArray (fun r hr => by
    simp only [List.mem_toArray, List.mem_map] at hr
    obtain ⟨i, -, rfl⟩ := hr
    rfl)
  have hinstrs : TraceCache.instrs { c with pool := c.pool ++ (is.map (Record.mk · .none)).toArray } t = is := by
    refine Eq.trans ?_ hp.instrs
    unfold TraceCache.instrs
    rw [hpool]
  have hsound : Sound { c with pool := c.pool ++ (is.map (Record.mk · .none)).toArray } ram t := by
    refine ⟨?_, by rw [hp.len]; exact List.length_pos_iff.2 hne, by rw [hinstrs]; exact hholds⟩
    rw [hp.start, hp.len]
    simp
  have hput := hgrow.put hslot hsound (fun t' ht' => by
    change c.trace? slot = some t' at ht'
    rw [hempty] at ht'; cases ht')
  exact hput.congr hp.slots hpool hp.room hp.epoch

/-- How a new trace lies in the bytes that may be fetched at its site: it is a run of instructions
there, or such a run with another trace behind it, or one instruction that goes on in the next
window. -/
inductive Fresh (c : TraceCache) (w : Board γ δ) (site : Site)
    (next : UInt64 → Board γ δ → Except Fault FetchWindow × Board γ δ) (t : Trace) : Prop where
  | run (tail : t.tail = .none) (fits : t.byteLen ≤ site.remaining)
  | joined (t' : Trace) (s n : Nat) (tail : t.tail = .none) (old : c.trace? s = some t') (tail' : t'.tail = .none)
      (addr : t'.addr = site.addr + UInt64.ofNat n) (mode : t'.mode = site.mode)
      (fits : maxInstrLen + n ≤ site.remaining) (bytes : t.byteLen = n + t'.byteLen)
  | split (window : FetchWindow) (offset : Nat) (second : Snapshot) (tail : t.tail = some second)
      (short : site.remaining < maxInstrLen) (atEnd : site.remaining = toPageEnd site.addr)
      (opens : (next (site.rip + UInt64.ofNat site.remaining) w).1 = .ok window)
      (enters : window.offset? (site.rip + UInt64.ofNat site.remaining) = some offset)
      (start : second.start = window.address offset) (fits : t.byteLen ≤ site.remaining + window.remaining offset)

/-- The trace that was built for a site: it holds what memory holds, it is current, and it lies in
the bytes that may be fetched. -/
structure BuiltAt (c : TraceCache) (w w' : Board γ δ) (site : Site)
    (next : UInt64 → Board γ δ → Except Fault FetchWindow × Board γ δ) (t : Trace) (is : List Instr) : Prop where
  addr : t.addr = site.addr
  mode : t.mode = site.mode
  nonempty : is ≠ []
  holds : t.Holds w'.mem.ram is
  current : t.Current w'.mem.ram
  fresh : c.Fresh w site next t

/-- The trace that a run meets. -/
def met (c : TraceCache) : RunEnd → Option Trace
  | .meets s => c.trace? s
  | _ => .none

/-- The instructions that a run goes on with. -/
def metInstrs (c : TraceCache) (ending : RunEnd) : List Instr := ((c.met ending).map c.instrs).getD []

/-- What comes behind a run, and the bytes it lies in. -/
theorem met_spec {site : Site} {room : Nat} {run : List Instr} {ending : RunEnd} (h : c.Coherent ram)
    (hrem : site.remaining ≤ toPageEnd site.addr)
    (hrun : RunFrom ram site.mode (c.joinable ram.stamps site.mode) room site.addr site.remaining run ending) :
    ram.Decodes site.mode site.addr (run ++ c.metInstrs ending) ∧
      Ram.bytesOf (c.metInstrs ending) = ((c.met ending).map (·.byteLen)).getD 0 ∧
      Ram.bytesOf (run ++ c.metInstrs ending) ≤ toPageEnd site.addr ∧
      (c.met ending = .none ∨ ∃ t s, c.met ending = some t ∧ c.trace? s = some t ∧ t.tail = .none ∧
        t.addr = site.addr + UInt64.ofNat (Ram.bytesOf run) ∧ t.mode = site.mode ∧
          maxInstrLen + Ram.bytesOf run ≤ site.remaining) := by
  have hle := hrun.bytes_le
  unfold metInstrs
  cases hmet : c.met ending with
  | none => exact ⟨by simpa using hrun.decodes, rfl, by simpa using le_trans hle hrem, Or.inl rfl⟩
  | some t =>
    cases ending with
    | full => cases hmet
    | ended => cases hmet
    | short => cases hmet
    | invalid => cases hmet
    | meets s =>
      obtain ⟨hne, hfull, left, -, hmeet⟩ := hrun.meets s rfl
      obtain ⟨t', hs, haddr, hmode, htail, -, hcur⟩ := joinable_eq_some hmeet
      obtain rfl : t' = t := Option.some.inj (hs.symm.trans hmet)
      obtain ⟨hbytes, hshape⟩ := (h.sound s t' hs).holds
      have hstraight : t'.Straight ram (c.instrs t') := by
        rcases hshape with hshape | ⟨i, second, -, hshape⟩
        · exact hshape
        · rw [hshape.tail] at htail; cases htail
      have hmax : (0 : Nat) < maxInstrLen := by decide
      obtain ⟨-, -, htoEnd, -⟩ := pageOf_add (show Ram.bytesOf run < toPageEnd site.addr by omega)
      have hin := hstraight.guards.inside
      refine ⟨?_, hbytes.symm, ?_, Or.inr ⟨t', s, rfl, hs, htail, haddr, hmode, hfull⟩⟩
      · refine hrun.decodes.append (fun _ => hrun.plain nofun) ?_
        have := hstraight.decodes hcur
        rw [haddr, hmode] at this
        exact this
      · rw [haddr] at hin
        rw [Ram.bytesOf_append]
        simp only [Option.map_some, Option.getD_some]
        unfold toPageEnd at *
        omega

theorem size_append_list {α : Type} (xs : Array α) (l : List α) : (xs ++ l).size = xs.size + l.length := by
  rw [← Array.length_toList, Array.toList_appendList, List.length_append, Array.length_toList]

theorem append_list_assoc {α : Type} (xs : Array α) (l m : List α) : xs ++ l ++ m = xs ++ (l ++ m) :=
  Array.ext' (by simp)

/-- What `buildRun` makes, the counters apart. -/
theorem buildRun_eq (w : ω) (b : Bus ω) (site : Site) (slot : Nat) (stamp : UInt32) (run : List Instr) (ending : RunEnd)
    (c : TraceCache) (hbytes : Ram.bytesOf (c.metInstrs ending) = ((c.met ending).map (·.byteLen)).getD 0) :
    ∃ stats, buildRun b site slot stamp run ending c w =
      let is := run ++ c.metInstrs ending
      let mask := touchedChunks site.addr (Ram.bytesOf is)
      let t : Trace := { addr := site.addr, mode := site.mode, start := c.pool.size, len := is.length
                         byteLen := Ram.bytesOf is, head := ⟨pageOf site.addr, stamp, mask⟩, tail := .none }
      ({ c with stats, pool := c.pool ++ is.map (Record.mk · .none), slots := c.slots.setIfInBounds slot (some t) },
        b.mapStamps (·.register (pageOf site.addr) mask) w) := by
  dsimp only
  rw [Ram.bytesOf_append, hbytes]
  cases ending with
  | full => exact ⟨c.stats, by simp [buildRun, metInstrs, met, place, track, Ram.foldr_len, size_append_list]⟩
  | ended => exact ⟨c.stats, by simp [buildRun, metInstrs, met, place, track, Ram.foldr_len, size_append_list]⟩
  | short => exact ⟨c.stats, by simp [buildRun, metInstrs, met, place, track, Ram.foldr_len, size_append_list]⟩
  | invalid => exact ⟨c.stats, by simp [buildRun, metInstrs, met, place, track, Ram.foldr_len, size_append_list]⟩
  | meets s =>
    cases hs : c.trace? s with
    | none => exact ⟨c.stats, by simp [buildRun, metInstrs, met, hs, place, track, Ram.foldr_len, size_append_list]⟩
    | some t =>
      exact ⟨{ c.stats with merges := c.stats.merges + 1 },
        by simp [buildRun, metInstrs, met, hs, place, track, Ram.foldr_len, size_append_list, append_list_assoc]⟩

theorem builtAt_buildRun {w : Board γ δ} {site : Site} {run : List Instr} {ending : RunEnd}
    (next : UInt64 → Board γ δ → Except Fault FetchWindow × Board γ δ) (h : c.Coherent w.mem.ram) (slot : Nat)
    (ht : w.mem.ram.Tracked) (hbacked : site.addr.toNat < w.mem.ram.bytes.size)
    (hrem : site.remaining ≤ toPageEnd site.addr) (hne : run ≠ [])
    (hrun : RunFrom w.mem.ram site.mode (c.joinable w.mem.ram.stamps site.mode) c.maxTraceLen site.addr site.remaining
      run ending) :
    ∃ c' w' t is, buildRun bus site slot (w.mem.ram.stamps.page (pageOf site.addr)).stamp run ending c w = (c', w') ∧
      c.Placed c' slot t is ∧ w.Registered w' ∧ c.BuiltAt w w' site next t is := by
  obtain ⟨hdec, hbytes, hin, hmet⟩ := met_spec h hrem hrun
  obtain ⟨stats, heq⟩ := buildRun_eq w bus site slot (w.mem.ram.stamps.page (pageOf site.addr)).stamp run ending c
    hbytes
  refine ⟨_, _, _, run ++ c.metInstrs ending, heq, ⟨rfl, by simp, rfl, rfl, rfl, rfl, rfl⟩, registered_register .., ?_⟩
  have hinside : pageOffset site.addr + Ram.bytesOf (run ++ c.metInstrs ending) ≤ pageSize := by
    have := pageOffset_lt site.addr
    unfold toPageEnd at hin
    omega
  obtain ⟨hguards, hcur⟩ := Ram.guards_register (bus.mapStamps (·.register (pageOf site.addr) (touchedChunks site.addr
    (Ram.bytesOf (run ++ c.metInstrs ending)))) w).mem.ram _ ht hbacked hinside rfl
  refine ⟨rfl, rfl, fun h => hne (List.append_eq_nil_iff.1 h).1, ⟨rfl, Or.inl ⟨rfl, hguards, fun _ => ?_⟩⟩, ?_, ?_⟩
  · exact hdec.congr ht.addressable fun x _ _ => rfl
  · exact (Trace.current_of_straight rfl).2 hcur
  · have hle := hrun.bytes_le
    rcases hmet with hmet | ⟨t, s, hmet, hs, htail, haddr, hmode, hfull⟩
    · refine .run rfl ?_
      rw [metInstrs, hmet]
      simpa using hle
    · refine .joined t s (Ram.bytesOf run) rfl hs htail haddr hmode hfull ?_
      show Ram.bytesOf (run ++ c.metInstrs ending) = _
      rw [Ram.bytesOf_append, hbytes, hmet]
      rfl

/-- An address at the start of its page. -/
theorem pageOf_mul {addr : UInt64} (h : pageOffset addr = 0) : pageOf addr * 4096 = addr := by
  have ho := pageOffset_eq addr
  have hlt := addr.toNat_lt
  apply UInt64.toNat_inj.1
  rw [UInt64.toNat_mul, toNat_pageOf, show (4096 : UInt64).toNat = 4096 from rfl]
  unfold pageSize at *
  omega

/-- Behind the bytes of a site comes the start of a page. -/
structure Continues (site : Site) (next : UInt64 → Board γ δ → Except Fault FetchWindow × Board γ δ)
    (w : Board γ δ) : Prop where
  pure : ∀ rip, (next rip w).2.mem = w.mem
  fits : site.remaining ≤ toPageEnd site.addr
  atStart : ∀ window offset, site.remaining < maxInstrLen →
    (next (site.rip + UInt64.ofNat site.remaining) w).1 = .ok window →
    window.offset? (site.rip + UInt64.ofNat site.remaining) = some offset →
    site.remaining = toPageEnd site.addr ∧ pageOffset (window.address offset) = 0

/-- The trace of an instruction that goes on at `tailAddr`, the start of a page, and the board once
both parts of it are registered. -/
theorem builtAt_split {w₀ w w₁ w₂ : Board γ δ} {site : Site} {tailAddr : UInt64} {n : Nat}
    {next : UInt64 → Board γ δ → Except Fault FetchWindow × Board γ δ} {i : Instr} {head tail : Snapshot} {t : Trace}
    (ht : w.mem.ram.Tracked) (hin : site.addr.toNat + toPageEnd site.addr ≤ w.mem.ram.bytes.size)
    (htail : tailAddr.toNat < w.mem.ram.bytes.size) (hstart : pageOffset tailAddr = 0)
    (hdec : decodeInstr (w.mem.ram.slice site.addr (toPageEnd site.addr) ++ w.mem.ram.slice tailAddr n) site.mode =
      .complete i) (hcross : toPageEnd site.addr < i.len)
    (hhead : track bus site.addr (toPageEnd site.addr) (w.mem.ram.stamps.page (pageOf site.addr)).stamp w = (head, w₁))
    (htrack : track bus tailAddr (i.len - toPageEnd site.addr) (w.mem.ram.stamps.page (pageOf tailAddr)).stamp w₁ =
      (tail, w₂))
    (haddr : t.addr = site.addr) (hmode : t.mode = site.mode) (hbytes : t.byteLen = i.len) (hthead : t.head = head)
    (httail : t.tail = some tail) (hfresh : tail.start = tailAddr → c.Fresh w₀ site next t) :
    w.Registered w₂ ∧ c.BuiltAt w₀ w₂ site next t [i] := by
  cases hhead
  cases htrack
  obtain ⟨-, hmax, hle⟩ := len_of_decodeInstr hdec
  have hoff := pageOffset_lt site.addr
  have htailStart : Snapshot.start ⟨pageOf tailAddr, (w.mem.ram.stamps.page (pageOf tailAddr)).stamp,
      touchedChunks tailAddr (i.len - toPageEnd site.addr)⟩ = tailAddr := pageOf_mul hstart
  have hreg := registered_register w (pageOf site.addr) (touchedChunks site.addr (toPageEnd site.addr))
  set w₁ := bus.mapStamps (·.register (pageOf site.addr) (touchedChunks site.addr (toPageEnd site.addr))) w with hw₁
  have hreg' := registered_register w₁ (pageOf tailAddr) (touchedChunks tailAddr (i.len - toPageEnd site.addr))
  set w₂ := bus.mapStamps (·.register (pageOf tailAddr) (touchedChunks tailAddr (i.len - toPageEnd site.addr))) w₁
    with hw₂
  have hinside : pageOffset site.addr + toPageEnd site.addr ≤ pageSize := by unfold toPageEnd; omega
  obtain ⟨hguards, hcur⟩ := Ram.guards_register w₁.mem.ram _ ht (by unfold toPageEnd at hin; omega) hinside rfl
  have hinside' : pageOffset tailAddr + (i.len - toPageEnd site.addr) ≤ pageSize := by
    rw [hstart]; unfold pageSize maxInstrLen at *; omega
  obtain ⟨hguards', hcur'⟩ := Ram.guards_register w₂.mem.ram _ (hreg.later.tracked ht)
    (by rw [hreg.bytes]; exact htail) hinside' rfl
  have hstamp : (w₁.mem.ram.stamps.page (pageOf tailAddr)).stamp = (w.mem.ram.stamps.page (pageOf tailAddr)).stamp :=
    StampTable.stamp_page_register ..
  rw [hstamp] at hguards' hcur'
  have hbytes₂ : w₂.mem.ram.bytes = w.mem.ram.bytes := hreg'.bytes.trans hreg.bytes
  have hslice : ∀ a n, w₂.mem.ram.slice a n = w.mem.ram.slice a n := fun a n =>
    Ram.slice_eq fun x _ => by rw [hbytes₂]
  refine ⟨hreg.trans hreg', haddr, hmode, List.cons_ne_nil _ _,
    ⟨by rw [hbytes]; simp, Or.inr ⟨i, _, rfl, httail, ?_, ?_,
    ?_, fun _ => ?_⟩⟩, (Trace.current_of_straddles httail).2 ⟨?_, hcur'⟩, hfresh htailStart⟩
  · rw [haddr]; exact hcross
  · rw [haddr, hthead]
    exact hguards.later hreg'.later
  · rw [haddr, htailStart]; exact hguards'
  · rw [haddr, hmode, htailStart, hslice, hslice]
    refine decodeInstr_congr hdec ?_
    rw [List.length_append, Ram.length_slice, Ram.length_slice] at hle
    have hlen : (w.mem.ram.slice site.addr (toPageEnd site.addr)).length = toPageEnd site.addr := by
      rw [Ram.length_slice]; omega
    simp only [List.take_append, hlen, Ram.take_slice]
    congr 2
    omega
  · rw [hthead]
    exact hreg'.later.current hreg'.generation hcur

/-- The instruction at the end of the window: built, or the fault that decoding it gives. -/
theorem builtAt_buildSplit {w : Board γ δ} {site : Site} {page : PageView}
    {next : UInt64 → Board γ δ → Except Fault FetchWindow × Board γ δ} (slot : Nat)
    (ht : w.mem.ram.Tracked) (hbacked : site.addr.toNat < w.mem.ram.bytes.size)
    (hpage : w.mem.ram.page? site.addr = some page) (hcont : Continues site next w)
    (hshort : decodeInstr (w.mem.ram.slice site.addr (min site.remaining maxInstrLen)) site.mode = .short) :
    (∃ f w', buildSplit bus decodeInstr site next slot (w.mem.ram.stamps.page (pageOf site.addr)).stamp page c w =
        (.error f, c, w') ∧ w.Registered w' ∧ (decodeAcross bus decodeInstr site next page w).1 = .error f) ∨
      ∃ c' w' t i, buildSplit bus decodeInstr site next slot (w.mem.ram.stamps.page (pageOf site.addr)).stamp page c w =
        (.ok slot, c', w') ∧ c.Placed c' slot t [i] ∧ w.Registered w' ∧ c.BuiltAt w w' site next t [i] := by
  unfold buildSplit decodeAcross
  split
  case isTrue => exact Or.inl ⟨_, w, rfl, .refl w, rfl⟩
  case isFalse hlt =>
    have hrem := hcont.fits
    have hhead : page.window (pageOffset site.addr) site.remaining = w.mem.ram.slice site.addr site.remaining := by
      rw [Ram.window_eq_slice hpage rfl, Nat.min_eq_left hrem]
    have hinMem : site.addr.toNat + toPageEnd site.addr ≤ w.mem.ram.bytes.size := by
      have ho := pageOffset_eq site.addr
      have ha := w.mem.ram.aligned
      unfold toPageEnd pageSize at *
      omega
    have hlen : (w.mem.ram.slice site.addr site.remaining).length = site.remaining := by
      rw [Ram.length_slice]; omega
    dsimp only
    rw [hhead, hlen]
    have hpure := hcont.pure (site.rip + UInt64.ofNat site.remaining)
    cases hnext : next (site.rip + UInt64.ofNat site.remaining) w with
    | mk r w₁ =>
    rw [hnext] at hpure
    have hmem : w₁.mem = w.mem := hpure
    have hworld := Registered.of_mem hmem
    have hatStart := hcont.atStart
    rw [hnext] at hatStart
    rw [← hmem] at ht hbacked hpage hhead hinMem hlen hshort ⊢
    cases r with
    | error f => exact Or.inl ⟨f, w₁, rfl, hworld, rfl⟩
    | ok window =>
      dsimp only
      cases hoffset : window.offset? (site.rip + UInt64.ofNat site.remaining) with
      | none => exact Or.inl ⟨_, w₁, rfl, hworld, rfl⟩
      | some offset =>
        obtain ⟨hatEnd, hstart⟩ := hatStart window offset (by omega) rfl hoffset
        dsimp only
        generalize htailAddr : window.address offset = tailAddr at hstart
        cases htailPage : bus.codePage tailAddr w₁ with
        | none => exact Or.inl ⟨_, w₁, rfl, hworld, rfl⟩
        | some tailPage =>
          have htailPage : w₁.mem.ram.page? tailAddr = some tailPage := htailPage
          dsimp only
          rw [Ram.window_eq_slice htailPage rfl]
          generalize hn : min (min (window.remaining offset) (maxInstrLen - site.remaining)) (toPageEnd tailAddr) = n
          have hrem' : site.remaining = toPageEnd site.addr := hatEnd
          have htailLen : (w₁.mem.ram.slice tailAddr n).length ≤ window.remaining offset := by
            rw [Ram.length_slice]; omega
          cases hdec :
            decodeInstr (w₁.mem.ram.slice site.addr site.remaining ++ w₁.mem.ram.slice tailAddr n) site.mode with
          | invalid => exact Or.inl ⟨_, w₁, rfl, hworld, rfl⟩
          | short => exact Or.inl ⟨_, w₁, rfl, hworld, rfl⟩
          | complete i =>
            obtain ⟨hpos, hmax, hle⟩ := len_of_decodeInstr hdec
            have hfits :
                i.fits (w₁.mem.ram.slice site.addr site.remaining ++ w₁.mem.ram.slice tailAddr n).length = true := by
              simp only [Instr.fits, Bool.and_eq_true, bne_iff_ne, decide_eq_true_eq]
              omega
            have hcross : site.remaining < i.len := by
              by_contra hge
              rw [Nat.min_eq_left (by omega), decodeInstr_congr hdec] at hshort
              · cases hshort
              · rw [List.take_append_of_le_length (by omega)]
            have hmin : min i.len site.remaining = site.remaining := Nat.min_eq_right (by omega)
            have htail : ¬ i.len - site.remaining = 0 := by omega
            right
            simp only [hfits, hmin, htail, Bool.not_true, Bool.false_eq_true, if_false]
            rw [hrem'] at hdec hcross htail
            have hbacked' : tailAddr.toNat < w₁.mem.ram.bytes.size := Ram.isSome_page?.1 (by rw [htailPage]; rfl)
            refine ⟨_, _, _, i, rfl, ⟨rfl, by simp [place], rfl, rfl, rfl, rfl, by simp⟩, ?_⟩
            rw [hrem']
            refine (builtAt_split ht hinMem hbacked' hstart hdec hcross rfl rfl rfl rfl rfl rfl rfl fun hsecond =>
              ?_).imp_left
              hworld.trans
            refine .split window offset _ rfl (by omega) hatEnd (by rw [hnext]) hoffset (hsecond.trans htailAddr.symm)
              ?_
            rw [List.length_append, hlen] at hle
            show i.len ≤ _
            omega

/-! ## The whole of `build` -/

/-- What comes of building a trace for a site. -/
structure Built (c : TraceCache) (w : Board γ δ) (site : Site)
    (next : UInt64 → Board γ δ → Except Fault FetchWindow × Board γ δ) (r : Except Fault Nat) (c' : TraceCache)
    (w' : Board γ δ) : Prop where
  world : w.Registered w'
  coherent : c'.Coherent w'.mem.ram
  size : c'.slots.size = c.slots.size
  /-- It fails only as decoding without a cache does. -/
  failed : ∀ f, r = .error f → (decodeAt bus decodeInstr site next w).1 = .error f
  found : ∀ slot, r = .ok slot → slot = c.slotOf site.addr site.mode ∧
    ∃ t, c'.trace? slot = some t ∧ t.addr = site.addr ∧ t.mode = site.mode ∧ t.Current w'.mem.ram
  traces : ∀ s t, c'.trace? s = some t →
    c.trace? s = some t ∨ t.addr = site.addr ∧ t.mode = site.mode ∧ c.Fresh w site next t

/-- The cache once there is room for the trace of a site. -/
def makeRoom (c : TraceCache) (site : Site) : TraceCache :=
  let c := { c with stats.misses := c.stats.misses + 1 }
  (if c.capacity < c.pool.size + c.maxTraceLen + 1 then c.flush else c).evict (c.slotOf site.addr site.mode)

theorem size_slots_makeRoom (c : TraceCache) (site : Site) : (c.makeRoom site).slots.size = c.slots.size := by
  unfold makeRoom
  dsimp only
  rw [size_slots_evict]
  split
  · exact size_slots_flush _
  · rfl

theorem maxTraceLen_makeRoom (c : TraceCache) (site : Site) : (c.makeRoom site).maxTraceLen = c.maxTraceLen := by
  unfold makeRoom
  dsimp only
  rw [maxTraceLen_evict]
  split <;> rfl

theorem makeRoom_spec (h : c.Coherent ram) (site : Site) :
    (c.makeRoom site).Coherent ram ∧ (c.makeRoom site).slots.size = c.slots.size ∧
      (c.makeRoom site).trace? (c.slotOf site.addr site.mode) = .none ∧
      ∀ s t, (c.makeRoom site).trace? s = some t → c.trace? s = some t := by
  have h₁ := h.withStats { c.stats with misses := c.stats.misses + 1 }
  have hfree : ∀ {d : TraceCache},
      (d.evict (c.slotOf site.addr site.mode)).trace? (c.slotOf site.addr site.mode) = .none := by
    intro d
    cases ht : (d.evict (c.slotOf site.addr site.mode)).trace? (c.slotOf site.addr site.mode) with
    | none => rfl
    | some t => exact absurd rfl (trace?_evict ht).2
  refine ⟨coherent_evict ?_ _, size_slots_makeRoom c site, hfree, fun s t hs => ?_⟩
  · split
    · exact coherent_flush h₁ ram
    · exact h₁
  · have hs := (trace?_evict hs).1
    dsimp only at hs
    split at hs
    · rw [trace?_flush] at hs; cases hs
    · exact hs

theorem Fresh.mono {w : Board γ δ} {site : Site} {next : UInt64 → Board γ δ → Except Fault FetchWindow × Board γ δ}
    (h : c'.Fresh w site next t) (hsub : ∀ s t, c'.trace? s = some t → c.trace? s = some t) :
    c.Fresh w site next t := by
  cases h with
  | run tail fits => exact .run tail fits
  | joined t' s n tail old tail' addr mode fits bytes =>
    exact .joined t' s n tail (hsub s t' old) tail' addr mode fits bytes
  | split window offset second tail short atEnd opens enters start fits =>
    exact .split window offset second tail short atEnd opens enters start fits

/-- A placed trace, on top of a cache that lost some. -/
theorem Placed.built {w w' : Board γ δ} {site : Site} {d : TraceCache}
    {next : UInt64 → Board γ δ → Except Fault FetchWindow × Board γ δ} (hp : d.Placed c' slot t is)
    (hd : d.Coherent w.mem.ram) (ht : w.mem.ram.Tracked) (hsize : d.slots.size = c.slots.size)
    (hslots : 0 < c.slots.size) (hslot : slot = c.slotOf site.addr site.mode) (hempty : d.trace? slot = .none)
    (hsub : ∀ s t, d.trace? s = some t → c.trace? s = some t) (hworld : w.Registered w')
    (hb : d.BuiltAt w w' site next t is) : c.Built w site next (.ok slot) c' w' := by
  have hlt : slot < d.slots.size := by rw [hsize, hslot]; exact c.slotOf_lt hslots _ _
  refine ⟨hworld, hp.coherent (hd.later ht hworld.later) hlt hempty hb.nonempty hb.holds, ?_, nofun, fun s hs => ?_,
    fun s t' hs => ?_⟩
  · rw [hp.slots, Array.size_setIfInBounds, hsize]
  · cases hs
    exact ⟨hslot, t, by rw [hp.trace? hlt, if_pos rfl], hb.addr, hb.mode, hb.current⟩
  · rw [hp.trace? hlt] at hs
    split at hs
    case isTrue =>
      cases hs
      exact Or.inr ⟨hb.addr, hb.mode, hb.fresh.mono hsub⟩
    case isFalse => exact Or.inl (hsub s t' hs)

/-- Building as cases, on any bus: no memory, a run of instructions, none that begins here, or one that goes on behind
the window. -/
theorem build_eq_onBus (bus : Bus ω) (decode : Decoder) (c : TraceCache) (w : ω) (site : Site)
    (next : UInt64 → ω → Except Fault FetchWindow × ω) :
    c.build bus decode site next w = match bus.codePage site.addr w with
      | .none => (.error (.fetch (.unbacked site.addr)), c.makeRoom site, w)
      | some page => match decodeRun decode site.mode page ((c.makeRoom site).joinable (bus.stamps w) site.mode)
          (c.makeRoom site).maxTraceLen site.addr (pageOffset site.addr) site.remaining with
        | ([], .short) => buildSplit bus decode site next (c.slotOf site.addr site.mode)
            ((bus.stamps w).page (pageOf site.addr)).stamp page (c.makeRoom site) w
        | ([], .invalid) => (.error (.decode site.rip), c.makeRoom site, w)
        | (run, ending) =>
          let (c', w) := buildRun bus site (c.slotOf site.addr site.mode)
            ((bus.stamps w).page (pageOf site.addr)).stamp run ending (c.makeRoom site) w
          (.ok (c.slotOf site.addr site.mode), c', w) := by
  have hslot : slotOf (if c.capacity < c.pool.size + c.maxTraceLen + 1
      then flush { c with stats.misses := c.stats.misses + 1 } else { c with stats.misses := c.stats.misses + 1 })
      site.addr site.mode = c.slotOf site.addr site.mode := by
    unfold slotOf
    split <;> simp
  unfold build makeRoom
  dsimp only
  rw [hslot]
  rfl

/-- Building on a board. -/
theorem build_eq (c : TraceCache) (w : Board γ δ) (site : Site)
    (next : UInt64 → Board γ δ → Except Fault FetchWindow × Board γ δ) :
    c.build bus decodeInstr site next w = match (w.mem.ram.page? site.addr) with
      | .none => (.error (.fetch (.unbacked site.addr)), c.makeRoom site, w)
      | some page => match decodeRun decodeInstr site.mode page ((c.makeRoom site).joinable w.mem.ram.stamps site.mode)
          (c.makeRoom site).maxTraceLen site.addr (pageOffset site.addr) site.remaining with
        | ([], .short) => buildSplit bus decodeInstr site next (c.slotOf site.addr site.mode)
            (w.mem.ram.stamps.page (pageOf site.addr)).stamp page (c.makeRoom site) w
        | ([], .invalid) => (.error (.decode site.rip), c.makeRoom site, w)
        | (run, ending) =>
          let (c', w) := buildRun bus site (c.slotOf site.addr site.mode)
            (w.mem.ram.stamps.page (pageOf site.addr)).stamp run ending (c.makeRoom site) w
          (.ok (c.slotOf site.addr site.mode), c', w) :=
  build_eq_onBus bus decodeInstr c w site next

theorem built_build {w : Board γ δ} {site : Site} {next : UInt64 → Board γ δ → Except Fault FetchWindow × Board γ δ}
    (h : c.Coherent w.mem.ram) (ht : w.mem.ram.Tracked) (hcont : Continues site next w) :
    c.Built w site next (c.build bus decodeInstr site next w).1 (c.build bus decodeInstr site next w).2.1
      (c.build bus decodeInstr site next w).2.2 := by
  obtain ⟨hroom, hsize, hempty, hsub⟩ := makeRoom_spec h site
  rw [build_eq]
  have hfail : ∀ f {w'}, w.Registered w' → (decodeAt bus decodeInstr site next w).1 = .error f →
      c.Built w site next (.error f) (c.makeRoom site) w' := fun f _ hworld hf =>
    ⟨hworld, hroom.later ht hworld.later, hsize,
      fun f' hf' => by cases hf'; exact hf, nofun, fun s t hs => Or.inl (hsub s t hs)⟩
  cases hpage : w.mem.ram.page? site.addr with
  | none =>
    refine hfail _ (.refl w) ?_
    unfold decodeAt
    rw [show bus.codePage site.addr w = _ from hpage]
  | some page =>
    have hbacked : site.addr.toNat < w.mem.ram.bytes.size := Ram.isSome_page?.1 (by rw [hpage]; rfl)
    have hwindow : page.window (pageOffset site.addr) (min site.remaining maxInstrLen) =
        w.mem.ram.slice site.addr (min site.remaining maxInstrLen) := by
      have hle : min site.remaining maxInstrLen ≤ toPageEnd site.addr := le_trans (Nat.min_le_left ..) hcont.fits
      rw [Ram.window_eq_slice hpage rfl, Nat.min_eq_left hle]
    have hrun := runFrom_decodeRun site.mode ((c.makeRoom site).joinable w.mem.ram.stamps site.mode) hpage
      (c.makeRoom site).maxTraceLen rfl hcont.fits
    dsimp only
    generalize decodeRun decodeInstr site.mode page ((c.makeRoom site).joinable w.mem.ram.stamps site.mode)
      (c.makeRoom site).maxTraceLen site.addr (pageOffset site.addr) site.remaining = out at hrun ⊢
    obtain ⟨run, ending⟩ := out
    dsimp only at hrun
    cases run with
    | nil =>
      rcases hrun.empty rfl hroom.room with ⟨rfl, hshort⟩ | ⟨rfl, hinvalid⟩
      · have hacross : decodeAt bus decodeInstr site next w = decodeAcross bus decodeInstr site next page w := by
          unfold decodeAt
          rw [show bus.codePage site.addr w = _ from hpage]
          dsimp only
          rw [hwindow, hshort]
        dsimp only
        rcases builtAt_buildSplit (c := c.makeRoom site) (c.slotOf site.addr site.mode) ht hbacked hpage hcont hshort
          with
          ⟨f, w', hout, hworld, hf⟩ | ⟨c', w', t, i, hout, hp, hworld, hb⟩
        · rw [hout]
          exact hfail f hworld (by rw [hacross]; exact hf)
        · rw [hout]
          exact hp.built hroom ht hsize h.slots rfl hempty hsub hworld hb
      · refine hfail _ (.refl w) ?_
        unfold decodeAt
        rw [show bus.codePage site.addr w = _ from hpage]
        dsimp only
        rw [hwindow, hinvalid]
    | cons i run =>
      obtain ⟨c', w', t, is, hout, hp, hworld, hb⟩ :=
        builtAt_buildRun next hroom (c.slotOf site.addr site.mode) ht hbacked
        hcont.fits (List.cons_ne_nil i run) hrun
      dsimp only
      rw [hout]
      exact hp.built hroom ht hsize h.slots rfl hempty hsub hworld hb

/-! ## Failing as decoding does -/

/-- The instruction at the end of a window is built where it can be decoded, and else fails alike. -/
theorem buildSplit_fst (bus : Bus ω) (decode : Decoder) (site : Site)
    (next : UInt64 → ω → Except Fault FetchWindow × ω) (slot : Nat) (stamp : UInt32) (page : PageView) (c : TraceCache)
    (w : ω) : (buildSplit bus decode site next slot stamp page c w).1 =
      (decodeAcross bus decode site next page w).1.map fun _ => slot := by
  unfold buildSplit decodeAcross
  split
  case isTrue => rfl
  case isFalse =>
    dsimp only
    generalize page.window (pageOffset site.addr) site.remaining = head
    rcases next (site.rip + UInt64.ofNat head.length) w with ⟨fault | window, w₁⟩
    · rfl
    · dsimp only
      cases window.offset? (site.rip + UInt64.ofNat head.length) with
      | none => rfl
      | some offset =>
        dsimp only
        cases bus.codePage (window.address offset) w₁ with
        | none => rfl
        | some tailPage =>
          dsimp only
          generalize head ++ tailPage.window (pageOffset (window.address offset))
            (min (window.remaining offset) (maxInstrLen - head.length)) = bytes
          cases decode bytes site.mode with
          | invalid => rfl
          | short => rfl
          | complete i =>
            dsimp only
            cases i.fits bytes.length with
            | false => rfl
            | true =>
              rw [Bool.not_true, if_neg Bool.false_ne_true, if_pos rfl]
              split <;> rfl

/-- A run that begins with an instruction has it. -/
theorem decodeRun_of_complete {decode : Decoder} {mode : FetchMode} {page : PageView} {offset remaining : Nat}
    {i : Instr} (h : decode (page.window offset (min remaining maxInstrLen)) mode = .complete i)
    (hfits : i.fits (page.window offset (min remaining maxInstrLen)).length = true)
    (meeting : UInt64 → Nat → Option Nat) (room : Nat) (addr : UInt64) :
    ∃ rest ending, decodeRun decode mode page meeting (room + 1) addr offset remaining = (i :: rest, ending) := by
  unfold decodeRun
  dsimp only
  rw [h]
  dsimp only
  rw [hfits, Bool.not_true, if_neg Bool.false_ne_true]
  split
  case isTrue => exact ⟨[], _, rfl⟩
  case isFalse =>
    split
    case h_1 => exact ⟨[], _, rfl⟩
    case h_2 => exact ⟨_, _, rfl⟩

/-- A trace is built where its first instruction can be decoded, and else fails alike. -/
theorem build_fst (bus : Bus ω) (decode : Decoder) (site : Site) (next : UInt64 → ω → Except Fault FetchWindow × ω)
    {c : TraceCache} (hroom : 0 < c.maxTraceLen) (w : ω) : (c.build bus decode site next w).1 =
      (decodeAt bus decode site next w).1.map fun _ => c.slotOf site.addr site.mode := by
  obtain ⟨room, hm⟩ : ∃ room, (c.makeRoom site).maxTraceLen = room + 1 :=
    ⟨c.maxTraceLen - 1, by rw [maxTraceLen_makeRoom, Nat.sub_add_cancel hroom]⟩
  rw [build_eq_onBus, hm]
  unfold decodeAt
  cases bus.codePage site.addr w with
  | none => rfl
  | some page =>
    dsimp only
    cases hdec : decode (page.window (pageOffset site.addr) (min site.remaining maxInstrLen)) site.mode with
    | short =>
      unfold decodeRun
      dsimp only
      rw [hdec]
      exact buildSplit_fst ..
    | invalid =>
      unfold decodeRun
      dsimp only
      rw [hdec]
      rfl
    | complete i =>
      dsimp only
      cases hfits : i.fits (page.window (pageOffset site.addr) (min site.remaining maxInstrLen)).length with
      | false =>
        unfold decodeRun
        dsimp only
        rw [hdec]
        dsimp only
        rw [hfits]
        rfl
      | true =>
        obtain ⟨rest, ending, hrun⟩ := decodeRun_of_complete hdec hfits
          ((c.makeRoom site).joinable (bus.stamps w) site.mode) room site.addr
        rw [hrun]
        rfl

/-! ## Decoding what a trace holds -/

/-- An instruction that ends in the window. -/
theorem decodeAt_of_decode {w : Board γ δ} (site : Site)
    {next : UInt64 → Board γ δ → Except Fault FetchWindow × Board γ δ}
    {i : Instr} (hrem : site.remaining ≤ toPageEnd site.addr) (h : w.mem.ram.decode site.mode site.addr = .complete i)
    (hle : i.len ≤ site.remaining) : (decodeAt bus decodeInstr site next w).1 = .ok i := by
  obtain ⟨hpos, hmax, hin⟩ := Ram.len_of_decode h
  obtain ⟨page, hpage⟩ := Option.isSome_iff_exists.1
    (Ram.isSome_page?.2 (show site.addr.toNat < w.mem.ram.bytes.size by omega))
  have hwindow : page.window (pageOffset site.addr) (min site.remaining maxInstrLen) =
      w.mem.ram.slice site.addr (min site.remaining maxInstrLen) := by
    rw [Ram.window_eq_slice hpage rfl, Nat.min_eq_left (le_trans (Nat.min_le_left ..) hrem)]
  have hdec := Ram.decodeInstr_slice h (show i.len ≤ min site.remaining maxInstrLen by omega)
  obtain ⟨-, -, hlen⟩ := len_of_decodeInstr hdec
  have hfits : i.fits (w.mem.ram.slice site.addr (min site.remaining maxInstrLen)).length = true := by
    simp only [Instr.fits, Bool.and_eq_true, bne_iff_ne, decide_eq_true_eq]
    omega
  unfold decodeAt
  rw [show bus.codePage site.addr w = _ from hpage]
  dsimp only
  rw [hwindow, hdec]
  dsimp only
  rw [if_pos hfits]

/-- The window holds no more than the start of an instruction, so the next one is asked for. -/
theorem decodeAt_of_crosses {w : Board γ δ} (site : Site)
    (next : UInt64 → Board γ δ → Except Fault FetchWindow × Board γ δ)
    {i : Instr} {rest : List UInt8} (hpos : 0 < site.remaining) (hrem : site.remaining ≤ toPageEnd site.addr)
    (hcross : site.remaining < i.len) (hin : site.addr.toNat + site.remaining ≤ w.mem.ram.bytes.size)
    (h : decodeInstr (w.mem.ram.slice site.addr site.remaining ++ rest) site.mode = .complete i) :
    ∃ page : PageView, page.window (pageOffset site.addr) site.remaining = w.mem.ram.slice site.addr site.remaining ∧
      decodeAt bus decodeInstr site next w = decodeAcross bus decodeInstr site next page w := by
  have hmax := (len_of_decodeInstr h).2.1
  obtain ⟨page, hpage⟩ := Option.isSome_iff_exists.1
    (Ram.isSome_page?.2 (show site.addr.toNat < w.mem.ram.bytes.size by omega))
  have hhead : page.window (pageOffset site.addr) site.remaining = w.mem.ram.slice site.addr site.remaining := by
    rw [Ram.window_eq_slice hpage rfl, Nat.min_eq_left hrem]
  have hheadLen : (w.mem.ram.slice site.addr site.remaining).length = site.remaining := by
    rw [Ram.length_slice]; omega
  have hshort : decodeInstr (w.mem.ram.slice site.addr site.remaining) site.mode = .short := by
    have hprefix := decodeInstr_take_short h hcross
    rwa [List.take_left' hheadLen] at hprefix
  refine ⟨page, hhead, ?_⟩
  unfold decodeAt
  rw [show bus.codePage site.addr w = _ from hpage]
  dsimp only
  rw [Nat.min_eq_left (by omega), hhead, hshort]

/-- An instruction that goes on at the start of the next window. -/
theorem decodeAt_of_straddles {w : Board γ δ} (site : Site)
    {next : UInt64 → Board γ δ → Except Fault FetchWindow × Board γ δ} {i : Instr} {window : FetchWindow} {o : Nat}
    (hrem : site.remaining = toPageEnd site.addr) (hcross : toPageEnd site.addr < i.len)
    (hin : site.addr.toNat + toPageEnd site.addr ≤ w.mem.ram.bytes.size)
    (h : decodeInstr (w.mem.ram.slice site.addr (toPageEnd site.addr) ++ w.mem.ram.slice (window.address o) maxInstrLen)
      site.mode = .complete i)
    (hpure : ∀ rip, (next rip w).2.mem = w.mem)
    (hnext : (next (site.rip + UInt64.ofNat site.remaining) w).1 = .ok window)
    (ho : window.offset? (site.rip + UInt64.ofNat site.remaining) = some o)
    (hin' : (window.address o).toNat < w.mem.ram.bytes.size) (hwin : window.remaining o ≤ toPageEnd (window.address o))
    (hle : i.len ≤ site.remaining + window.remaining o) : (decodeAt bus decodeInstr site next w).1 = .ok i := by
  obtain ⟨hpos, hmax, hlen⟩ := len_of_decodeInstr h
  rw [← hrem] at h hin hcross
  have hoffset := pageOffset_lt site.addr
  obtain ⟨page, hhead, hdecode⟩ := decodeAt_of_crosses site next (by unfold toPageEnd at hrem; omega)
    (Nat.le_of_eq hrem) hcross hin h
  have hheadLen : (w.mem.ram.slice site.addr site.remaining).length = site.remaining := by
    rw [Ram.length_slice]; omega
  rw [hdecode]
  unfold decodeAcross
  rw [if_neg (by omega)]
  dsimp only
  rw [hhead, hheadLen]
  have hworld := hpure (site.rip + UInt64.ofNat site.remaining)
  generalize next (site.rip + UInt64.ofNat site.remaining) w = out at hnext hworld ⊢
  obtain ⟨r, w₁⟩ := out
  obtain rfl : r = .ok window := hnext
  dsimp only at hworld ⊢
  rw [ho]
  dsimp only
  obtain ⟨tailPage, htail⟩ := Option.isSome_iff_exists.1 (Ram.isSome_page?.2 hin')
  rw [show bus.codePage (window.address o) w₁ = w₁.mem.ram.page? (window.address o) from rfl, hworld, htail]
  dsimp only
  -- the rest of the instruction is among the bytes that are asked for
  rw [Ram.window_eq_slice htail rfl]
  generalize hwant : min (min (window.remaining o) (maxInstrLen - site.remaining)) (toPageEnd (window.address o)) = n
  have hdec : decodeInstr (w.mem.ram.slice site.addr site.remaining ++ w.mem.ram.slice (window.address o) n) site.mode =
      .complete i := by
    refine decodeInstr_congr h ?_
    simp only [List.take_append, hheadLen, Ram.take_slice]
    congr 2
    omega
  obtain ⟨-, -, hlen'⟩ := len_of_decodeInstr hdec
  have hfits :
      i.fits (w.mem.ram.slice site.addr site.remaining ++ w.mem.ram.slice (window.address o) n).length = true := by
    simp only [Instr.fits, Bool.and_eq_true, bne_iff_ne, decide_eq_true_eq]
    omega
  rw [hdec]
  dsimp only
  rw [if_pos hfits]

/-- Where the next window is a fault, so is the instruction. -/
theorem decodeAt_of_error {w : Board γ δ} (site : Site)
    {next : UInt64 → Board γ δ → Except Fault FetchWindow × Board γ δ}
    {i : Instr} {rest : List UInt8} {fault : Fault} (hpos : 0 < site.remaining)
    (hrem : site.remaining ≤ toPageEnd site.addr)
    (hcross : site.remaining < i.len) (hin : site.addr.toNat + site.remaining ≤ w.mem.ram.bytes.size)
    (h : decodeInstr (w.mem.ram.slice site.addr site.remaining ++ rest) site.mode = .complete i)
    (hnext : (next (site.rip + UInt64.ofNat site.remaining) w).1 = .error fault) :
    (decodeAt bus decodeInstr site next w).1 = .error fault := by
  have hmax := (len_of_decodeInstr h).2.1
  obtain ⟨page, hhead, hdecode⟩ := decodeAt_of_crosses site next hpos hrem hcross hin h
  have hheadLen : (w.mem.ram.slice site.addr site.remaining).length = site.remaining := by
    rw [Ram.length_slice]; omega
  rw [hdecode]
  unfold decodeAcross
  rw [if_neg (by omega)]
  dsimp only
  rw [hhead, hheadLen]
  generalize next (site.rip + UInt64.ofNat site.remaining) w = out at hnext ⊢
  obtain ⟨r, w₁⟩ := out
  obtain rfl : r = .error fault := hnext
  rfl

/-- An instruction that does not end in the window, with no window behind it. -/
theorem decodeAt_of_short {w : Board γ δ} {site : Site}
    {next : UInt64 → Board γ δ → Except Fault FetchWindow × Board γ δ} {fault : Fault}
    (hin : site.addr.toNat + toPageEnd site.addr ≤ w.mem.ram.bytes.size) (hrem : site.remaining ≤ toPageEnd site.addr)
    (hlt : site.remaining < maxInstrLen)
    (hshort : decodeInstr (w.mem.ram.slice site.addr site.remaining) site.mode = .short)
    (hnext : (next (site.rip + UInt64.ofNat site.remaining) w).1 = .error fault) :
    (decodeAt bus decodeInstr site next w).1 = .error fault := by
  have hend := pageOffset_lt site.addr
  obtain ⟨page, hpage⟩ := Option.isSome_iff_exists.1
    (Ram.isSome_page?.2 (show site.addr.toNat < w.mem.ram.bytes.size by unfold toPageEnd at hin; omega))
  have hwindow : page.window (pageOffset site.addr) site.remaining = w.mem.ram.slice site.addr site.remaining := by
    rw [Ram.window_eq_slice hpage rfl, Nat.min_eq_left hrem]
  have hlength : (w.mem.ram.slice site.addr site.remaining).length = site.remaining := by
    rw [Ram.length_slice]; omega
  unfold decodeAt
  rw [show bus.codePage site.addr w = _ from hpage]
  dsimp only
  rw [Nat.min_eq_left (Nat.le_of_lt hlt), hwindow, hshort]
  dsimp only
  unfold decodeAcross
  rw [if_neg (Nat.not_le.2 hlt)]
  dsimp only
  rw [hwindow, hlength]
  cases hn : next (site.rip + UInt64.ofNat site.remaining) w with
  | mk r w' =>
  rw [hn] at hnext
  obtain rfl : r = .error fault := hnext
  rfl

/-! ## Looking up and building -/

/-- What comes of asking for the trace at a site. -/
structure Ensured (c : TraceCache) (w : Board γ δ) (site : Site)
    (next : UInt64 → Board γ δ → Except Fault FetchWindow × Board γ δ) (r : Except Fault Nat) (c' : TraceCache)
    (w' : Board γ δ) : Prop where
  world : w.Registered w'
  coherent : c'.Coherent w'.mem.ram
  size : c'.slots.size = c.slots.size
  failed : ∀ f, r = .error f → (decodeAt bus decodeInstr site next w).1 = .error f
  found : ∀ slot, r = .ok slot → slot = c.slotOf site.addr site.mode ∧
    ∃ t, c'.trace? slot = some t ∧ t.addr = site.addr ∧ t.mode = site.mode ∧ t.Current w'.mem.ram
  /-- What is true of all traces stays so, if it does not depend on stamps and is true of a new one. -/
  all : ∀ P : Trace → Prop, (∀ t t', P t → t.refresh w.mem.ram.stamps = some t' → P t') →
    (∀ d t, All d P → t.addr = site.addr → t.mode = site.mode → d.Fresh w site next t → P t) → c.All P → c'.All P

theorem ensured_ensure {w : Board γ δ} {site : Site} {next : UInt64 → Board γ δ → Except Fault FetchWindow × Board γ δ}
    (h : c.Coherent w.mem.ram) (ht : w.mem.ram.Tracked) (hcont : Continues site next w) :
    c.Ensured w site next (c.ensure bus decodeInstr site next w).1 (c.ensure bus decodeInstr site next w).2.1
      (c.ensure bus decodeInstr site next w).2.2 := by
  have hlook := lookedUp_lookup h site.addr site.mode
  have hall : ∀ P : Trace → Prop, (∀ t t', P t → t.refresh w.mem.ram.stamps = some t' → P t') → c.All P →
      (c.lookup w.mem.ram.stamps site.addr site.mode).2.All P := by
    intro P hrefresh hP s t hs
    obtain ⟨t₀, hs₀, rfl | ht₀⟩ := hlook.traces s t hs
    · exact hP s t hs₀
    · exact hrefresh t₀ t (hP s t₀ hs₀) ht₀
  unfold ensure
  rw [show (bus.stamps w : StampTable) = w.mem.ram.stamps from rfl]
  generalize c.lookup w.mem.ram.stamps site.addr site.mode = out at hlook hall ⊢
  obtain ⟨r, d⟩ := out
  dsimp only at hlook hall
  cases r with
  | some slot =>
    refine ⟨.refl w, hlook.coherent, hlook.size, nofun, fun s hs => ?_, fun P hrefresh _ hP => hall P hrefresh hP⟩
    cases hs
    exact hlook.found slot rfl
  | none =>
    have hb := built_build hlook.coherent ht hcont
    refine ⟨hb.world, hb.coherent, hb.size.trans hlook.size, hb.failed, fun s hs => ?_,
      fun P hrefresh hfresh hP s t hs => ?_⟩
    · obtain ⟨hslot, t, hrest⟩ := hb.found s hs
      refine ⟨hslot.trans ?_, t, hrest⟩
      unfold slotOf
      rw [hlook.size]
    · have hd := hall P hrefresh hP
      rcases hb.traces s t hs with hs' | ⟨haddr, hmode, hf⟩
      · exact hd s t hs'
      · exact hfresh d t hd haddr hmode hf

/-- Asking for a trace fails where decoding does, unless a trace from before is current. -/
theorem ensure_eq_error (bus : Bus ω) (decode : Decoder) (site : Site)
    (next : UInt64 → ω → Except Fault FetchWindow × ω) {c : TraceCache} (hroom : 0 < c.maxTraceLen) (w : ω)
    (fault : Fault) : (c.ensure bus decode site next w).1 = .error fault ↔
      (c.lookup (bus.stamps w) site.addr site.mode).1 = Option.none ∧
        (decodeAt bus decode site next w).1 = .error fault := by
  have hkept : (c.lookup (bus.stamps w) site.addr site.mode).2.maxTraceLen = c.maxTraceLen := by
    rw [lookup_eq]
    dsimp only
    split
    · rfl
    · split
      · exact maxTraceLen_evict ..
      · rfl
  unfold ensure
  generalize c.lookup (bus.stamps w) site.addr site.mode = out at hkept ⊢
  obtain ⟨r, d⟩ := out
  dsimp only at hkept ⊢
  cases r with
  | some slot => exact ⟨nofun, nofun⟩
  | none =>
    dsimp only
    rw [build_fst bus decode site next (by rw [hkept]; exact hroom) w]
    cases (decodeAt bus decode site next w).1 with
    | ok i => exact ⟨nofun, nofun⟩
    | error f => exact ⟨fun h => ⟨rfl, by cases h; rfl⟩, fun h => congrArg _ (Except.error.inj h.2)⟩

/-- An instruction that does not end in the window, with no window behind it: there is a trace for it
only if one was built before. -/
theorem ensure_of_short {w : Board γ δ} (site : Site) {next : UInt64 → Board γ δ → Except Fault FetchWindow × Board γ δ}
    {fault : Fault} (h : c.Coherent w.mem.ram) (hin : site.addr.toNat + toPageEnd site.addr ≤ w.mem.ram.bytes.size)
    (hrem : site.remaining ≤ toPageEnd site.addr) (hlt : site.remaining < maxInstrLen)
    (hshort : decodeInstr (w.mem.ram.slice site.addr site.remaining) site.mode = .short)
    (hnext : (next (site.rip + UInt64.ofNat site.remaining) w).1 = .error fault) :
    (c.ensure bus decodeInstr site next w).1 = .error fault ↔
      (c.lookup w.mem.ram.stamps site.addr site.mode).1 = .none :=
  (ensure_eq_error bus decodeInstr site next h.room w fault).trans
    (and_iff_left (decodeAt_of_short hin hrem hlt hshort hnext))

end TraceCache

end TraceCore
