/-
Building traces: decoding a run of instructions from one page, joining it to a trace that is already
there, and decoding the one instruction that straddles two pages.
-/
import TraceCore.Fetch.Window
import TraceCore.Trace.Cache

namespace TraceCore

/-- Where a trace starts, and how many bytes may be fetched from there. -/
structure Site where
  addr : UInt64
  mode : FetchMode
  rip : UInt64
  remaining : Nat

/-! ## Runs of instructions -/

/-- Why a run of instructions ends. -/
inductive RunEnd where
  /-- No room for another record. -/
  | full
  /-- A branch, or the last byte that may be fetched. -/
  | ended
  | short
  | invalid
  /-- The trace in this slot goes on where the run ends. -/
  | meets (slot : Nat)
deriving DecidableEq

/-- The record fits the bytes that it was decoded from. -/
def Instr.fits (i : Instr) (available : Nat) : Bool := i.len != 0 && i.len ≤ available

/-- Decodes up to `room` instructions from a page. `meeting next room` is the slot of a trace of at
most `room` records that starts at `next`; it is asked for only while a full-length instruction
could still follow. -/
def decodeRun (decode : Decoder) (mode : FetchMode) (page : PageView)
    (meeting : UInt64 → Nat → Option Nat) :
    (room : Nat) → (addr : UInt64) → (offset remaining : Nat) → List Instr × RunEnd
  | 0, _, _, _ => ([], .full)
  | room + 1, addr, offset, remaining =>
    let bytes := page.window offset (min remaining maxInstrLen)
    match decode bytes mode with
    | .short => ([], .short)
    | .invalid => ([], .invalid)
    | .complete i =>
      if !i.fits bytes.length then ([], .invalid)
      else
        let remaining := remaining - i.len
        if i.ends || remaining = 0 then ([i], .ended)
        else
          let next := addr + UInt64.ofNat i.len
          match (if maxInstrLen ≤ remaining then meeting next room else none) with
          | some slot => ([i], .meets slot)
          | none =>
            let (rest, ending) := decodeRun decode mode page meeting room next (offset + i.len) remaining
            (i :: rest, ending)

namespace TraceCache

/-- The slot of a current trace at `addr`, in one page, of at most `room` records. -/
def joinable (c : TraceCache) (stamps : StampTable) (mode : FetchMode) (addr : UInt64)
    (room : Nat) : Option Nat := do
  let t ← c.find? addr mode
  if !t.split && t.len ≤ room && t.head.page == pageOf addr && (stamps.check t.head).isSome then
    some (c.slotOf addr mode)
  else failure

/-- Puts new records, those behind `start`, into a slot as a trace. -/
def place (c : TraceCache) (slot start : Nat) (site : Site) (byteLen : Nat) (head : Snapshot)
    (tail : Option Snapshot) : TraceCache :=
  let t : Trace :=
    { addr := site.addr, mode := site.mode, start, len := c.pool.size - start, byteLen, head, tail }
  { c with slots := c.slots.setIfInBounds slot (some t) }

variable {ω : Type}

/-- Marks a range of cached code, and takes the snapshot of it under the stamp from before it was
read. -/
def track (bus : Bus ω) (addr : UInt64) (len : Nat) (stamp : UInt32) (w : ω) : Snapshot × ω :=
  let mask := touchedChunks addr len
  (⟨pageOf addr, stamp, mask⟩, bus.mapStamps (·.register (pageOf addr) mask) w)

/-- Makes a trace of a decoded run, with a copy of the records of the trace that it meets. -/
def buildRun (bus : Bus ω) (site : Site) (slot : Nat) (stamp : UInt32) (run : List Instr)
    (ending : RunEnd) (c : TraceCache) (w : ω) : TraceCache × ω :=
  let start := c.pool.size
  let byteLen := run.foldr (fun i n => i.len + n) 0
  let joined : Option Trace := match ending with | .meets s => c.trace? s | _ => .none
  let (records, c) := match joined with
    | some t =>
      ((c.instrs t).map (Record.mk · .none), { c with stats.merges := c.stats.merges + 1 })
    | .none => ([], c)
  let byteLen := byteLen + (joined.map (·.byteLen)).getD 0
  let c := { c with pool := c.pool ++ run.map (Record.mk · .none) ++ records }
  let (head, w) := track bus site.addr byteLen stamp w
  (c.place slot start site byteLen head .none, w)

/-- Decodes the instruction that straddles the end of the site's window. `next` gives the window
behind it. -/
def buildSplit (bus : Bus ω) (decode : Decoder) (site : Site)
    (next : UInt64 → ω → Except Fault FetchWindow × ω) (slot : Nat) (stamp : UInt32)
    (page : PageView) (c : TraceCache) (w : ω) : Except Fault Nat × TraceCache × ω :=
  if maxInstrLen ≤ site.remaining then
    (.error (.exhausted (.tooManyPrefixes site.remaining)), c, w)
  else
    let headBytes := page.window (pageOffset site.addr) site.remaining
    let rip := site.rip + UInt64.ofNat headBytes.length
    match next rip w with
    | (.error fault, w) => (.error fault, c, w)
    | (.ok window, w) =>
      match window.offset? rip with
      | .none => (.error (.exhausted (.boundaryDecodeFailed headBytes.length)), c, w)
      | some offset =>
        let tailAddr := window.address offset
        let tailStamp := ((bus.stamps w).page (pageOf tailAddr)).stamp
        match bus.codePage tailAddr w with
        | .none => (.error (.fetch (.unbacked tailAddr)), c, w)
        | some tailPage =>
          let want := min (window.remaining offset) (maxInstrLen - headBytes.length)
          let bytes := headBytes ++ tailPage.window (pageOffset tailAddr) want
          let failed := Fault.exhausted (.boundaryDecodeFailed bytes.length)
          match decode bytes site.mode with
          | .invalid => (.error (.decode site.rip), c, w)
          | .short => (.error failed, c, w)
          | .complete i =>
            if !i.fits bytes.length then (.error failed, c, w)
            else
              let headLen := min i.len headBytes.length
              let tailLen := i.len - headLen
              let (head, w) := track bus site.addr headLen stamp w
              let start := c.pool.size
              let c := { c with pool := c.pool.push ⟨i, .none⟩ }
              if tailLen = 0 then (.ok slot, c.place slot start site i.len head .none, w)
              else
                let (tail, w) := track bus tailAddr tailLen tailStamp w
                let c := { c with stats.splits := c.stats.splits + 1 }
                (.ok slot, c.place slot start site i.len head (some tail), w)

/-- Decodes the trace at a site into its slot. -/
def build (bus : Bus ω) (decode : Decoder) (site : Site)
    (next : UInt64 → ω → Except Fault FetchWindow × ω) (c : TraceCache) (w : ω) :
    Except Fault Nat × TraceCache × ω :=
  let c := { c with stats.misses := c.stats.misses + 1 }
  let c := if c.capacity < c.pool.size + c.maxTraceLen + 1 then c.flush else c
  let slot := c.slotOf site.addr site.mode
  let c := c.evict slot
  let stamp := ((bus.stamps w).page (pageOf site.addr)).stamp
  match bus.codePage site.addr w with
  | .none => (.error (.fetch (.unbacked site.addr)), c, w)
  | some page =>
    let run := decodeRun decode site.mode page (c.joinable (bus.stamps w) site.mode) c.maxTraceLen
      site.addr (pageOffset site.addr) site.remaining
    match run with
    | ([], .short) => buildSplit bus decode site next slot stamp page c w
    | ([], .invalid) => (.error (.decode site.rip), c, w)
    | (run, ending) =>
      let (c, w) := buildRun bus site slot stamp run ending c w
      (.ok slot, c, w)

/-- The slot of a current trace at a site, decoded now if there is none. -/
def ensure (bus : Bus ω) (decode : Decoder) (site : Site)
    (next : UInt64 → ω → Except Fault FetchWindow × ω) (c : TraceCache) (w : ω) :
    Except Fault Nat × TraceCache × ω :=
  match c.lookup (bus.stamps w) site.addr site.mode with
  | (some slot, c) => (.ok slot, c, w)
  | (.none, c) => c.build bus decode site next w

end TraceCache

end TraceCore
