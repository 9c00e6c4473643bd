/-
Traces: runs of decoded instructions, by the physical address of their first byte and the mode they
were decoded under. The records of a trace lie in a pool that all traces of a cache share.
-/
import TraceCore.Fetch.Mode
import TraceCore.Memory.Stamp

namespace TraceCore

/-- Pages that a trace can lie in. -/
abbrev maxTracePages : Nat := 2

structure Trace where
  addr : UInt64
  mode : FetchMode
  /-- Index of the first record in the pool. -/
  start : Nat
  /-- Number of records. -/
  len : Nat
  /-- Bytes that the records were decoded from. -/
  byteLen : Nat
  /-- Snapshot of the page of `addr`. -/
  head : Snapshot
  /-- Snapshot of the next page, for an instruction that straddles the boundary. -/
  tail : Option Snapshot

namespace Trace

/-- The trace starts at `addr` in this mode. -/
def isAt (t : Trace) (addr : UInt64) (mode : FetchMode) : Bool := t.addr == addr && t.mode == mode

/-- The trace is one instruction that lies in two pages. -/
def split (t : Trace) : Bool := t.tail.isSome

/-- The snapshots of the pages that the trace covers. -/
def coverage (t : Trace) : List Snapshot := t.head :: t.tail.toList

/-- The trace with the present stamps of its pages, if it is still what memory holds. -/
def refresh (t : Trace) (stamps : StampTable) : Option Trace := do
  let head ← stamps.check t.head
  match t.tail with
  | none => return { t with head.stamp := head }
  | some second =>
    let tail ← stamps.check second
    return { t with head.stamp := head, tail := some { second with stamp := tail } }

end Trace

end TraceCore
