/-
The trace cache of one processor. Slots are direct mapped by physical address and mode. All records
lie in one pool, and when a new trace might not fit, everything is dropped. Nobody tells the cache
of a store: a trace is checked against the stamp table when it is looked up.
-/
import TraceCore.Instr.Basic
import TraceCore.Processor.Config
import TraceCore.Trace.Basic

namespace TraceCore

/-- Successor of a trace, remembered on the branch that leads to it. -/
structure Link where
  slot : Nat
  addr : UInt64
  epoch : Nat
  generation : Nat

/-- A decoded instruction in the pool. -/
structure Record where
  instr : Instr
  link : Option Link := none

structure CacheStats where
  lookups : Nat := 0
  hits : Nat := 0
  misses : Nat := 0
  /-- Look-ups that found a trace over bytes that were written since. -/
  stale : Nat := 0
  merges : Nat := 0
  splits : Nat := 0
  linksFollowed : Nat := 0
  flushes : Nat := 0
deriving DecidableEq

structure TraceCache where
  slots : Array (Option Trace)
  pool : Array Record
  /-- Records that the pool may hold. -/
  capacity : Nat
  maxTraceLen : Nat
  /-- Moves whenever a slot is emptied. Links of an older epoch are dead. -/
  epoch : Nat
  stats : CacheStats

namespace TraceCache

/-- A cache without slots. -/
def none : TraceCache := ⟨#[], #[], 0, 0, 0, {}⟩

instance : Inhabited TraceCache := ⟨none⟩

def new (config : CoreConfig) : TraceCache where
  slots := Array.replicate config.traceSlots .none
  pool := #[]
  capacity := config.recordPool
  maxTraceLen := config.maxTraceLen
  epoch := 0
  stats := {}

/-! ## Looking -/

/-- The slot of a trace. -/
def slotOf (c : TraceCache) (addr : UInt64) (mode : FetchMode) : Nat :=
  ((addr ^^^ mode.mask) &&& UInt64.ofNat (c.slots.size - 1)).toNat

/-- The trace in a slot. -/
def trace? (c : TraceCache) (slot : Nat) : Option Trace := c.slots[slot]?.join

/-- The trace at `addr`, current or not. -/
def find? (c : TraceCache) (addr : UInt64) (mode : FetchMode) : Option Trace :=
  (c.trace? (c.slotOf addr mode)).filter (·.isAt addr mode)

/-- The instructions of a trace. -/
def instrs (c : TraceCache) (t : Trace) : List Instr :=
  (c.pool.extract t.start (t.start + t.len)).toList.map (·.instr)

/-- Occupied slots. -/
def live (c : TraceCache) : Nat := c.slots.countP (·.isSome)

/-! ## Emptying -/

/-- Drops every trace and every record. -/
def flush (c : TraceCache) : TraceCache :=
  { c with
    slots := Array.replicate c.slots.size .none
    pool := #[]
    epoch := c.epoch + 1
    stats.flushes := c.stats.flushes + 1 }

/-- Empties one slot. -/
def evict (c : TraceCache) (slot : Nat) : TraceCache :=
  if (c.trace? slot).isSome then
    { c with slots := c.slots.setIfInBounds slot .none, epoch := c.epoch + 1 }
  else c

/-! ## Looking up -/

/-- The slot of the current trace at `addr`. A trace that is no longer current is dropped; one that
is takes over the present stamps. -/
def lookup (c : TraceCache) (stamps : StampTable) (addr : UInt64) (mode : FetchMode) :
    Option Nat × TraceCache :=
  let c := { c with stats.lookups := c.stats.lookups + 1 }
  let slot := c.slotOf addr mode
  match c.find? addr mode with
  | .none => (.none, c)
  | some t =>
    match t.refresh stamps with
    | .none => (.none, { c with stats.stale := c.stats.stale + 1 }.evict slot)
    | some t =>
      (some slot, { c with
        slots := c.slots.setIfInBounds slot (some t)
        stats.hits := c.stats.hits + 1 })

/-! ## Links -/

/-- The slot that the link on record `index` leads to, if nothing happened that could make it
wrong and it leads to `addr`. -/
def linked (c : TraceCache) (stamps : StampTable) (index : Nat) (addr : UInt64) (mode : FetchMode) :
    Option Nat := do
  let record ← c.pool[index]?
  let link ← record.link
  if link.epoch = c.epoch ∧ link.generation = stamps.generation ∧ link.addr = addr then
    let t ← c.trace? link.slot
    if t.isAt addr mode then some link.slot else .none
  else .none

/-- Remembers on record `index` that `addr` is in `slot`. -/
def setLink (c : TraceCache) (stamps : StampTable) (index slot : Nat) (addr : UInt64) : TraceCache :=
  let link : Link := { slot, addr, epoch := c.epoch, generation := stamps.generation }
  { c with pool := c.pool.modify index ({ · with link := some link }) }

end TraceCache

end TraceCore
