/-
Linking: a taken branch goes straight to the trace it leads to. The first time, the successor is
looked up and remembered on the branch.
-/
import TraceCore.Trace.Cache

namespace TraceCore

structure Linker where
  enabled : Bool
  maxDepth : Nat
  /-- Traces that followed each other since the top of the dispatch loop. -/
  depth : Nat

namespace Linker

def new (config : CoreConfig) : Linker := ⟨config.linkTraces, config.maxLinkDepth, 0⟩

def reset (l : Linker) : Linker := { l with depth := 0 }

def allow (l : Linker) (enabled : Bool) : Linker := { l with enabled, depth := 0 }

/-- The slot to go on in when the branch in record `index` led to `addr`; none to go back to the
top of the dispatch loop, as it has to be when nothing `mayFollow`. -/
def chain (l : Linker) (c : TraceCache) (stamps : StampTable) (index : Nat) (addr : UInt64)
    (mode : FetchMode) (mayFollow : Bool) : Option Nat × Linker × TraceCache :=
  let follow (slot : Nat) (c : TraceCache) : Option Nat × Linker × TraceCache :=
    (some slot, { l with depth := l.depth + 1 },
      { c with stats.linksFollowed := c.stats.linksFollowed + 1 })
  if !l.enabled then (none, l, c)
  else if !mayFollow || l.maxDepth ≤ l.depth then (none, l.reset, c)
  else
    match c.linked stamps index addr mode with
    | some slot => follow slot c
    | none =>
      match c.lookup stamps addr mode with
      | (none, c) => (none, l, c)
      | (some slot, c) => follow slot (c.setLink stamps index slot addr)

end Linker

end TraceCore
