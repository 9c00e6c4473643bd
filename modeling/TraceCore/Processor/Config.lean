/-
Settings of a processor's trace cache and dispatch, and the settings that are refused.
-/
namespace TraceCore

/-- Records in the longest trace that can be asked for. -/
abbrev maxTraceLenLimit : Nat := 65535

/-- A quantum of the scheduler. -/
inductive Quantum where
  /-- For each of several processors. -/
  | shared
  /-- For a processor that is alone. -/
  | alone
deriving DecidableEq

inductive ConfigError where
  | traceSlots (got : Nat)
  | maxTraceLen (got : Nat)
  | recordPool (pool needed : Nat)
  | repeatInterval
  | zeroQuantum (which : Quantum)
  | noProcessors
deriving DecidableEq

namespace ConfigError

def message : ConfigError → String
  | traceSlots got => "trace_slots must be a non-zero power of two (got " ++ toString got ++ ")"
  | maxTraceLen got =>
    "max_trace_len must be between 1 and " ++ toString maxTraceLenLimit ++ " (got " ++
      toString got ++ ")"
  | recordPool pool needed =>
    "record_pool (" ++ toString pool ++ ") must hold at least one maximum-length trace (" ++
      toString needed ++ ")"
  | repeatInterval => "rep_event_interval must be non-zero"
  | zeroQuantum .shared => "smp_quantum must be non-zero"
  | zeroQuantum .alone => "uniprocessor_quantum must be non-zero"
  | noProcessors => "a machine needs at least one processor"

end ConfigError

structure CoreConfig where
  /-- Slots of the trace cache, a power of two. -/
  traceSlots : Nat := 64 * 1024
  /-- Records that all traces share. A full pool empties the cache. -/
  recordPool : Nat := 576 * 1024
  /-- Records in the longest trace. -/
  maxTraceLen : Nat := 32
  /-- Taken branches go straight to the next trace. -/
  linkTraces : Bool := true
  /-- Traces that follow each other before the top of the dispatch loop. -/
  maxLinkDepth : Nat := 1000
  /-- Iterations of a repeated instruction between two checks for events. -/
  repeatInterval : Nat := 31
deriving DecidableEq, Inhabited

/-- A power of two has one bit set. -/
def isPowerOfTwo (n : Nat) : Bool := n != 0 && n &&& (n - 1) == 0

namespace CoreConfig

def validate (c : CoreConfig) : Except ConfigError Unit :=
  if !isPowerOfTwo c.traceSlots then .error (.traceSlots c.traceSlots)
  else if c.maxTraceLen = 0 ∨ maxTraceLenLimit < c.maxTraceLen then
    .error (.maxTraceLen c.maxTraceLen)
  else if c.recordPool < c.maxTraceLen + 1 ∨ UInt32.size ≤ c.recordPool then
    .error (.recordPool c.recordPool (c.maxTraceLen + 1))
  else if c.repeatInterval = 0 then .error .repeatInterval
  else .ok ()

end CoreConfig

end TraceCore
