/-
How a machine shares time between its processors.
-/
import TraceCore.Processor.Config

namespace TraceCore

structure Schedule where
  /-- Instructions that each of several processors may run in a round. -/
  sharedQuantum : Nat := 16
  /-- Instructions that a lone processor may run in a round, unless a timer comes due earlier. -/
  loneQuantum : Nat := UInt64.size - 1
  cpu : CoreConfig := {}
deriving DecidableEq

namespace Schedule

def validate (s : Schedule) : Except ConfigError Unit :=
  if s.sharedQuantum = 0 then .error (.zeroQuantum .shared)
  else if s.loneQuantum = 0 then .error (.zeroQuantum .alone)
  else s.cpu.validate

/-- The settings of each of `n` processors. Several of them do not link traces, and no trace is
longer than a quantum, so that each comes back to the scheduler after a trace. -/
def coreConfig (s : Schedule) (n : Nat) : CoreConfig :=
  if 1 < n then
    { s.cpu with linkTraces := false, maxTraceLen := min s.cpu.maxTraceLen s.sharedQuantum }
  else s.cpu

end Schedule

end TraceCore
