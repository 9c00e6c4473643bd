/-
A processor: architectural state, the fetch window it is in, its private trace cache, and the count
of instructions that it retired.
-/
import TraceCore.Instr.Decode
import TraceCore.Trace.Build
import TraceCore.Trace.Linker

namespace TraceCore

/-- Why a processor gave control back. -/
inductive Exit where
  /-- A debugger stopped it: before an instruction, after a watched store, or by an event. -/
  | breakpoint
  /-- An event was left to the caller. -/
  | asyncEvent
  | quantumExhausted
  | halted
  | fatal (fault : Fault)
deriving DecidableEq

structure Processor where
  id : Nat
  config : CoreConfig
  decode : Decoder
  cpu : Cpu
  window : FetchWindow
  cache : TraceCache
  linker : Linker
  /-- Instructions retired so far. Each iteration of a repeated instruction counts. -/
  retired : Nat
  /-- The next instruction is not to be stopped at. -/
  resume : Bool

namespace Processor

/-- A processor with an empty cache. -/
def withDecoder (id : Nat) (config : CoreConfig) (cpu : Cpu) (decode : Decoder) :
    Except ConfigError Processor := do
  config.validate
  return { id, config, decode, cpu, window := .empty, cache := .new config, linker := .new config
           retired := 0, resume := false }

/-- A processor of this instruction set. -/
def new (id : Nat) (config : CoreConfig) (cpu : Cpu) : Except ConfigError Processor :=
  withDecoder id config cpu decodeInstr

/-- Drops all cached traces and the fetch window. -/
def dropTraces (p : Processor) : Processor :=
  { p with cache := p.cache.flush, window := p.window.close }

/-- Goes past a breakpoint at the next instruction. -/
def skipBreakpoint (p : Processor) : Processor := { p with resume := true }

def allowLinks (p : Processor) (enabled : Bool) : Processor :=
  { p with linker := p.linker.allow enabled }

end Processor

end TraceCore
