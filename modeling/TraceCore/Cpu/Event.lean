/-
Pending events: the word in which a processor is told to interrupt what it does. Four bits have a
meaning. The others can be raised too: they keep a processor from staying in a trace, and nothing
but `clear` or `take` removes them.
-/
namespace TraceCore

/-- A set of events. -/
structure Events where
  bits : UInt32 := 0
deriving DecidableEq, Inhabited

namespace Events

/-- External interrupt that can be masked. -/
def interrupt : Events := ⟨0x1⟩
def nmi : Events := ⟨0x2⟩
/-- A debugger wants the processor to stop at the next instruction. -/
def debugStop : Events := ⟨0x4⟩
/-- The processor has to leave the trace it runs, with nothing to deliver. -/
def stopTrace : Events := ⟨0x80000000⟩

def union (a b : Events) : Events := ⟨a.bits ||| b.bits⟩
def inter (a b : Events) : Events := ⟨a.bits &&& b.bits⟩
def diff (a b : Events) : Events := ⟨a.bits &&& ~~~b.bits⟩

instance : Union Events := ⟨union⟩
instance : Inter Events := ⟨inter⟩
instance : SDiff Events := ⟨diff⟩

/-- Any bit is set, with a meaning or without. -/
def any (e : Events) : Bool := e.bits != 0

/-- The events that have a meaning. -/
def known : Events := interrupt ∪ nmi ∪ debugStop ∪ stopTrace

/-- The events of the set that have a meaning. -/
def pending (e : Events) : Events := e ∩ known

/-- Removes the events `which`, and tells which of those with a meaning were there. -/
def take (e which : Events) : Events × Events := (e.pending ∩ which, e \ which)

end Events

end TraceCore
