/-
Whether repeated instructions leave their own bytes alone can be computed along a run. Of all limits on an
instruction, only those make a difference that its iterations can reach. Where no instruction is repeated, no
mapping has to be looked up to see that.
-/
import TraceCore.Proofs.Processor.Finish

namespace TraceCore

/-- The board without mappings. -/
def Board.unmapped {γ δ : Type} (w : Board γ δ) : Board γ δ := { w with mem.mappings := none }

namespace Processor

variable {γ δ : Type} {d : Delivery (Board γ δ)} {i : Nat} {p p' : Processor} {w w' : Board γ δ} {instr : Instr}
    {limit : Nat}

end Processor

end TraceCore
