/-
A board: mapped memory, the data of a guard and of a delivery, and one event word per processor.
-/
import TraceCore.Memory.Mapped
import TraceCore.Socket.Basic

namespace TraceCore

structure Board (γ δ : Type) where
  mem : MappedRam
  guard : γ
  delivery : δ
  lines : Array Events

namespace Board

variable {γ δ : Type}

/-- The board's memory as a bus. -/
def bus : Bus (Board γ δ) where
  translate linear access cpl b := (b.mem.translate linear access cpl, b)
  codePage addr b := b.mem.ram.page? addr
  read addr len b := (b.mem.ram.read addr len, b)
  write addr src b :=
    match b with
    | ⟨mem, guard, delivery, lines⟩ =>
      let (r, mem) := mem.write addr src
      (r, ⟨mem, guard, delivery, lines⟩)
  remaps b := b.mem.remaps
  stamps b := b.mem.ram.stamps
  mapStamps f b := { b with mem := b.mem.mapStamps f }

/-- The event word of processor `i`. Setting one that the board does not have changes nothing. -/
def line (i : Nat) : EventLine (Board γ δ) where
  events b := b.lines.getD i {}
  set e b := { b with lines := b.lines.setIfInBounds i e }

/-- Every processor reaches the whole board, through its own event word. -/
def wiring (guard : Guard (Board γ δ)) (delivery : Delivery (Board γ δ)) : Wiring (Board γ δ) :=
  { bus, guard, delivery, line }

/-- Raises events on processor `i`, if there is one. -/
def raise (i : Nat) (e : Events) (b : Board γ δ) : Board γ δ := (line i).raise e b

end Board

end TraceCore
