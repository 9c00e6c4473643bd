/-
Memory behind page mappings. Without mappings a linear address is the physical one; from the first
mapping on, every linear page has to be mapped.
-/
import Std.Data.HashMap
import TraceCore.Cpu.Fault

namespace TraceCore

/-- Where a linear page lies, and what it may be used for. -/
structure Mapping where
  frame : UInt64
  writable : Bool := true
  user : Bool := true
  executable : Bool := true
deriving DecidableEq, Inhabited

namespace Mapping

/-- The mapping admits the access at this privilege level. -/
def allows (m : Mapping) (access : Access) (cpl : UInt8) : Bool :=
  (match access with
    | .read => true
    | .write => m.writable
    | .execute => m.executable) && (cpl != 3 || m.user)

/-- The physical address of a linear address in the mapped page. -/
def address (m : Mapping) (linear : UInt64) : UInt64 := (m.frame <<< 12) ||| (linear % 4096)

end Mapping

structure MappedRam where
  ram : Ram
  mappings : Option (Std.HashMap UInt64 Mapping) := none
  /-- How often the mappings were changed. -/
  remaps : Nat := 0

namespace MappedRam

def ofSize (size : UInt64) : Except MemoryError MappedRam :=
  (Ram.ofSize size).map ({ ram := · })

/-- Maps the page of `linear`. -/
def map (m : MappedRam) (linear : UInt64) (mapping : Mapping) : MappedRam :=
  { m with
    mappings := some ((m.mappings.getD ∅).insert (pageOf linear) mapping)
    remaps := m.remaps + 1 }

/-- Unmaps the page of `linear`, if it is mapped. -/
def unmap (m : MappedRam) (linear : UInt64) : MappedRam :=
  { m with
    mappings := m.mappings.map (·.erase (pageOf linear))
    remaps := m.remaps + 1 }

/-- The physical address of a linear one. -/
def translate (m : MappedRam) (linear : UInt64) (access : Access) (cpl : UInt8) :
    Except PageFault UInt64 :=
  match m.mappings with
  | none => .ok linear
  | some mappings =>
    match mappings[pageOf linear]? with
    | none => .error (.of linear false access cpl)
    | some mapping =>
      if mapping.allows access cpl then .ok (mapping.address linear)
      else .error (.of linear true access cpl)

/-- Stores at a physical address. -/
def write (m : MappedRam) (addr : UInt64) (src : List UInt8) : Except MemoryError Unit × MappedRam :=
  match m with
  | ⟨ram, mappings, remaps⟩ =>
    let (r, ram) := ram.write addr src
    (r, ⟨ram, mappings, remaps⟩)

/-- Changes the stamp table only. -/
def mapStamps (m : MappedRam) (f : StampTable → StampTable) : MappedRam :=
  { m with ram := { m.ram with stamps := f m.ram.stamps } }

end MappedRam

end TraceCore
