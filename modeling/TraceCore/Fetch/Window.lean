/-
Fetch windows: the part of one page that instructions can be fetched from without translating
again. A window keeps `bias`, the distance from an instruction pointer to its offset in the page,
so that one addition and one comparison tell whether an instruction pointer lies in the window.
-/
import TraceCore.Socket.Basic

namespace TraceCore

/-- Bytes in the longest instruction. -/
abbrev maxInstrLen : Nat := 15

structure FetchWindow where
  /-- Physical address of the page. -/
  base : UInt64
  /-- Offset in the page less instruction pointer. -/
  bias : UInt64
  /-- Offsets below this one belong to the window. -/
  size : Nat
  /-- Offset of the instruction pointer that the window was made for. -/
  entry : Nat
  /-- Count of mapping changes when the window was made. -/
  remaps : Nat
  /-- Some byte of the window is watched for execution. -/
  watched : Bool
deriving DecidableEq, Inhabited

namespace FetchWindow

/-- A window that no instruction pointer lies in. -/
def empty : FetchWindow := ⟨0, 0, 0, 0, 0, false⟩

def close (w : FetchWindow) : FetchWindow := { w with size := 0 }

/-- Offset of `rip` in the page, if it lies in the window. -/
def offset? (w : FetchWindow) (rip : UInt64) : Option Nat :=
  let offset := (rip + w.bias).toNat
  if offset < w.size then some offset else none

/-- Physical address of an offset. -/
def address (w : FetchWindow) (offset : Nat) : UInt64 := w.base + UInt64.ofNat offset

/-- Bytes from `offset` to the end of the window. -/
def remaining (w : FetchWindow) (offset : Nat) : Nat := w.size - offset

end FetchWindow

/-- Bit 47 is repeated in all bits above it. -/
def isCanonical (addr : UInt64) : Bool := addr >>> 47 == 0 || addr >>> 47 == 0x1FFFF

/-- Linear address, bias and size of the window for `rip`. Outside 64-bit code the window ends with
the code segment, if that ends in the page. -/
def windowAt (cpu : Cpu) (rip : UInt64) : Except FetchFault (UInt64 × UInt64 × Nat) :=
  if cpu.codeSize = .b64 then
    if isCanonical rip then .ok (rip, rip % 4096 - rip, pageSize) else .error (.nonCanonical rip)
  else
    let eip := rip &&& 0xFFFFFFFF
    if cpu.cs.limit.toUInt64 < eip then .error (.segmentLimit eip cpu.cs.limit)
    else
      let linear := (cpu.cs.base + eip) &&& 0xFFFFFFFF
      let bias := linear % 4096 - eip
      -- offset in this page of the last byte of the segment
      let last := (cpu.cs.limit.toUInt64 + bias).toNat
      .ok (linear, bias, if last < pageSize then last + 1 else pageSize)

/-- The fetch window for `rip` in the processor's present mode. -/
def openWindow {ω : Type} (bus : Bus ω) (guard : Guard ω) (cpu : Cpu) (rip : UInt64) (w : ω) :
    Except FetchFault FetchWindow × ω :=
  match windowAt cpu rip with
  | .error e => (.error e, w)
  | .ok (linear, bias, size) =>
    match bus.translate linear .execute cpu.cpl w with
    | (.error pf, w) => (.error (.page pf), w)
    | (.ok addr, w) =>
      let base := pageBase addr
      if (bus.codePage base w).isNone then (.error (.unbacked addr), w)
      else
        let (watched, w) := guard.watches (pageBase linear) size .execute w
        (.ok { base, bias, size, entry := pageOffset linear
               remaps := bus.remaps w, watched }, w)

end TraceCore
