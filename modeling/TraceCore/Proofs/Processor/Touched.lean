/-
What a processor touches. A socket is given a ledger, which lists the bytes that were read through its bus and those that
were stored. Nothing else of a run changes. What was listed stays listed, and what a run did not list as stored it left
as it was.
-/
import TraceCore.Proofs.Processor.Kept
import TraceCore.Proofs.Processor.Plain
import TraceCore.Proofs.Processor.Shown

namespace TraceCore

variable {ω α : Type}

/-- A world, and the addresses of the bytes that were read and stored there. -/
structure Ledger (ω : Type) where
  world : ω
  reads : List Nat := []
  writes : List Nat := []

/-- A step of the world that nothing is listed of. -/
def Ledger.lift (f : ω → α × ω) (l : Ledger ω) : α × Ledger ω := ((f l.world).1, { l with world := (f l.world).2 })

/-- The addresses of `len` bytes from `addr` on. -/
def bytesAt (addr : UInt64) (len : Nat) : List Nat := List.range' addr.toNat len

/-- Loads and stores that succeed are listed. -/
def Bus.recording (bus : Bus ω) : Bus (Ledger ω) where
  translate linear access cpl := Ledger.lift (bus.translate linear access cpl)
  codePage addr l := bus.codePage addr l.world
  read addr len l :=
    let (r, w) := bus.read addr len l.world
    (r, { l with world := w, reads := if r.isOk then bytesAt addr len ++ l.reads else l.reads })
  write addr src l :=
    let (r, w) := bus.write addr src l.world
    (r, { l with world := w, writes := if r.isOk then bytesAt addr src.length ++ l.writes else l.writes })
  remaps l := bus.remaps l.world
  stamps l := bus.stamps l.world
  mapStamps f l := { l with world := bus.mapStamps f l.world }

/-- The same socket, with a ledger kept. -/
def Socket.recording (s : Socket ω) : Socket (Ledger ω) where
  bus := s.bus.recording
  guard :=
    { stopsBefore rip := Ledger.lift (s.guard.stopsBefore rip)
      watches addr len kind := Ledger.lift (s.guard.watches addr len kind) }
  delivery :=
    { events _ cpu l :=
        let (handling, cpu, w) := s.delivery.events s.line cpu l.world
        (handling, cpu, { l with world := w })
      fault fault rip cpu l :=
        let (answer, cpu, w) := s.delivery.fault fault rip cpu l.world
        (answer, cpu, { l with world := w }) }
  line :=
    { events l := s.line.events l.world
      set e l := { l with world := s.line.set e l.world } }

namespace Socket

variable (s : Socket ω)

/-- Keeping a ledger changes nothing else. -/
theorem shows_recording : s.recording.Shows Ledger.world s where
  translate _ _ _ _ := rfl
  codePage _ _ := rfl
  read _ _ _ := rfl
  write _ _ _ := rfl
  remaps _ := rfl
  stamps _ := rfl
  mapStamps _ _ := rfl
  stopsBefore _ _ := rfl
  watches _ _ _ _ := rfl
  deliver _ _ := rfl
  fault _ _ _ _ := rfl
  events _ := rfl
  set _ _ := rfl

/-- What is listed as read stays so. -/
theorem keeps_reads (x : Nat) : s.recording.Keeps fun l => x ∈ l.reads where
  translate _ _ _ _ h := h
  read addr len l h := by
    show x ∈ if (s.bus.read addr len l.world).1.isOk then bytesAt addr len ++ l.reads else l.reads
    split
    case isTrue => exact List.mem_append_right _ h
    case isFalse => exact h
  write _ _ _ h := h
  register _ _ _ h := h
  stopsBefore _ _ h := h
  watches _ _ _ _ h := h
  events _ _ h := h
  fault _ _ _ _ h := h
  set _ _ h := h

end Socket

namespace Board

variable {γ δ : Type} {w v : Board γ δ}

/-- A store leaves the bytes alone that it does not list. -/
theorem getElem?_write {addr : UInt64} {src : List UInt8} {x : Nat}
    (hx : (bus.write addr src w).1.isOk = true → x ∉ bytesAt addr src.length) :
    (bus.write addr src w).2.mem.ram.bytes[x]? = w.mem.ram.bytes[x]? := by
  show (w.mem.write addr src).2.ram.bytes[x]? = _
  have hx : (w.mem.write addr src).1.isOk = true → x ∉ bytesAt addr src.length := hx
  unfold MappedRam.write Ram.write at hx ⊢
  dsimp only at hx ⊢
  split at hx
  case isTrue hfits =>
    have hout := hx rfl
    rw [bytesAt, List.mem_range'_1] at hout
    rw [if_pos hfits]
    show (overwrite _ _ _)[x]? = _
    rw [getElem?_overwrite, if_neg (by omega)]
  case isFalse hfits => rw [if_neg hfits]

/-- What is not listed as stored is as it was. -/
theorem keeps_bytes (i : Nat) (w : Board γ δ) : (unwatched .toCaller i).recording.Keeps fun l : Ledger (Board γ δ) =>
    ∀ x, x ∉ l.writes → l.world.mem.ram.bytes[x]? = w.mem.ram.bytes[x]? where
  translate _ _ _ _ h := h
  read _ _ _ h := h
  write addr src l h x hx := by
    have hx : x ∉ if (bus.write addr src l.world).1.isOk then bytesAt addr src.length ++ l.writes else l.writes := hx
    show (bus.write addr src l.world).2.mem.ram.bytes[x]? = _
    split at hx
    case isTrue =>
      rw [List.mem_append, not_or] at hx
      rw [getElem?_write fun _ => hx.1, h x hx.2]
    case isFalse hfailed => rw [getElem?_write fun hok => absurd hok hfailed, h x hx]
  register _ _ _ h := h
  stopsBefore _ _ h := h
  watches _ _ _ _ h := h
  events _ _ h := h
  fault _ _ _ _ h := h
  set _ _ h := h

end Board

namespace Processor

variable {s : Socket ω}

/-- What a run touches. -/
def touched (s : Socket ω) (budget : Nat) (p : Processor) (w : ω) : Ledger ω :=
  (p.run s.recording budget { world := w }).2.2

theorem world_touched (s : Socket ω) (budget : Nat) (p : Processor) (w : ω) :
    (p.touched s budget w).world = (p.run s budget w).2.2 :=
  (congrArg (fun out => out.2.2) (run_shown s.shows_recording budget p { world := w })).symm

/-- A run leaves alone what it does not list as stored. -/
theorem bytes_run {γ δ : Type} {i x : Nat} {budget : Nat} {p : Processor} {w : Board γ δ}
    (hx : x ∉ (p.touched (Board.unwatched .toCaller i) budget w).writes) :
    (p.run (Board.unwatched .toCaller i) budget w).2.2.mem.ram.bytes[x]? = w.mem.ram.bytes[x]? := by
  rw [← world_touched]
  exact (Board.keeps_bytes i w).run budget p (fun _ _ => rfl) x hx

end Processor

end TraceCore
