/-
Loads and stores at linear addresses. A range that crosses pages goes piece by piece, and each
piece is translated on its own.
-/
import TraceCore.Exec.Basic

namespace TraceCore.Exec

variable {ω : Type}

def translate (bus : Bus ω) (linear : UInt64) (access : Access) : Exec ω UInt64 := do
  let cpl := (← cpu).cpl
  attempt (fun pf => .semantic (.pageFault pf)) (bus.translate linear access cpl)

theorem sub_bytesInPage_lt {linear : UInt64} {len : Nat} (h : len ≠ 0) :
    len - bytesInPage linear len < len := by
  have := bytesInPage_pos linear (Nat.pos_of_ne_zero h)
  omega

def load (bus : Bus ω) (linear : UInt64) (len : Nat) : Exec ω (List UInt8) :=
  if _h : len = 0 then pure []
  else do
    let n := bytesInPage linear len
    let addr ← translate bus linear .read
    let piece ← attempt .bus (bus.read addr n)
    return piece ++ (← load bus (linear + UInt64.ofNat n) (len - n))
termination_by len
decreasing_by exact sub_bytesInPage_lt ‹_›

/-- Every page of the range can be written. -/
def probe (bus : Bus ω) (linear : UInt64) (len : Nat) : Exec ω Unit :=
  if _h : len = 0 then pure ()
  else do
    let n := bytesInPage linear len
    let _ ← translate bus linear .write
    probe bus (linear + UInt64.ofNat n) (len - n)
termination_by len
decreasing_by exact sub_bytesInPage_lt ‹_›

def storePieces (bus : Bus ω) (linear : UInt64) (src : List UInt8) : Exec ω Unit :=
  if _h : src.length = 0 then pure ()
  else do
    let n := bytesInPage linear src.length
    let addr ← translate bus linear .write
    attempt .bus (bus.write addr (src.take n))
    storePieces bus (linear + UInt64.ofNat n) (src.drop n)
termination_by src.length
decreasing_by rw [List.length_drop]; exact sub_bytesInPage_lt ‹_›

/-- Stores a byte string, after asking the guard. When it crosses pages, all of them are translated
before the first is written, so that a page fault on a later page leaves the earlier ones alone. -/
def store (bus : Bus ω) (guard : Guard ω) (linear : UInt64) (src : List UInt8) : Exec ω Unit := do
  if ← world (guard.watches linear src.length .write) then
    modify fun r => { r with watchHit := true }
  if bytesInPage linear src.length = src.length then
    let addr ← translate bus linear .write
    attempt .bus (bus.write addr src)
  else
    probe bus linear src.length
    storePieces bus linear src

/-- Loads an operand. -/
def loadWord (bus : Bus ω) (linear : UInt64) (w : Width) : Exec ω UInt64 :=
  return Word.ofBytes (← load bus linear w.bytes)

/-- Stores an operand. -/
def storeWord (bus : Bus ω) (guard : Guard ω) (linear : UInt64) (w : Width) (value : UInt64) :
    Exec ω Unit :=
  store bus guard linear (Word.toBytes w.bytes value)

end TraceCore.Exec
