/-
Loads and stores page by page. What relates parts of an instruction in one world to the same parts in another, and goes
through where one part follows another, relates whole loads and stores if it relates what they do within a page. With one
world it is a property of loads and stores.
-/
import TraceCore.Exec.Access

namespace TraceCore.Exec

variable {ω ω' : Type}

/-! ## Within a page -/

/-- Loads what lies in the first page of a range. -/
def loadPiece (bus : Bus ω) (linear : UInt64) (len : Nat) : Exec ω (List UInt8) := do
  let addr ← translate bus linear .read
  attempt .bus (bus.read addr (bytesInPage linear len))

/-- Stores what lies in one page. -/
def storePiece (bus : Bus ω) (linear : UInt64) (src : List UInt8) : Exec ω Unit := do
  let addr ← translate bus linear .write
  attempt .bus (bus.write addr src)

/-- Asks the guard about a store, and sets the flag if it is watched. -/
def watch (guard : Guard ω) (linear : UInt64) (len : Nat) : Exec ω Unit := do
  if ← world (guard.watches linear len .write) then
    modify fun r => { r with watchHit := true }

theorem load_of_pos (bus : Bus ω) (linear : UInt64) {len : Nat} (h : len ≠ 0) :
    load bus linear len = (do
      let piece ← loadPiece bus linear len
      let rest ← load bus (linear + UInt64.ofNat (bytesInPage linear len)) (len - bytesInPage linear len)
      return piece ++ rest) := by
  rw [load, dif_neg h]
  exact (bind_assoc ..).symm

theorem storePieces_of_pos (bus : Bus ω) (linear : UInt64) {src : List UInt8} (h : src.length ≠ 0) :
    storePieces bus linear src = (do
      storePiece bus linear (src.take (bytesInPage linear src.length))
      storePieces bus (linear + UInt64.ofNat (bytesInPage linear src.length))
        (src.drop (bytesInPage linear src.length))) := by
  rw [storePieces, dif_neg h]
  exact (bind_assoc ..).symm

theorem store_watch (bus : Bus ω) (guard : Guard ω) (linear : UInt64) (src : List UInt8) :
    store bus guard linear src = (do
      watch guard linear src.length
      if bytesInPage linear src.length = src.length then storePiece bus linear src
      else do
        probe bus linear src.length
        storePieces bus linear src) := by
  unfold store watch
  rw [bind_assoc]
  refine congrArg _ (funext fun hit => ?_)
  cases hit with
  | false => exact (pure_bind ..).symm
  | true => rfl

/-! ## Page by page -/

/-- A relation that goes through where parts follow each other. -/
structure Composes (P : {α : Type} → Exec ω α → Exec ω' α → Prop) : Prop where
  pure : ∀ {α : Type} (a : α), P (pure a) (pure a)
  bind : ∀ {α β : Type} {m : Exec ω α} {m' : Exec ω' α} {f : α → Exec ω β} {f' : α → Exec ω' β}, P m m' →
    (∀ a, P (f a) (f' a)) → P (m >>= f) (m' >>= f')

variable {P : {α : Type} → Exec ω α → Exec ω' α → Prop}

theorem Composes.ite (_ : Composes P) {α : Type} {p : Prop} [Decidable p] {m n : Exec ω α} {m' n' : Exec ω' α}
    (hm : P m m') (hn : P n n') : P (if p then m else n) (if p then m' else n') := by
  split
  · exact hm
  · exact hn

/-- It relates what loads do within a page. -/
structure Loadwise (bus : Bus ω) (bus' : Bus ω') (P : {α : Type} → Exec ω α → Exec ω' α → Prop) : Prop
    extends Composes P where
  piece : ∀ linear len, P (loadPiece bus linear len) (loadPiece bus' linear len)

theorem Loadwise.load {bus : Bus ω} {bus' : Bus ω'} (h : Loadwise bus bus' P) (linear : UInt64) (len : Nat) :
    P (load bus linear len) (load bus' linear len) := by
  induction len using Nat.strongRecOn generalizing linear with
  | ind len ih =>
    by_cases hlen : len = 0
    case pos =>
      subst hlen
      rw [Exec.load, Exec.load]
      exact h.pure _
    case neg =>
      rw [load_of_pos bus linear hlen, load_of_pos bus' linear hlen]
      exact h.bind (h.piece linear len) fun piece => h.bind (ih _ (sub_bytesInPage_lt hlen) _) fun rest => h.pure _

/-- It relates what stores ask first, and what they do within a page. -/
structure Storewise (s : Socket ω) (s' : Socket ω') (P : {α : Type} → Exec ω α → Exec ω' α → Prop) : Prop
    extends Composes P where
  watch : ∀ linear len, P (watch s.guard linear len) (watch s'.guard linear len)
  reach : ∀ linear, P (translate s.bus linear .write) (translate s'.bus linear .write)
  piece : ∀ linear src, bytesInPage linear src.length = src.length →
    P (storePiece s.bus linear src) (storePiece s'.bus linear src)

namespace Storewise

variable {s : Socket ω} {s' : Socket ω'}

theorem probe (h : Storewise s s' P) (linear : UInt64) (len : Nat) :
    P (probe s.bus linear len) (probe s'.bus linear len) := by
  induction len using Nat.strongRecOn generalizing linear with
  | ind len ih =>
    unfold Exec.probe
    split
    case isTrue => exact h.pure _
    case isFalse hlen => exact h.bind (h.reach linear) fun _ => ih _ (sub_bytesInPage_lt hlen) _

theorem storePieces (h : Storewise s s' P) (linear : UInt64) (src : List UInt8) :
    P (storePieces s.bus linear src) (storePieces s'.bus linear src) := by
  induction hn : src.length using Nat.strongRecOn generalizing linear src with
  | ind n ih =>
    by_cases hlen : src.length = 0
    case pos =>
      rw [Exec.storePieces, Exec.storePieces, dif_pos hlen, dif_pos hlen]
      exact h.pure _
    case neg =>
      rw [storePieces_of_pos s.bus linear hlen, storePieces_of_pos s'.bus linear hlen]
      refine h.bind (h.piece linear _ ?_) fun _ => ih _ ?_ _ _ rfl
      · rw [List.length_take]
        unfold bytesInPage
        omega
      · rw [List.length_drop, ← hn]
        exact sub_bytesInPage_lt hlen

theorem store (h : Storewise s s' P) (linear : UInt64) (src : List UInt8) :
    P (store s.bus s.guard linear src) (store s'.bus s'.guard linear src) := by
  rw [store_watch, store_watch]
  refine h.bind (h.watch linear _) fun _ => ?_
  split
  case isTrue hfits => exact h.piece linear src hfits
  case isFalse => exact h.bind (h.probe linear _) fun _ => h.storePieces linear src

end Storewise

end TraceCore.Exec
