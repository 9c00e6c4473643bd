/-
Deadlines: events that are raised on a processor at a tick. The queue is kept in the order in which
they come due; those of the same tick come due in the order in which they were pushed.
-/
import TraceCore.Cpu.Event

namespace TraceCore

structure Deadline where
  tick : Nat
  cpu : Nat
  /-- What is raised; only events with a meaning are. -/
  events : Events
deriving DecidableEq

/-- The first deadline comes due no later than the second. -/
def Deadline.NoLater (d e : Deadline) : Prop := d.tick ≤ e.tick

/-- Puts a deadline behind all that come due no later. -/
def Deadline.insert (d : Deadline) : List Deadline → List Deadline
  | [] => [d]
  | e :: rest => if e.tick ≤ d.tick then e :: d.insert rest else d :: e :: rest

theorem Deadline.insert_perm (d : Deadline) (ds : List Deadline) :
    (d.insert ds).Perm (d :: ds) := by
  induction ds with
  | nil => rfl
  | cons e rest ih =>
    unfold Deadline.insert
    split
    · exact (ih.cons e).trans (.swap d e rest)
    · rfl

theorem Deadline.pairwise_insert (d : Deadline) {ds : List Deadline} (h : ds.Pairwise NoLater) :
    (d.insert ds).Pairwise NoLater := by
  induction ds with
  | nil => simp [Deadline.insert]
  | cons e rest ih =>
    obtain ⟨he, hrest⟩ := List.pairwise_cons.1 h
    unfold Deadline.insert
    split
    case isTrue hed =>
      refine List.pairwise_cons.2 ⟨fun x hx => ?_, ih hrest⟩
      rcases List.mem_cons.1 ((d.insert_perm rest).mem_iff.1 hx) with rfl | hx
      · exact hed
      · exact he x hx
    case isFalse hed =>
      refine List.pairwise_cons.2 ⟨fun x hx => ?_, h⟩
      rcases List.mem_cons.1 hx with rfl | hx
      · exact Nat.le_of_not_le hed
      · exact Nat.le_trans (Nat.le_of_not_le hed) (he x hx)

structure TimerQueue where
  deadlines : List Deadline := []
  ordered : deadlines.Pairwise Deadline.NoLater := by exact .nil

namespace TimerQueue

def push (q : TimerQueue) (tick cpu : Nat) (events : Events) : TimerQueue :=
  let d : Deadline := ⟨tick, cpu, events.pending⟩
  ⟨d.insert q.deadlines, d.pairwise_insert q.ordered⟩

def size (q : TimerQueue) : Nat := q.deadlines.length

/-- Tick of the earliest deadline. -/
def earliest (q : TimerQueue) : Option Nat := q.deadlines.head?.map (·.tick)

/-- Removes the earliest deadline, if it has come due. -/
def pop (q : TimerQueue) (now : Nat) : Option (Deadline × TimerQueue) :=
  match q with
  | ⟨[], _⟩ => none
  | ⟨d :: rest, h⟩ => if d.tick ≤ now then some (d, ⟨rest, h.of_cons⟩) else none

/-- All deadlines that have come due, and those that have not. -/
def due (q : TimerQueue) (now : Nat) : List Deadline × TimerQueue :=
  (q.deadlines.takeWhile (·.tick ≤ now),
    ⟨q.deadlines.dropWhile (·.tick ≤ now), q.ordered.sublist (List.dropWhile_sublist _)⟩)

end TimerQueue

end TraceCore
