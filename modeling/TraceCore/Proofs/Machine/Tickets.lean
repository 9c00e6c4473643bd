/-
The order in which deadlines leave the queue. A book is kept beside the queue, in which each deadline has the number of
its scheduling and leaves by the rule alone: of those that have come due the one with the least tick goes first, and of
equal ticks the one with the least number. Whatever is called, in whatever order and at whatever time, the queue holds
and gives out what the book does.
-/
import Mathlib.Data.List.Basic
import Mathlib.Data.List.Induction
import Mathlib.Data.List.Perm.Basic
import TraceCore.Machine.Timer

namespace TraceCore

/-! ## The book -/

/-- A deadline under the number of its scheduling. -/
structure Ticket where
  number : Nat
  deadline : Deadline
deriving DecidableEq

namespace Ticket

def tick (t : Ticket) : Nat := t.deadline.tick

/-- Goes first: by tick, and of equal ticks by the order of scheduling. -/
def Before (t u : Ticket) : Prop := t.tick < u.tick ∨ t.tick = u.tick ∧ t.number < u.number

instance (t u : Ticket) : Decidable (t.Before u) := inferInstanceAs (Decidable (_ ∨ _))

theorem Before.tick_le {t u : Ticket} (h : t.Before u) : t.tick ≤ u.tick := by
  unfold Before at h
  omega

theorem Before.asymm {t u : Ticket} (h : t.Before u) : ¬u.Before t := by
  unfold Before at *
  omega

end Ticket

/-- What is called on a queue. -/
inductive TimerQueue.Call where
  | schedule (tick cpu : Nat) (events : Events)
  | pop (now : Nat)
deriving DecidableEq

/-- The deadlines that are queued, and the number that the next one is scheduled under. -/
structure Book where
  next : Nat := 0
  queued : List Ticket := []

namespace Book

/-- Of the queued deadlines that have come due, the one that goes before all others. -/
def due? (b : Book) (now : Nat) : Option Ticket :=
  b.queued.find? fun t => t.tick ≤ now ∧ ∀ u ∈ b.queued, u ≠ t → t.Before u

def call (b : Book) : TimerQueue.Call → Book
  | .schedule tick cpu events => ⟨b.next + 1, b.queued ++ [⟨b.next, ⟨tick, cpu, events.pending⟩⟩]⟩
  | .pop now =>
    match b.due? now with
    | none => b
    | some t => { b with queued := b.queued.erase t }

/-- The book of a queue that was empty before the calls. -/
def after (calls : List TimerQueue.Call) : Book := calls.foldl call {}

theorem after_concat (calls : List TimerQueue.Call) (c : TimerQueue.Call) :
    after (calls ++ [c]) = (after calls).call c :=
  List.foldl_concat ..

variable {b : Book} {t : Ticket} {now : Nat}

/-- No two of the queued deadlines go before all others. -/
theorem due?_eq_some (ht : t ∈ b.queued) (hdue : t.tick ≤ now) (hfirst : ∀ u ∈ b.queued, u ≠ t → t.Before u) :
    b.due? now = some t := by
  unfold due?
  cases hfound : b.queued.find? fun t => decide (t.tick ≤ now ∧ ∀ u ∈ b.queued, u ≠ t → t.Before u) with
  | none =>
    have := List.find?_eq_none.1 hfound t ht
    simp only [decide_eq_true_eq] at this
    exact absurd ⟨hdue, hfirst⟩ this
  | some u =>
    have hu := List.mem_of_find?_eq_some hfound
    have hfirst' := List.find?_some hfound
    simp only [decide_eq_true_eq] at hfirst'
    congr 1
    by_contra hne
    exact (hfirst u hu hne).asymm (hfirst'.2 t ht (Ne.symm hne))

theorem due?_eq_none (h : ∀ t ∈ b.queued, now < t.tick) : b.due? now = none := by
  unfold due?
  rw [List.find?_eq_none]
  intro t ht
  have := h t ht
  simp only [decide_eq_true_eq]
  omega

end Book

/-! ## The queue and its book -/

/-- A deadline that is scheduled last goes behind those of its own tick. -/
theorem Deadline.exists_tickets (d : Deadline) {n : Nat} {ts : List Ticket} (hn : ∀ t ∈ ts, t.number < n)
    (hordered : ts.Pairwise Ticket.Before) : ∃ ts' : List Ticket, ts'.Perm (⟨n, d⟩ :: ts) ∧
      ts'.Pairwise Ticket.Before ∧ ts'.map (·.deadline) = d.insert (ts.map (·.deadline)) := by
  induction ts with
  | nil => exact ⟨[⟨n, d⟩], .refl _, List.pairwise_singleton .., rfl⟩
  | cons t rest ih =>
    obtain ⟨ht, hrest⟩ := List.pairwise_cons.1 hordered
    by_cases htick : t.tick ≤ d.tick
    · obtain ⟨ts', hperm, hordered', hmap⟩ := ih (fun u hu => hn u (List.mem_cons_of_mem _ hu)) hrest
      refine ⟨t :: ts', (hperm.cons t).trans (.swap ..), List.pairwise_cons.2 ⟨fun u hu => ?_, hordered'⟩, ?_⟩
      · rcases List.mem_cons.1 (hperm.mem_iff.1 hu) with rfl | hu
        · have hnumber : t.number < n := hn t List.mem_cons_self
          rcases Nat.lt_or_eq_of_le htick with hlt | heq
          · exact Or.inl hlt
          · exact Or.inr ⟨heq, hnumber⟩
        · exact ht u hu
      · rw [List.map_cons, List.map_cons, hmap]
        exact (if_pos htick).symm
    · refine ⟨⟨n, d⟩ :: t :: rest, .refl _, List.pairwise_cons.2 ⟨fun u hu => Or.inl ?_, hordered⟩, ?_⟩
      · show d.tick < u.tick
        rcases List.mem_cons.1 hu with rfl | hu
        · omega
        · have := (ht u hu).tick_le
          omega
      · exact (if_neg htick).symm

namespace TimerQueue

/-- The deadline that a call takes out, and the queue behind it. -/
def call (q : TimerQueue) : Call → Option Deadline × TimerQueue
  | .schedule tick cpu events => (none, q.push tick cpu events)
  | .pop now =>
    match q.pop now with
    | none => (none, q)
    | some (d, q) => (some d, q)

/-- What the calls took out of a queue that was empty before, and what they leave. -/
def after (calls : List Call) : List Deadline × TimerQueue :=
  calls.foldl (fun (popped, q) c => (popped ++ (q.call c).1.toList, (q.call c).2)) ([], {})

/-- In the order of the queue, the tickets of the book. -/
structure Kept (q : TimerQueue) (b : Book) (ts : List Ticket) : Prop where
  perm : ts.Perm b.queued
  ordered : ts.Pairwise Ticket.Before
  deadlines : ts.map (·.deadline) = q.deadlines
  numbers : ∀ t ∈ ts, t.number < b.next

variable {q q' : TimerQueue} {b : Book} {ts : List Ticket} {t : Ticket} {now : Nat} {d : Deadline}

/-- The first in the queue goes before all others in the book. -/
theorem Kept.first (h : Kept q b (t :: ts)) : t ∈ b.queued ∧ ∀ u ∈ b.queued, u ≠ t → t.Before u := by
  constructor
  · exact h.perm.mem_iff.1 List.mem_cons_self
  · intro u hu hne
    rcases List.mem_cons.1 (h.perm.mem_iff.2 hu) with rfl | hu
    · exact absurd rfl hne
    · exact (List.pairwise_cons.1 h.ordered).1 u hu

theorem Kept.push (h : Kept q b ts) (tick cpu : Nat) (events : Events) :
    ∃ ts', Kept (q.push tick cpu events) (b.call (.schedule tick cpu events)) ts' := by
  obtain ⟨ts', hperm, hordered, hmap⟩ :=
    Deadline.exists_tickets ⟨tick, cpu, events.pending⟩ h.numbers h.ordered
  refine ⟨ts', ?_, hordered, ?_, fun t ht => ?_⟩
  · exact hperm.trans ((h.perm.cons _).trans (List.perm_append_singleton _ _).symm)
  · rw [hmap, h.deadlines]
    rfl
  · show t.number < b.next + 1
    rcases List.mem_cons.1 (hperm.mem_iff.1 ht) with rfl | ht
    · exact Nat.lt_succ_self _
    · exact Nat.lt_succ_of_lt (h.numbers t ht)

/-- Nothing has come due, or the first in the queue leaves queue and book alike. -/
theorem Kept.pop_cases (h : Kept q b ts) (now : Nat) :
    (q.pop now = none ∧ b.due? now = none ∧ ∀ t ∈ b.queued, now < t.tick) ∨
      ∃ t rest q', ts = t :: rest ∧ q.pop now = some (t.deadline, q') ∧ b.due? now = some t ∧ t.tick ≤ now ∧
        Kept q' { b with queued := b.queued.erase t } rest := by
  obtain ⟨ds, hds⟩ := q
  cases ts with
  | nil =>
    have hempty : b.queued = [] := h.perm.nil_eq.symm
    have hnone : ds = [] := h.deadlines.symm
    subst hnone
    left
    refine ⟨rfl, Book.due?_eq_none ?_, ?_⟩ <;> simp [hempty]
  | cons t rest =>
    have hdeadlines : ds = t.deadline :: rest.map (·.deadline) := h.deadlines.symm
    subst hdeadlines
    obtain ⟨hmem, hfirst⟩ := h.first
    by_cases hdue : t.tick ≤ now
    · right
      refine ⟨t, rest, _, rfl, if_pos hdue, Book.due?_eq_some hmem hdue hfirst, hdue, ?_⟩
      exact ⟨(List.cons_perm_iff_perm_erase.1 h.perm).2, h.ordered.of_cons, rfl,
        fun u hu => h.numbers u (List.mem_cons_of_mem _ hu)⟩
    · left
      have hlate : ∀ u ∈ b.queued, now < u.tick := by
        intro u hu
        by_cases hne : u = t
        · subst hne
          omega
        · have := (hfirst u hu hne).tick_le
          omega
      exact ⟨if_neg hdue, Book.due?_eq_none hlate, hlate⟩

theorem Kept.call (h : Kept q b ts) (c : Call) : ∃ ts', Kept (q.call c).2 (b.call c) ts' := by
  cases c with
  | schedule tick cpu events => exact h.push tick cpu events
  | pop now =>
    unfold TimerQueue.call Book.call
    dsimp only
    rcases h.pop_cases now with ⟨hq, hb, -⟩ | ⟨t, rest, q', -, hq, hb, -, hkept⟩
    · rw [hq, hb]
      exact ⟨ts, h⟩
    · rw [hq, hb]
      exact ⟨rest, hkept⟩

theorem after_concat (calls : List Call) (c : Call) :
    after (calls ++ [c]) = ((after calls).1 ++ ((after calls).2.call c).1.toList, ((after calls).2.call c).2) := by
  unfold after
  rw [List.foldl_append]
  rfl

end TimerQueue

end TraceCore
