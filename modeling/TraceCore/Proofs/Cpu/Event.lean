/-
Sets of events: when one lies within another, and what is left of it when some are taken away.
-/
import TraceCore.Cpu.Event

namespace TraceCore.Events

variable {e f d : Events}

theorem any_eq_false : e.any = false ↔ e.bits = 0 := by
  unfold any
  exact bne_eq_false_iff_eq

theorem ext_bits (h : e.bits = f.bits) : e = f := by
  cases e
  cases f
  cases h
  rfl

/-- All of the events are among others. -/
def Within (e f : Events) : Prop := e ∩ f = e

instance : Decidable (e.Within f) := inferInstanceAs (Decidable (e ∩ f = e))

theorem within_iff : e.Within f ↔ e.bits &&& f.bits = e.bits :=
  ⟨congrArg bits, ext_bits⟩

theorem Within.bits (h : e.Within f) : e.bits &&& f.bits = e.bits := within_iff.1 h

/-- Where there are such events, there are some. -/
theorem Within.any (h : e.Within f) (he : e.any = true) : f.any = true := by
  rw [← Bool.not_eq_false] at he ⊢
  refine fun hnone => he (any_eq_false.2 ?_)
  rw [← h.bits, any_eq_false.1 hnone, UInt32.and_zero]

/-- What meets some of them meets all the more the others. -/
theorem Within.any_inter (h : e.Within f) (he : (e ∩ d).any = true) : (f ∩ d).any = true := by
  refine Within.any (e := e ∩ d) (within_iff.2 ?_) he
  calc e.bits &&& d.bits &&& (f.bits &&& d.bits)
    _ = e.bits &&& f.bits &&& (d.bits &&& d.bits) := by ac_rfl
    _ = e.bits &&& d.bits := by rw [h.bits, UInt32.and_self]

/-- Taking away what they do not meet leaves them. -/
theorem Within.diff (h : e.Within f) (hd : (e ∩ d).any = false) : e.Within (f \ d) := by
  have hnone : e.bits &&& d.bits = 0 := any_eq_false.1 hd
  have hsplit : e.bits &&& (d.bits ||| ~~~d.bits) = e.bits &&& d.bits ||| e.bits &&& ~~~d.bits :=
    UInt32.toBitVec_inj.1 BitVec.and_or_distrib_left
  rw [UInt32.or_not_self, UInt32.and_neg_one, hnone, UInt32.zero_or] at hsplit
  refine within_iff.2 ?_
  calc e.bits &&& (f.bits &&& ~~~d.bits)
    _ = e.bits &&& f.bits &&& ~~~d.bits := (UInt32.and_assoc ..).symm
    _ = e.bits := by rw [h.bits, ← hsplit]

/-- Where some meet others, there are some. -/
theorem any_of_inter (h : (e ∩ d).any = true) : e.any = true := by
  refine Within.any (e := e ∩ d) (within_iff.2 ?_) h
  calc e.bits &&& d.bits &&& e.bits
    _ = e.bits &&& e.bits &&& d.bits := by ac_rfl
    _ = e.bits &&& d.bits := by rw [UInt32.and_self]

/-- Taking away others does not matter. -/
theorem diff_inter (e : Events) (hd : (d ∩ f).any = false) : (e \ f) ∩ d = e ∩ d := by
  have hleft : d.bits &&& (d.bits &&& ~~~f.bits) = d.bits :=
    (Within.diff (e := d) (within_iff.2 UInt32.and_self) hd).bits
  rw [← UInt32.and_assoc, UInt32.and_self] at hleft
  refine ext_bits ?_
  calc e.bits &&& ~~~f.bits &&& d.bits
    _ = e.bits &&& (d.bits &&& ~~~f.bits) := by ac_rfl
    _ = e.bits &&& d.bits := by rw [hleft]

/-- Events with a meaning are pending. -/
theorem pending_inter (e : Events) (hd : d.Within known) : e.pending ∩ d = e ∩ d := by
  refine ext_bits ?_
  calc e.bits &&& known.bits &&& d.bits
    _ = e.bits &&& (d.bits &&& known.bits) := by ac_rfl
    _ = e.bits &&& d.bits := by rw [hd.bits]

/-- Leaving the trace aside and a debugger's stop taken, the interrupts are still pending. -/
theorem inter_heard (e : Events) :
    ((e \ stopTrace) \ debugStop).pending ∩ (interrupt ∪ nmi) = e.pending ∩ (interrupt ∪ nmi) := by
  refine ext_bits ?_
  change e.bits &&& ~~~0x80000000 &&& ~~~0x4 &&& 0x80000007 &&& 0x3 = e.bits &&& 0x80000007 &&& 0x3
  simp only [UInt32.and_assoc]
  rfl

/-- If there was no interrupt, nothing with a meaning is left. -/
theorem pending_heard {e : Events} (h : (e.pending ∩ (interrupt ∪ nmi)).any = false) :
    ((e \ stopTrace) \ debugStop).pending.any = false := by
  rw [any_eq_false] at h ⊢
  change e.bits &&& 0x80000007 &&& 0x3 = 0 at h
  change e.bits &&& ~~~0x80000000 &&& ~~~0x4 &&& 0x80000007 = 0
  simp only [UInt32.and_assoc] at h ⊢
  exact h

end TraceCore.Events
