/-
Faults name their instruction. A run that ends with a fault leaves the instruction pointer at the instruction that
faulted: one whose trace could not be had, or one that broke off, behind as many iterations as it had completed.
-/
import TraceCore.Proofs.Exec.Precise
import TraceCore.Proofs.Processor.Watched

namespace TraceCore.Processor

section

variable {ω : Type} {s : Socket ω} {limit budget : Nat} {p₀ p q : Processor} {w₀ w v : ω} {point : Point} {i : Instr}
  {fault : Fault}

/-- A run comes to a fault of the instruction at `rip`: behind the events of a boundary there is no trace to be had for
it, or it is executed and breaks off. -/
inductive FaultsAt (s : Socket ω) (limit : Nat) (p₀ : Processor) (w₀ : ω) (fault : Fault) (rip : UInt64) : Prop
  | fetch {p q : Processor} {w v : ω} (visits : Visits s limit p₀ w₀ .boundary p w)
      (served : serve s { p with linker := p.linker.reset } w = (none, q, v))
      (failed : (q.findTrace s v).1 = .error fault) (pointer : rip = q.cpu.rip) : FaultsAt s limit p₀ w₀ fault rip
  | execute {point : Point} {p q : Processor} {w v : ω} {i : Instr} (executes : Executes s limit p₀ w₀ point p w i q v)
      (failed : (q.execute s limit i v).1 = .error fault) (pointer : rip = q.cpu.rip) : FaultsAt s limit p₀ w₀ fault rip

/-- A fault that makes the loop leave has put the instruction pointer back. -/
theorem escalated_of_handFault {rip : UInt64} {exit : Exit} {p' : Processor} {w' : ω}
    (h : p.handFault s fault rip w = (.leave exit, p', w')) : exit = .fatal fault ∧ p'.cpu.rip = rip := by
  have hhanded := handed_handFault s fault rip p w
  rw [h] at hhanded
  cases hhanded
  exact ⟨rfl, rfl⟩

/-- A run that ends with a fault ends where the instruction is that faulted. -/
theorem faults_of_run (h : (p.run s budget w).1 = .fatal fault) :
    FaultsAt s (p.limitFor budget) p w fault (p.run s budget w).2.1.cpu.rip := by
  unfold run at h ⊢
  rcases hsteps : runSteps s (p.limitFor budget) (2 * budget + 1) .boundary p w with ⟨_ | exit, p', w'⟩
  · rw [hsteps] at h
    cases h
  · rw [hsteps] at h
    dsimp only at h ⊢
    subst h
    obtain ⟨point, q, v, hvisits, hstep⟩ := Visits.leaves .start hsteps
    cases point with
    | boundary =>
      have hbounded := bounded_stepBoundary s (p.limitFor budget) q v
      change q.stepBoundary s (p.limitFor budget) v = _ at hstep
      generalize q.stepBoundary s (p.limitFor budget) v = out at hbounded hstep
      cases hbounded with
      | left exit p₁ w₁ served =>
        cases hstep
        have hserved := served_serve s { q with linker := q.linker.reset } v
        rw [served] at hserved
        cases hserved
      | halted => cases hstep
      | spent => cases hstep
      | searched p₁ w₁ served awake budget =>
        unfold searched at hstep
        rcases hfind : p₁.findTrace s w₁ with ⟨e | slot, p₂, w₂⟩
        · rw [hfind] at hstep
          obtain ⟨heq, hrip⟩ := escalated_of_handFault hstep
          cases heq
          exact .fetch hvisits served (by rw [hfind]) hrip
        · rw [hfind] at hstep
          cases hstep
    | record index left generation branch =>
      have hrecorded := recorded_stepRecord s (p.limitFor budget) index left generation branch q v
      change q.stepRecord s (p.limitFor budget) index left generation branch v = _ at hstep
      generalize q.stepRecord s (p.limitFor budget) index left generation branch v = out at hrecorded hstep
      cases hrecorded with
      | faulted record found p₁ w₁ passes e hit p₂ w₂ executed =>
        obtain ⟨heq, hrip⟩ := escalated_of_handFault hstep
        cases heq
        obtain ⟨resume, honly⟩ := stopsAt_only s q.cpu.rip record.instr.len q v
        rw [passes] at honly
        cases honly
        exact .execute ⟨hvisits, ⟨index, left, generation, branch, record, rfl, found, rfl⟩, passes⟩
          (by rw [executed]) hrip
      | _ => cases hstep

end

variable {γ δ : Type} {s : Socket (Board γ δ)}

/-- Faults are precise. Where an instruction faults, there is a number of iterations that it completed, none without a
repeat prefix: the processor is as these left it, each of them is retired and taken from the count, and memory is as they
left it, unless it was the bus that refused. A run that ends with a fault ends where the instruction is that faulted. -/
theorem precise_faults (hbus : s.bus = Board.bus) (hg : s.guard.Quiet) :
    (∀ (frame : Frame) (i : Instr) (r r' : Running (Board γ δ)) (fault : Fault),
      Exec.eval (Exec.instr s frame i) r = (.error fault, r') →
        ∃ k r₁, Exec.Completes s i r k r₁ ∧ (i.rep = .once → k = 0) ∧ r'.cpu = r₁.cpu ∧
          r'.retired = r.retired + k ∧ ((∀ e, fault ≠ .bus e) → r'.world.mem = r₁.world.mem) ∧
          (r'.cpu.count i.addrSize).toNat = (r.cpu.count i.addrSize).toNat - k ∧
          k ≤ (r.cpu.count i.addrSize).toNat) ∧
    ∀ (p : Processor) (budget : Nat) (w : Board γ δ) (fault : Fault), (p.run s budget w).1 = .fatal fault →
      FaultsAt s (p.limitFor budget) p w fault (p.run s budget w).2.1.cpu.rip := by
  constructor
  · intro frame i r r' fault h
    obtain ⟨k, r₁, hcompletes, hundone, hretired, hcount⟩ := Exec.completes_of_error hbus hg h
    refine ⟨k, r₁, hcompletes, fun honce => ?_, hundone.cpu, hundone.retired.trans hretired, hundone.mem, ?_, by omega⟩
    · cases hcompletes with
      | none => rfl
      | laps _ repeats _ => exact absurd honce repeats
    · rw [hundone.cpu]
      omega
  · intro p budget w fault h
    exact faults_of_run h

/-- Of three bytes to store the last is out of memory: two iterations are completed. As a run it ends at the
instruction. -/
theorem precise_faults_filler :
    let s : Socket (Board Unit Unit) := Board.socket allStores .toCaller 0
    let r : Running (Board Unit Unit) := ⟨(filler 3).cpu.setRip 2, fillBoard, 0, false⟩
    let out := Exec.eval (Exec.instr s ⟨0, 8, 31⟩ repStosb) r
    let fault : Fault := .bus (.outOfRange 0x1000 1 0x1000)
    out.1 = .error fault ∧ (∃ r₁, Exec.Completes s repStosb r 2 r₁ ∧ out.2.cpu = r₁.cpu ∧ out.2.retired = 2) ∧
      ((filler 3).run s 8 fillBoard).1 = .fatal fault ∧
      FaultsAt s ((filler 3).limitFor 8) (filler 3) fillBoard fault 0 := by
  intro s r out fault
  have hquiet : s.guard.Quiet := ⟨fun _ _ => rfl, fun _ _ _ _ => rfl⟩
  obtain ⟨hinstr, hrun⟩ := precise_faults (s := s) rfl hquiet
  obtain ⟨hfault, hone, hthree⟩ : out.1 = .error fault ∧ (out.2.cpu.count repStosb.addrSize).toNat = 1 ∧
      (r.cpu.count repStosb.addrSize).toNat = 3 := by decide +kernel
  have hout : out = (.error fault, out.2) := (Prod.eta out).symm.trans (congrArg (·, out.2) hfault)
  obtain ⟨k, r₁, hcompletes, -, hcpu, hretired, -, hleft, hle⟩ := hinstr _ _ _ _ _ hout
  rw [hone, hthree] at hleft
  rw [hthree] at hle
  obtain rfl : k = 2 := by omega
  obtain ⟨hfatal, hrip⟩ : ((filler 3).run s 8 fillBoard).1 = .fatal fault ∧
      ((filler 3).run s 8 fillBoard).2.1.cpu.rip = 0 := by decide +kernel
  exact ⟨hfault, ⟨r₁, hcompletes, hcpu, hretired⟩, hfatal, hrip ▸ hrun (filler 3) 8 fillBoard fault hfatal⟩

end TraceCore.Processor
