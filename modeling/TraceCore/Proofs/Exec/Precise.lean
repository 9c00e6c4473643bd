/-
Faults are precise. Where an instruction faults, the processor is as it was before the instruction, or as some number of
completed iterations left it, and so is memory, unless it was the bus that refused.
-/
import TraceCore.Proofs.Exec.Laps
import TraceCore.Proofs.Exec.Torn

namespace TraceCore

variable {γ δ α β : Type}

/-- What a part of an instruction that faulted has left alone. -/
structure Running.Undone (fault : Fault) (r r' : Running (Board γ δ)) : Prop where
  cpu : r'.cpu = r.cpu
  retired : r'.retired = r.retired
  mem : (∀ e, fault ≠ .bus e) → r'.world.mem = r.world.mem

namespace Exec

variable {s : Socket (Board γ δ)} {g : Guard (Board γ δ)} {i : Instr} {op : StringOp} {w : Width} {frame : Frame}
  {r r' : Running (Board γ δ)} {fault : Fault} {k : Nat}

/-- A part of an instruction that has done nothing where it faults. -/
def Precise (m : Exec (Board γ δ) α) : Prop :=
  ∀ r fault r', eval m r = (.error fault, r') → r.Undone fault r'

/-- A part of an instruction that never faults. -/
def Faultless (m : Exec (Board γ δ) α) : Prop := ∀ r, ∃ a, (eval m r).1 = .ok a

section Composition

variable {m : Exec (Board γ δ) α} {f : α → Exec (Board γ δ) β}

theorem faultless_pure (a : α) : Faultless (pure a : Exec (Board γ δ) α) := fun _ => ⟨a, rfl⟩

theorem faultless_modifyCpu (f : Cpu → Cpu) : Faultless (modifyCpu f : Exec (Board γ δ) Unit) := fun _ => ⟨(), rfl⟩

theorem Faultless.bind (hm : Faultless m) (hf : ∀ a, Faultless (f a)) : Faultless (m >>= f) := by
  intro r
  obtain ⟨a, ha⟩ := hm r
  rw [eval_bind]
  rcases hout : eval m r with ⟨x, r₁⟩
  rw [hout] at ha
  cases ha
  exact hf a r₁

theorem Faultless.precise (h : Faultless m) : Precise m := by
  intro r fault r' hfault
  obtain ⟨a, ha⟩ := h r
  rw [hfault] at ha
  cases ha

theorem Looks.precise (h : Looks m) : Precise m := by
  intro r fault r' hfault
  have hsame := h r
  rw [hfault] at hsame
  subst hsame
  exact ⟨rfl, rfl, fun _ => rfl⟩

theorem precise_throw (e : Fault) : Precise (throw e : Exec (Board γ δ) α) := Looks.precise fun _ => rfl

/-- Behind a part that only looks nothing is done yet. -/
theorem Looks.bind_precise (hm : Looks m) (hf : ∀ a, Precise (f a)) : Precise (m >>= f) := by
  intro r fault r' h
  have hsame := hm r
  rw [eval_bind] at h
  rcases hout : eval m r with ⟨e | a, r₁⟩
  · rw [hout] at h
    cases h
    exact hm.precise r fault r' hout
  · rw [hout] at h hsame
    subst hsame
    exact hf a r₁ fault r' h

/-- Behind the last part that can fault, anything may be done. -/
theorem Precise.bind (hm : Precise m) (hf : ∀ a, Faultless (f a)) : Precise (m >>= f) := by
  intro r fault r' h
  rw [eval_bind] at h
  rcases hout : eval m r with ⟨e | a, r₁⟩
  · rw [hout] at h
    cases h
    exact hm r fault r' hout
  · rw [hout] at h
    obtain ⟨b, hb⟩ := hf a r₁
    rw [show eval (f a) r₁ = (.error fault, r') from h] at hb
    cases hb

theorem SparesCount.bind (hm : SparesCount m) (hf : ∀ a, SparesCount (f a)) : SparesCount (m >>= f) := by
  intro r
  have hread := hm r
  rw [eval_bind]
  rcases hout : eval m r with ⟨e | a, r₁⟩
  · rw [hout] at hread
    exact hread
  · rw [hout] at hread
    exact (hf a r₁).trans hread

theorem Looks.sparesCount (h : Looks m) : SparesCount m := fun r => by rw [h r]

end Composition

/-! ## Stores -/

/-- A store leaves the processor alone, and where it faults it leaves memory alone, unless it was the bus that refused.
The guard is asked first, and may keep a record of that. -/
theorem store_leaves (hg : g.Quiet) {src : List UInt8} (hlen : src.length ≤ pageSize) (linear : UInt64)
    (r : Running (Board γ δ)) :
    (eval (store Board.bus g linear src) r).2.cpu = r.cpu ∧
      ∀ fault, (eval (store Board.bus g linear src) r).1 = .error fault → (∀ e, fault ≠ .bus e) →
        (eval (store Board.bus g linear src) r).2.world.mem = r.world.mem := by
  obtain ⟨r₀, hcpu, hmem, hout⟩ := eval_store hg linear src r
  rw [hout, ← hcpu, ← hmem]
  by_cases hwhole : bytesInPage linear src.length = src.length
  case pos =>
    rw [if_pos hwhole, eval_put]
    cases r₀.world.mem.put r₀.cpu.cpl linear src with
    | error f => exact ⟨rfl, fun _ _ _ => rfl⟩
    | ok mem => exact ⟨rfl, nofun⟩
  case neg =>
    have hcross : bytesInPage linear src.length < src.length :=
      Nat.lt_of_le_of_ne (bytesInPage_le linear src.length) hwhole
    rw [if_neg hwhole, eval_crossing rfl hcross hlen]
    cases r₀.world.mem.translate linear .write r₀.cpu.cpl with
    | error pf => exact ⟨rfl, fun _ _ _ => rfl⟩
    | ok a =>
      dsimp only
      cases r₀.world.mem.translate (linear + UInt64.ofNat (bytesInPage linear src.length)) .write r₀.cpu.cpl with
      | error pf => exact ⟨rfl, fun _ _ _ => rfl⟩
      | ok b =>
        dsimp only
        split
        case h_1 => exact ⟨rfl, fun _ _ _ => rfl⟩
        case h_2 =>
          refine ⟨rfl, ?_⟩
          rintro _ ⟨rfl⟩ hnot
          exact absurd rfl (hnot _)
        case h_3 => exact ⟨rfl, nofun⟩

theorem precise_store (hbus : s.bus = Board.bus) (hg : s.guard.Quiet) {src : List UInt8} (hlen : src.length ≤ pageSize)
    (linear : UInt64) : Precise (store s.bus s.guard linear src) := by
  intro r fault r' h
  have hretired := (calm_store s linear src r).retired
  obtain ⟨hcpu, hmem⟩ := store_leaves hg hlen linear r
  rw [hbus] at h hretired
  rw [h] at hretired hcpu hmem
  exact ⟨hcpu, hretired, hmem fault rfl⟩

/-! ## Elements -/

/-- An element of a string operation moves the index registers and sets flags. -/
theorem elementwise_sparesCount (hbus : s.bus = Board.bus) (hg : s.guard.Quiet) (i : Instr) :
    Elementwise s s (fun _ => True) i fun m _ => SparesCount m where
  pure _ _ := rfl
  bind := SparesCount.bind
  cpu hf r := hf r.cpu trivial r
  calm _ hcount r := hcount r.cpu
  load _ _ _ _ _ := by
    rw [hbus]
    exact (load_spec _ _).1.sparesCount
  store c segment offset src _ _ hlen r := by
    have hpage : src.length ≤ pageSize := by rw [hlen]; exact i.operandBytes_le_pageSize
    rw [hbus]
    exact congrArg (·.read .rcx .w64) (store_leaves hg hpage _ r).1

theorem sparesCount_element (hbus : s.bus = Board.bus) (hg : s.guard.Quiet) (i : Instr) (op : StringOp) (w : Width) :
    SparesCount (element s.bus s.guard i op w) :=
  (elementwise_sparesCount hbus hg { i with op := .string op w }).element rfl

/-- What can fault of an instruction comes before anything that it does. -/
theorem phased_precise (hbus : s.bus = Board.bus) (hg : s.guard.Quiet) : Phased s Looks Faultless Precise where
  pure := faultless_pure
  modifyCpu := faultless_modifyCpu
  bind := Faultless.bind
  of_after := Faultless.precise
  throw := precise_throw
  look := Looks.bind_precise
  behind := Precise.bind
  cpu := looks_cpu
  load linear w := by
    rw [hbus]
    exact looks_loadWord linear w
  store linear src hlen := precise_store hbus hg (Nat.le_trans hlen (by decide)) linear

theorem precise_element (hbus : s.bus = Board.bus) (hg : s.guard.Quiet) (i : Instr) (op : StringOp) (w : Width) :
    Precise (element s.bus s.guard i op w) :=
  (phased_precise hbus hg).element i op w

/-! ## Whole instructions -/

/-- An instruction that is not a repeated one has done nothing where it faults. -/
theorem precise_instr_once (hbus : s.bus = Board.bus) (hg : s.guard.Quiet) (frame : Frame)
    (h : ∀ op w, i.op = .string op w → i.rep = .once) : Precise (instr s frame i) :=
  (phased_precise hbus hg).instr_of_string frame fun op w hop hrep => absurd (h op w hop) hrep

/-- So many iterations of the instruction lead from `r` to `r'`: none, or that many of a repeated string operation. -/
inductive Completes (s : Socket (Board γ δ)) (i : Instr) (r : Running (Board γ δ)) : Nat → Running (Board γ δ) → Prop
  | none : Completes s i r 0 r
  | laps {op : StringOp} {w : Width} {k : Nat} {r' : Running (Board γ δ)} (string : i.op = .string op w)
      (repeats : i.rep ≠ .once) (ran : eval (laps i (element s.bus s.guard i op w) k) r = (.ok (), r')) :
      Completes s i r k r'

/-- Where an instruction faults, it has completed a number of iterations, and what faulted behind them has done nothing
to the processor, and nothing to memory unless the bus refused. -/
theorem completes_of_error (hbus : s.bus = Board.bus) (hg : s.guard.Quiet)
    (h : eval (instr s frame i) r = (.error fault, r')) :
    ∃ k r₁, Completes s i r k r₁ ∧ r₁.Undone fault r' ∧ r₁.retired = r.retired + k ∧
      (r₁.cpu.count i.addrSize).toNat + k = (r.cpu.count i.addrSize).toNat := by
  by_cases hrep : ∃ op w, i.op = .string op w ∧ i.rep ≠ .once
  case neg =>
    have honce : ∀ op w, i.op = .string op w → i.rep = .once :=
      fun op w hop => Decidable.byContradiction fun hne => hrep ⟨op, w, hop, hne⟩
    exact ⟨0, r, .none, precise_instr_once hbus hg frame honce r fault r' h, rfl, rfl⟩
  case pos =>
    obtain ⟨op, w, hop, hne⟩ := hrep
    have hspares := sparesCount_element hbus hg i op w
    have hlooped := looped_instr hop hne hspares frame r
    rw [h] at hlooped
    cases hlooped with
    | faulted k r₁ _ _ lt goes hlaps ran =>
      have hretired := retired_laps hlaps
      rw [ownCount_of_calm (calm_element s i op w)] at hretired
      obtain ⟨hcount, -⟩ := count_laps hspares (Nat.le_of_lt lt) hlaps
      exact ⟨k, r₁, .laps hop hne hlaps, precise_element hbus hg i op w r₁ fault r' ran, by omega, by omega⟩

end Exec

end TraceCore
