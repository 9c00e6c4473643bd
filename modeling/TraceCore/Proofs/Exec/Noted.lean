/-
What a debugger is told of stores. A socket is given a memory of its own, which notes whether the guard answered yes to
the last store, and whether a store that it answered yes to reached memory. Nothing else of a run changes. An
instruction that is through has the watched flag set just if such a store was noted; one that broke off may have lost
it.
-/
import TraceCore.Proofs.Exec.Ran

namespace TraceCore

variable {ω α β : Type}

/-! ## Worlds with notes -/

/-- A world, and what is noted of the stores into it. -/
structure Noted (ω : Type) where
  world : ω
  /-- The guard's answer to the last store. -/
  asked : Bool := false
  /-- A store that the guard answered yes to reached memory. -/
  struck : Bool := false

/-- A step of the world that nothing is noted of. -/
def Noted.lift (f : ω → α × ω) (n : Noted ω) : α × Noted ω := ((f n.world).1, { n with world := (f n.world).2 })

def Bus.noting (bus : Bus ω) : Bus (Noted ω) where
  translate linear access cpl := Noted.lift (bus.translate linear access cpl)
  codePage addr n := bus.codePage addr n.world
  read addr len := Noted.lift (bus.read addr len)
  write addr src n :=
    let (r, w) := bus.write addr src n.world
    (r, { n with world := w, struck := n.struck || (n.asked && r.isOk) })
  remaps n := bus.remaps n.world
  stamps n := bus.stamps n.world
  mapStamps f n := { n with world := bus.mapStamps f n.world }

def Guard.noting (guard : Guard ω) : Guard (Noted ω) where
  stopsBefore rip := Noted.lift (guard.stopsBefore rip)
  watches addr len kind n :=
    let (hit, w) := guard.watches addr len kind n.world
    (hit, { n with world := w, asked := if kind = .write then hit else n.asked })

/-- The same socket, with notes taken. -/
def Socket.noting (s : Socket ω) : Socket (Noted ω) where
  bus := s.bus.noting
  guard := s.guard.noting
  delivery :=
    { events _ cpu n :=
        let (handling, cpu, w) := s.delivery.events s.line cpu n.world
        (handling, cpu, { n with world := w })
      fault fault rip cpu n :=
        let (answer, cpu, w) := s.delivery.fault fault rip cpu n.world
        (answer, cpu, { n with world := w }) }
  line :=
    { events n := s.line.events n.world
      set e n := { n with world := s.line.set e n.world } }

namespace Exec

/-! ## Properties that instructions keep -/

/-- The part of an instruction keeps the property where it runs through. -/
def Maintains (I : Running ω → Prop) (m : Exec ω α) : Prop := ∀ r a r', I r → eval m r = (.ok a, r') → I r'

variable {I : Running ω → Prop} {m : Exec ω α}

theorem Maintains.pure (a : α) : Maintains I (Pure.pure a : Exec ω α) := by
  rintro r b r' hr ⟨⟩
  exact hr

theorem Maintains.throw (e : Fault) : Maintains I (throw e : Exec ω α) := by
  rintro r a r' - ⟨⟩

theorem Maintains.bind {f : α → Exec ω β} (hm : Maintains I m) (hf : ∀ a, Maintains I (f a)) :
    Maintains I (m >>= f) := by
  intro r b r₂ hr h
  rw [eval_bind] at h
  rcases hout : eval m r with ⟨e | a, r₁⟩
  · rw [hout] at h
    cases h
  · rw [hout] at h
    exact hf a r₁ b r₂ (hm r a r₁ hr hout) h

theorem composes_maintains : Composes fun {α : Type} (m _ : Exec ω α) => Maintains I m := ⟨Maintains.pure, .bind⟩

theorem maintains_cpu : Maintains I cpu := by
  rintro r c r' hr ⟨⟩
  exact hr

theorem maintains_attempt {ε : Type} {fault : ε → Fault} {f : ω → Except ε α × ω}
    (h : ∀ r, I r → I { r with world := (f r.world).2 }) : Maintains I (attempt fault f) := by
  have hworld : Maintains I (world f) := by
    rintro r x r' hr ⟨⟩
    exact h r hr
  unfold attempt
  refine hworld.bind fun x => ?_
  cases x with
  | ok a => exact .pure a
  | error e => exact .throw _

/-- The property speaks of stores only: registers, count and loads do not matter to it, and a store keeps it. -/
structure Tolerates (s : Socket ω) (I : Running ω → Prop) : Prop where
  cpu : ∀ r cpu, I r → I { r with cpu }
  retired : ∀ r retired, I r → I { r with retired }
  translate : ∀ linear access cpl r, I r → I { r with world := (s.bus.translate linear access cpl r.world).2 }
  read : ∀ addr len r, I r → I { r with world := (s.bus.read addr len r.world).2 }
  store : ∀ linear src, Maintains I (store s.bus s.guard linear src)

namespace Tolerates

variable {s : Socket ω}

theorem modifyCpu (h : Tolerates s I) (f : Cpu → Cpu) : Maintains I (Exec.modifyCpu f) := by
  rintro r _ r' hr ⟨⟩
  exact h.cpu r _ hr

theorem loadwise (h : Tolerates s I) : Loadwise s.bus s.bus fun m _ => Maintains I m where
  toComposes := composes_maintains
  piece linear _ := by
    refine Maintains.bind ?_ fun addr => maintains_attempt (h.read addr _)
    unfold Exec.translate
    exact maintains_cpu.bind fun c => maintains_attempt (h.translate linear .read c.cpl)

theorem partwise (h : Tolerates s I) (i : Instr) : Partwise s s (fun _ => True) i fun m _ => Maintains I m where
  toComposes := composes_maintains
  cpu hf := maintains_cpu.bind fun c => hf c trivial
  calm _ _ := h.modifyCpu _
  load _ _ _ _ _ := h.loadwise.load _ _
  store _ _ _ src _ _ _ := h.store _ src
  throw e := Maintains.throw e
  modifyCpu _ := h.modifyCpu _
  retire := by
    rintro r _ r' hr ⟨⟩
    exact h.retired r _ hr
  mustGiveWay _ := by
    rintro r b r' hr ⟨⟩
    exact hr

/-- An instruction that is through keeps what its stores keep. -/
theorem instr (h : Tolerates s I) (frame : Frame) (i : Instr) : Maintains I (Exec.instr s frame i) :=
  (h.partwise i).instr frame

end Tolerates

/-! ## What is noted -/

/-- Where the part runs through, it leaves flag and answer alone, and if it `writes`, a yes is noted. -/
def Notes (writes : Bool) (m : Exec (Noted ω) α) : Prop :=
  ∀ r a r', eval m r = (.ok a, r') → r'.watchHit = r.watchHit ∧ r'.world.asked = r.world.asked ∧
    r'.world.struck = (r.world.struck || (writes && r.world.asked))

theorem Notes.pure (a : α) : Notes false (Pure.pure a : Exec (Noted ω) α) := by
  rintro r b r' ⟨⟩
  simp

theorem Notes.bind {writes writes' : Bool} {m : Exec (Noted ω) α} {f : α → Exec (Noted ω) β} (hm : Notes writes m)
    (hf : ∀ a, Notes writes' (f a)) : Notes (writes || writes') (m >>= f) := by
  intro r b r₂ h
  rw [eval_bind] at h
  rcases hout : eval m r with ⟨e | a, r₁⟩
  · rw [hout] at h
    cases h
  · rw [hout] at h
    obtain ⟨hhit, hasked, hstruck⟩ := hm r a r₁ hout
    obtain ⟨hhit', hasked', hstruck'⟩ := hf a r₁ b r₂ h
    refine ⟨hhit'.trans hhit, hasked'.trans hasked, ?_⟩
    rw [hstruck', hstruck, hasked, Bool.or_assoc, Bool.and_or_distrib_right]

theorem notes_attempt {ε : Type} {fault : ε → Fault} {f : Noted ω → Except ε α × Noted ω} {writes : Bool}
    (h : ∀ n a, (f n).1 = .ok a →
      (f n).2.asked = n.asked ∧ (f n).2.struck = (n.struck || (writes && n.asked))) :
    Notes writes (attempt fault f) := by
  intro r a r' hok
  have hworld : eval (world f) r = (.ok (f r.world).1, { r with world := (f r.world).2 }) := rfl
  unfold attempt at hok
  rw [eval_bind, hworld] at hok
  dsimp only at hok
  cases hout : (f r.world).1 with
  | error e => rw [hout] at hok; cases hok
  | ok b => rw [hout] at hok; cases hok; exact ⟨rfl, h r.world a hout⟩

theorem notes_cpu : Notes false (cpu : Exec (Noted ω) Cpu) := by
  rintro r b r' ⟨⟩
  simp

theorem notes_translate (bus : Bus ω) (linear : UInt64) (access : Access) :
    Notes false (translate bus.noting linear access) := by
  unfold translate
  refine notes_cpu.bind fun c => notes_attempt fun n a _ => ?_
  simp [Bus.noting, Noted.lift]

theorem notes_write (bus : Bus ω) (addr : UInt64) (src : List UInt8) :
    Notes true (attempt Fault.bus (bus.noting.write addr src)) := by
  refine notes_attempt fun n a hok => ⟨rfl, ?_⟩
  have hok : (bus.write addr src n.world).1 = .ok a := hok
  simp [Bus.noting, hok, Except.isOk, Except.toBool]

theorem notes_probe (bus : Bus ω) (linear : UInt64) (len : Nat) : Notes false (probe bus.noting linear len) := by
  induction len using Nat.strongRecOn generalizing linear with
  | ind len ih =>
    unfold probe
    split
    case isTrue => exact .pure _
    case isFalse hlen => exact (notes_translate bus linear .write).bind fun _ => ih _ (sub_bytesInPage_lt hlen) _

theorem notes_storePieces (bus : Bus ω) (linear : UInt64) (src : List UInt8) :
    Notes (src.length != 0) (storePieces bus.noting linear src) := by
  induction hn : src.length using Nat.strongRecOn generalizing linear src with
  | ind n ih =>
    unfold storePieces
    split
    case isTrue hlen => rw [← hn, hlen]; exact .pure _
    case isFalse hlen =>
      have hrest := ih (src.drop (bytesInPage linear src.length)).length
        (by rw [List.length_drop, ← hn]; exact sub_bytesInPage_lt hlen)
        (linear + UInt64.ofNat (bytesInPage linear src.length)) (src.drop (bytesInPage linear src.length)) rfl
      rw [show (n != 0) = (false || (true || ((src.drop (bytesInPage linear src.length)).length != 0))) by
        simp [← hn, hlen]]
      exact (notes_translate bus linear .write).bind fun addr => (notes_write bus addr _).bind fun _ => hrest

/-- The flag tells of every store that was noted. -/
def Told (r : Running (Noted ω)) : Prop := r.watchHit = r.world.struck

theorem maintains_store (s : Socket ω) (linear : UInt64) (src : List UInt8) :
    Maintains Told (store s.noting.bus s.noting.guard linear src) := by
  -- what follows the guard's answer, whether it crosses into another page or not
  have hput : Notes true
      (if bytesInPage linear src.length = src.length then do
        let addr ← translate s.bus.noting linear .write
        attempt .bus (s.bus.noting.write addr src)
      else do
        probe s.bus.noting linear src.length
        storePieces s.bus.noting linear src) := by
    split
    case isTrue => exact (notes_translate s.bus linear .write).bind fun addr => notes_write s.bus addr src
    case isFalse hcrosses =>
      have hlen : (src.length != 0) = true := by
        rw [bne_iff_ne]
        intro h0
        exact hcrosses (by rw [h0]; exact Nat.min_eq_left (Nat.zero_le _))
      have hpieces := notes_storePieces s.bus linear src
      rw [hlen] at hpieces
      exact (notes_probe s.bus linear src.length).bind fun _ => hpieces
  intro r a r' hr h
  unfold store at h
  have hask : eval (world (s.noting.guard.watches linear src.length .write)) r =
      (.ok (s.guard.watches linear src.length .write r.world.world).1, { r with world :=
        { r.world with
          world := (s.guard.watches linear src.length .write r.world.world).2
          asked := (s.guard.watches linear src.length .write r.world.world).1 } }) := rfl
  rw [eval_bind, hask] at h
  dsimp only at h
  unfold Told at hr ⊢
  generalize s.guard.watches linear src.length .write r.world.world = answer at h
  obtain ⟨hit, w⟩ := answer
  cases hit with
  | false =>
    obtain ⟨hhit, -, hstruck⟩ := hput _ a r' h
    rw [hhit, hstruck]
    simpa using hr
  | true =>
    rw [if_pos rfl, eval_bind] at h
    obtain ⟨hhit, -, hstruck⟩ := hput _ a r' h
    rw [hhit, hstruck]
    simp

theorem tolerates_told (s : Socket ω) : Tolerates s.noting Told where
  cpu _ _ h := h
  retired _ _ h := h
  translate _ _ _ _ h := h
  read _ _ _ h := h
  store := maintains_store s

/-- The flag of an instruction that is through tells whether a store was noted. -/
theorem told_instr (s : Socket ω) (frame : Frame) (i : Instr) : Maintains Told (instr s.noting frame i) :=
  (tolerates_told s).instr frame i

end Exec

end TraceCore
