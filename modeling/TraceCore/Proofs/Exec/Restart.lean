/-
Instructions can be restarted. Where an instruction runs through with all pages mapped, it runs through in the
same way with fewer of them, or it faults on a page that is missing and has changed nothing. Of a repeated
instruction that holds for each iteration.
-/
import TraceCore.Proofs.Exec.Iterate
import TraceCore.Proofs.Fetch.View

namespace TraceCore

namespace MappedRam

/-- Memory of the same bytes, with some of the pages. -/
structure Within (m' m : MappedRam) : Prop where
  bytes : m'.ram.bytes = m.ram.bytes
  pages : ∀ linear access cpl addr, m.translate linear access cpl = .ok addr →
    m'.translate linear access cpl = .ok addr ∨ m'.translate linear access cpl = .error (.of linear false access cpl)

/-- The page of `linear` is one of those that are missing. -/
structure Lacks (m' m : MappedRam) (linear : UInt64) (access : Access) (cpl : UInt8) : Prop where
  there : ∃ addr, m.translate linear access cpl = .ok addr
  missing : m'.translate linear access cpl = .error (.of linear false access cpl)

variable {m m' : MappedRam}

theorem Within.page (h : m'.Within m) {linear addr : UInt64} {access : Access} {cpl : UInt8}
    (ha : m.translate linear access cpl = .ok addr) :
    m'.translate linear access cpl = .ok addr ∨ m'.Lacks m linear access cpl := by
  rcases h.pages linear access cpl addr ha with hok | herror
  · exact Or.inl hok
  · exact Or.inr ⟨⟨addr, ha⟩, herror⟩

theorem Within.read (h : m'.Within m) (addr : UInt64) (len : Nat) : m'.ram.read addr len = m.ram.read addr len := by
  unfold Ram.read Ram.fits Ram.size
  rw [h.bytes]

theorem Within.write (h : m'.Within m) (addr : UInt64) (src : List UInt8) :
    (m'.write addr src).1 = (m.write addr src).1 ∧ (m'.write addr src).2.Within (m.write addr src).2 := by
  have hfits : m'.ram.fits addr src.length = m.ram.fits addr src.length := by
    unfold Ram.fits Ram.size
    rw [h.bytes]
  unfold MappedRam.write Ram.write
  dsimp only
  rw [hfits]
  split
  case isTrue => exact ⟨rfl, congrArg (overwrite · addr.toNat src) h.bytes, h.pages⟩
  case isFalse => exact ⟨by unfold Ram.size; rw [h.bytes], h.bytes, h.pages⟩

end MappedRam

namespace Exec

variable {γ δ α β : Type} {r r' r₁ : Running (Board γ δ)} {m : Exec (Board γ δ) α} {f : α → Exec (Board γ δ) β}

/-- The same but for pages that are missing in the second memory, and `k` more instructions retired there. -/
structure Fewer (k : Nat) (r r' : Running (Board γ δ)) : Prop where
  cpu : r'.cpu = r.cpu
  world : r'.world.mem.Within r.world.mem
  retired : r'.retired = r.retired + k
  watchHit : r'.watchHit = r.watchHit

/-- A part of an instruction that changes nothing. -/
def Looks (m : Exec (Board γ δ) α) : Prop := ∀ r, (eval m r).2 = r

/-- A part that needs no page: where it runs through, it does so with fewer pages. -/
def Sure (m : Exec (Board γ δ) α) : Prop :=
  ∀ k r r' a r₁, Fewer k r r' → eval m r = (.ok a, r₁) → ∃ r₁', eval m r' = (.ok a, r₁') ∧ Fewer k r₁ r₁'

/-- A part that runs through with fewer pages too, or has changed nothing when it faults on one that is missing. -/
def Restarts (m : Exec (Board γ δ) α) : Prop :=
  ∀ k r r' a r₁, Fewer k r r' → eval m r = (.ok a, r₁) → (∃ r₁', eval m r' = (.ok a, r₁') ∧ Fewer k r₁ r₁') ∨
    ∃ linear access, r'.world.mem.Lacks r.world.mem linear access r.cpu.cpl ∧
      eval m r' = (.error (.semantic (.pageFault (.of linear false access r.cpu.cpl))), r')

/-! ## Composition -/

theorem Looks.pure (a : α) : Looks (Pure.pure a : Exec (Board γ δ) α) := fun _ => rfl

theorem looks_cpu : Looks (cpu : Exec (Board γ δ) Cpu) := fun _ => rfl

theorem Looks.bind (hm : Looks m) (hf : ∀ a, Looks (f a)) : Looks (m >>= f) := by
  intro r
  have h := hm r
  rw [eval_bind]
  rcases hout : eval m r with ⟨x, r₁⟩
  rw [hout] at h
  cases x with
  | error e => exact h
  | ok a => exact (hf a r₁).trans h

theorem Sure.pure (a : α) : Sure (Pure.pure a : Exec (Board γ δ) α) := by
  intro k r r' b r₁ hr h
  cases h
  exact ⟨r', rfl, hr⟩

theorem Sure.throw (e : Fault) : Sure (throw e : Exec (Board γ δ) α) := by
  intro k r r' b r₁ hr h
  cases h

theorem sure_modifyCpu (f : Cpu → Cpu) : Sure (modifyCpu f : Exec (Board γ δ) Unit) := by
  intro k r r' b r₁ hr h
  cases h
  exact ⟨_, rfl, congrArg f hr.cpu, hr.world, hr.retired, hr.watchHit⟩

theorem sure_cpu : Sure (cpu : Exec (Board γ δ) Cpu) := by
  intro k r r' b r₁ hr h
  cases h
  refine ⟨r', ?_, hr⟩
  rw [eval_cpu, hr.cpu]

theorem Sure.bind (hm : Sure m) (hf : ∀ a, Sure (f a)) : Sure (m >>= f) := by
  intro k r r' b r₂ hr h
  rw [eval_bind] at h
  rcases hout : eval m r with ⟨x, r₁⟩
  rw [hout] at h
  cases x with
  | error e => cases h
  | ok a =>
    obtain ⟨r₁', hout', hr₁⟩ := hm k r r' a r₁ hr hout
    obtain ⟨r₂', hrest, hr₂⟩ := hf a k r₁ r₁' b r₂ hr₁ h
    refine ⟨r₂', ?_, hr₂⟩
    rw [eval_bind, hout']
    exact hrest

theorem Sure.restarts (h : Sure m) : Restarts m := fun k r r' a r₁ hr hm => Or.inl (h k r r' a r₁ hr hm)

/-- What looks first and faults then has changed nothing. -/
theorem Looks.restarts (hl : Looks m) (hm : Restarts m) (hf : ∀ a, Restarts (f a)) : Restarts (m >>= f) := by
  intro k r r' b r₂ hr h
  rw [eval_bind] at h
  rcases hout : eval m r with ⟨x, r₁⟩
  rw [hout] at h
  cases x with
  | error e => cases h
  | ok a =>
    have hsame : r₁ = r := by have := hl r; rwa [hout] at this
    subst hsame
    rw [eval_bind]
    rcases hm k r₁ r' a r₁ hr hout with ⟨r₁', hout', -⟩ | ⟨linear, access, hlacks, hfault⟩
    · have hsame' : r₁' = r' := by have := hl r'; rwa [hout'] at this
      subst hsame'
      rw [hout']
      exact hf a k r₁ r₁' b r₂ hr h
    · rw [hfault]
      exact Or.inr ⟨linear, access, hlacks, rfl⟩

/-- Behind the last part that needs a page, anything may be changed. -/
theorem Restarts.bind (hm : Restarts m) (hf : ∀ a, Sure (f a)) : Restarts (m >>= f) := by
  intro k r r' b r₂ hr h
  rw [eval_bind] at h
  rcases hout : eval m r with ⟨x, r₁⟩
  rw [hout] at h
  cases x with
  | error e => cases h
  | ok a =>
    rw [eval_bind]
    rcases hm k r r' a r₁ hr hout with ⟨r₁', hout', hr₁⟩ | ⟨linear, access, hlacks, hfault⟩
    · rw [hout']
      exact Or.inl (hf a k r₁ r₁' b r₂ hr₁ h)
    · rw [hfault]
      exact Or.inr ⟨linear, access, hlacks, rfl⟩

/-! ## Loads and stores -/

theorem eval_translate (linear : UInt64) (access : Access) (r : Running (Board γ δ)) :
    eval (translate Board.bus linear access) r = match r.world.mem.translate linear access r.cpu.cpl with
      | .ok addr => (.ok addr, r)
      | .error pf => (.error (.semantic (.pageFault pf)), r) := by
  unfold translate attempt
  rw [eval_bind, eval_cpu]
  dsimp only
  rw [eval_bind, show eval (world (Board.bus.translate linear access r.cpu.cpl)) r =
    (.ok (r.world.mem.translate linear access r.cpu.cpl), r) from rfl]
  cases r.world.mem.translate linear access r.cpu.cpl <;> rfl

theorem looks_translate (linear : UInt64) (access : Access) :
    Looks (translate Board.bus linear access : Exec (Board γ δ) UInt64) := by
  intro r
  rw [eval_translate]
  cases r.world.mem.translate linear access r.cpu.cpl <;> rfl

theorem restarts_translate (linear : UInt64) (access : Access) :
    Restarts (translate Board.bus linear access : Exec (Board γ δ) UInt64) := by
  intro k r r' a r₁ hr h
  rw [eval_translate] at h ⊢
  rw [show r'.cpu.cpl = r.cpu.cpl by rw [hr.cpu]]
  cases ht : r.world.mem.translate linear access r.cpu.cpl with
  | error pf => rw [ht] at h; cases h
  | ok addr =>
    rw [ht] at h
    cases h
    rcases hr.world.page ht with hok | hlacks
    · rw [hok]
      exact Or.inl ⟨r', rfl, hr⟩
    · rw [hlacks.missing]
      exact Or.inr ⟨linear, access, hlacks, rfl⟩

theorem eval_read (addr : UInt64) (len : Nat) (r : Running (Board γ δ)) :
    eval (attempt .bus (Board.bus.read addr len)) r = match r.world.mem.ram.read addr len with
      | .ok bytes => (.ok bytes, r)
      | .error e => (.error (.bus e), r) := by
  unfold attempt
  rw [eval_bind, show eval (world (Board.bus.read addr len)) r = (.ok (r.world.mem.ram.read addr len), r) from rfl]
  cases r.world.mem.ram.read addr len <;> rfl

theorem looks_read (addr : UInt64) (len : Nat) :
    Looks (attempt .bus (Board.bus.read addr len) : Exec (Board γ δ) (List UInt8)) := by
  intro r
  rw [eval_read]
  cases r.world.mem.ram.read addr len <;> rfl

theorem sure_read (addr : UInt64) (len : Nat) :
    Sure (attempt .bus (Board.bus.read addr len) : Exec (Board γ δ) (List UInt8)) := by
  intro k r r' a r₁ hr h
  rw [eval_read] at h ⊢
  rw [hr.world.read]
  cases hread : r.world.mem.ram.read addr len with
  | error e => rw [hread] at h; cases h
  | ok bytes =>
    rw [hread] at h
    cases h
    exact ⟨r', rfl, hr⟩

theorem eval_write (addr : UInt64) (src : List UInt8) (r : Running (Board γ δ)) :
    eval (attempt .bus (Board.bus.write addr src)) r =
      match (r.world.mem.write addr src).1 with
      | .ok _ => (.ok (), { r with world.mem := (r.world.mem.write addr src).2 })
      | .error e => (.error (.bus e), { r with world.mem := (r.world.mem.write addr src).2 }) := by
  unfold attempt
  rw [eval_bind, show eval (world (Board.bus.write addr src)) r =
    (.ok (r.world.mem.write addr src).1, { r with world.mem := (r.world.mem.write addr src).2 }) from rfl]
  cases (r.world.mem.write addr src).1 <;> rfl

theorem sure_write (addr : UInt64) (src : List UInt8) :
    Sure (attempt .bus (Board.bus.write addr src) : Exec (Board γ δ) Unit) := by
  intro k r r' a r₁ hr h
  obtain ⟨hsame, hmem⟩ := hr.world.write addr src
  rw [eval_write] at h ⊢
  rw [hsame]
  cases hwrite : (r.world.mem.write addr src).1 with
  | error e => rw [hwrite] at h; cases h
  | ok _ =>
    rw [hwrite] at h
    cases h
    exact ⟨_, rfl, hr.cpu, hmem, hr.retired, hr.watchHit⟩

theorem load_spec (linear : UInt64) (len : Nat) :
    Looks (load Board.bus linear len : Exec (Board γ δ) (List UInt8)) ∧
      Restarts (load Board.bus linear len : Exec (Board γ δ) (List UInt8)) := by
  induction len using Nat.strongRecOn generalizing linear with
  | ind len ih =>
    unfold load
    split
    case isTrue => exact ⟨.pure _, (Sure.pure _).restarts⟩
    case isFalse hlen =>
      have hrest := ih (len - bytesInPage linear len) (sub_bytesInPage_lt hlen)
        (linear + UInt64.ofNat (bytesInPage linear len))
      refine ⟨?_, ?_⟩
      · refine (looks_translate linear .read).bind fun addr => (looks_read addr _).bind fun piece => ?_
        exact hrest.1.bind fun rest => .pure _
      · refine (looks_translate linear .read).restarts (restarts_translate linear .read) fun addr => ?_
        refine (looks_read addr _).restarts (sure_read addr _).restarts fun piece => ?_
        exact hrest.2.bind fun rest => .pure _

theorem looks_loadWord (linear : UInt64) (w : Width) :
    Looks (loadWord Board.bus linear w : Exec (Board γ δ) UInt64) := by
  unfold loadWord
  exact (load_spec linear _).1.bind fun _ => .pure _

theorem restarts_loadWord (linear : UInt64) (w : Width) :
    Restarts (loadWord Board.bus linear w : Exec (Board γ δ) UInt64) := by
  unfold loadWord
  exact (load_spec linear _).2.bind fun _ => .pure _

theorem probe_spec (linear : UInt64) (len : Nat) :
    Looks (probe Board.bus linear len : Exec (Board γ δ) Unit) ∧
      Restarts (probe Board.bus linear len : Exec (Board γ δ) Unit) := by
  induction len using Nat.strongRecOn generalizing linear with
  | ind len ih =>
    unfold probe
    split
    case isTrue => exact ⟨.pure _, (Sure.pure _).restarts⟩
    case isFalse hlen =>
      have hrest := ih (len - bytesInPage linear len) (sub_bytesInPage_lt hlen)
        (linear + UInt64.ofNat (bytesInPage linear len))
      refine ⟨?_, ?_⟩
      · exact (looks_translate linear .write).bind fun addr => hrest.1
      · exact (looks_translate linear .write).restarts (restarts_translate linear .write) fun addr => hrest.2

/-- Whether all pages are there depends on the mappings and the privilege level. -/
theorem probe_congr (hmappings : r'.world.mem.mappings = r.world.mem.mappings) (hcpl : r'.cpu.cpl = r.cpu.cpl)
    (linear : UInt64)
    (len : Nat) : (eval (probe Board.bus linear len) r').1 = (eval (probe Board.bus linear len) r).1 := by
  induction len using Nat.strongRecOn generalizing linear with
  | ind len ih =>
    have htranslate : r'.world.mem.translate linear .write r'.cpu.cpl =
        r.world.mem.translate linear .write r.cpu.cpl := by
      unfold MappedRam.translate
      rw [hmappings, hcpl]
    unfold probe
    split
    case isTrue => rfl
    case isFalse hlen =>
      rw [eval_bind, eval_bind, eval_translate, eval_translate, htranslate]
      cases r.world.mem.translate linear .write r.cpu.cpl with
      | error pf => rfl
      | ok addr => exact ih _ (sub_bytesInPage_lt hlen) _

/-- When all pages of a range are there, it can be stored to piece by piece. -/
theorem storePieces_of_probe (linear : UInt64) (src : List UInt8) {k : Nat} (hr : Fewer k r r')
    (hprobe : (eval (probe Board.bus linear src.length) r').1 = .ok ())
    (h : eval (storePieces Board.bus linear src) r = (.ok (), r₁)) :
    ∃ r₁', eval (storePieces Board.bus linear src) r' = (.ok (), r₁') ∧ Fewer k r₁ r₁' := by
  induction hn : src.length using Nat.strongRecOn generalizing linear src r r' with
  | ind n ih =>
    unfold storePieces at h ⊢
    split at h
    case isTrue hlen =>
      cases h
      rw [dif_pos hlen]
      exact ⟨r', rfl, hr⟩
    case isFalse hlen =>
      rw [dif_neg hlen]
      unfold probe at hprobe
      rw [dif_neg hlen] at hprobe
      rw [eval_bind, eval_translate] at h hprobe ⊢
      rw [show r'.cpu.cpl = r.cpu.cpl by rw [hr.cpu]] at hprobe ⊢
      cases ht : r.world.mem.translate linear .write r.cpu.cpl with
      | error pf => rw [ht] at h; cases h
      | ok addr =>
        rw [ht] at h
        rcases hr.world.page ht with hok | hlacks
        case inr => rw [hlacks.missing] at hprobe; cases hprobe
        case inl =>
          rw [hok] at hprobe ⊢
          dsimp only at h hprobe ⊢
          rw [eval_bind] at h ⊢
          rcases hwrite : eval (attempt .bus (Board.bus.write addr (src.take (bytesInPage linear src.length)))) r
            with ⟨x, r₂⟩
          rw [hwrite] at h
          cases x with
          | error e => cases h
          | ok _ =>
            obtain ⟨r₂', hwrite', hr₂⟩ := sure_write addr _ k r r' () r₂ hr hwrite
            rw [hwrite']
            dsimp only at h ⊢
            refine ih _ ?_ _ _ hr₂ ?_ h rfl
            · rw [List.length_drop, ← hn]
              exact sub_bytesInPage_lt hlen
            · rw [List.length_drop, ← hprobe]
              rw [eval_write] at hwrite'
              refine probe_congr ?_ ?_ _ _
              · split at hwrite' <;> cases hwrite'
                rfl
              · split at hwrite' <;> cases hwrite'
                rfl

theorem restarts_store (linear : UInt64) (src : List UInt8) :
    Restarts (store Board.bus .none linear src : Exec (Board γ δ) Unit) := by
  have hput : Restarts (if bytesInPage linear src.length = src.length then do
        let addr ← translate Board.bus linear .write
        attempt .bus (Board.bus.write addr src)
      else do
        probe Board.bus linear src.length
        storePieces Board.bus linear src : Exec (Board γ δ) Unit) := by
    split
    case isTrue =>
      exact (looks_translate linear .write).restarts (restarts_translate linear .write) fun addr =>
        (sure_write addr src).restarts
    case isFalse =>
      intro k r r' a r₂ hr h
      obtain ⟨hlooks, hrestarts⟩ := probe_spec (γ := γ) (δ := δ) linear src.length
      rw [eval_bind] at h ⊢
      rcases hout : eval (probe Board.bus linear src.length) r with ⟨x, r₁⟩
      rw [hout] at h
      cases x with
      | error e => cases h
      | ok _ =>
        have hsame : r₁ = r := by have := hlooks r; rwa [hout] at this
        subst hsame
        rcases hrestarts k r₁ r' () r₁ hr hout with ⟨r₁', hout', -⟩ | ⟨linear, access, hlacks, hfault⟩
        · have hsame' : r₁' = r' := by have := hlooks r'; rwa [hout'] at this
          subst hsame'
          rw [hout']
          exact Or.inl (storePieces_of_probe linear src hr (by rw [hout']) h)
        · rw [hfault]
          exact Or.inr ⟨linear, access, hlacks, rfl⟩
  -- nobody watches
  exact fun k r r' a r₁ hr h => hput k r r' a r₁ hr h

/-! ## Whole instructions -/

theorem phased_restarts {s : Socket (Board γ δ)} (hbus : s.bus = Board.bus) (hguard : s.guard = .none) :
    Phased s (fun m => Looks m ∧ Restarts m) Sure Restarts where
  pure := Sure.pure
  modifyCpu := sure_modifyCpu
  bind := Sure.bind
  of_after := Sure.restarts
  throw e := (Sure.throw e).restarts
  look hm := hm.1.restarts hm.2
  behind := Restarts.bind
  cpu := ⟨looks_cpu, sure_cpu.restarts⟩
  load linear w := by
    rw [hbus]
    exact ⟨looks_loadWord linear w, restarts_loadWord linear w⟩
  store linear src _ := by
    rw [hbus, hguard]
    exact restarts_store linear src

/-- One iteration of a repeated instruction. -/
theorem restarts_iterate (line : EventLine (Board γ δ)) (frame : Frame) (i : Instr) {body : Exec (Board γ δ) Unit}
    (hbody : Restarts body) (n : Nat) : Restarts (iterate line frame.single i body n 0) := by
  cases n with
  | zero => exact (Sure.pure _).restarts
  | succ n =>
    intro k r r' a r₂ hr h
    rw [eval_iterate_single] at h ⊢
    rcases hout : eval body r with ⟨x, r₁⟩
    rw [hout] at h
    cases x with
    | error e => cases h
    | ok _ =>
      rcases hbody k r r' () r₁ hr hout with ⟨r₁', hout', hr₁⟩ | ⟨linear, access, hlacks, hfault⟩
      · rw [hout']
        left
        dsimp only at h ⊢
        rw [hr₁.cpu]
        split at h
        case isTrue hlast =>
          cases h
          rw [if_pos hlast]
          exact ⟨_, rfl, rfl, hr₁.world, hr₁.retired, hr₁.watchHit⟩
        case isFalse hmore =>
          cases h
          rw [if_neg hmore]
          exact ⟨_, rfl, rfl, hr₁.world, (congrArg (· + 1) hr₁.retired).trans (Nat.add_right_comm ..), hr₁.watchHit⟩
      · rw [hfault]
        exact Or.inr ⟨linear, access, hlacks, rfl⟩

/-- An instruction, or an iteration of a repeated one, can be restarted when it faults on a missing page. -/
theorem restarts_instr {s : Socket (Board γ δ)} (hbus : s.bus = Board.bus) (hguard : s.guard = .none) (frame : Frame)
    (i : Instr) : Restarts (instr s frame.single i) := by
  have hphased := phased_restarts hbus hguard
  refine hphased.instr_of_string frame.single fun op w _ hrep => ?_
  unfold repeated
  rw [if_neg hrep]
  exact looks_cpu.restarts sure_cpu.restarts fun c => restarts_iterate _ frame i (hphased.element i op w) _

end Exec

end TraceCore
