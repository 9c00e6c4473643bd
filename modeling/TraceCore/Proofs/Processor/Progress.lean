/-
The dispatch loop comes to its end. Between two boundaries at least one instruction is retired, and there is a record
for each, so that twice what is left of the budget falls with every step: `run` never uses up the steps that it is
given. What a visited point leaves with is therefore what the run comes back with. That is so for any bus, decoder,
guard and delivery.
-/
import TraceCore.Proofs.Processor.Runs
import TraceCore.Proofs.Trace.Every

namespace TraceCore

namespace TraceCache

variable {ω : Type} {c : TraceCache} {config : CoreConfig} {slot : Nat}

/-- Each trace of the cache has records, which lie in the pool. -/
abbrev Full (c : TraceCache) (config : CoreConfig) : Prop := c.Every config fun _ is => is ≠ []

theorem stampless_nonempty : Trace.Stampless fun _ is => is ≠ [] := fun _ _ _ _ _ h => h

/-- What is built is a trace with records. -/
theorem full_build (h : c.Full config) (hvalid : config.validate = .ok ()) (bus : Bus ω) (decode : Decoder)
    (site : Site) (next : UInt64 → ω → Except Fault FetchWindow × ω) (w : ω) :
    (c.build bus decode site next w).2.1.Full config ∧
      ∀ slot, (c.build bus decode site next w).1 = .ok slot →
        ((c.build bus decode site next w).2.1.trace? slot).isSome = true := by
  have hbounds := CoreConfig.bounds_of_validate hvalid
  have hslots := hbounds.slots
  have hpos := hbounds.room
  have hroom := h.makeRoom site
  have hslot : c.slotOf site.addr site.mode < (c.makeRoom site).slots.size := by
    rw [hroom.slots, ← h.slots]
    exact c.slotOf_lt (by rw [h.slots]; exact hslots) _ _
  rcases build_cases bus decode site next c w with ⟨f, w', hout, -⟩ | ⟨c', w', t, is, hout, hp, -, -, hmade⟩
  · rw [hout]
    exact ⟨hroom, nofun⟩
  · rw [hout]
    refine ⟨hroom.placed hp hslot (hmade.ne_nil (by rw [hroom.room]; exact hpos)), fun slot hs => ?_⟩
    cases hs
    rw [hp.trace? hslot, if_pos rfl]
    rfl

/-- Whether it was found or built, there is a trace with records in the slot. -/
theorem full_ensure (h : c.Full config) (hvalid : config.validate = .ok ()) (bus : Bus ω) (decode : Decoder)
    (site : Site) (next : UInt64 → ω → Except Fault FetchWindow × ω) (w : ω) :
    (c.ensure bus decode site next w).2.1.Full config ∧
      ∀ slot, (c.ensure bus decode site next w).1 = .ok slot →
        ((c.ensure bus decode site next w).2.1.trace? slot).isSome = true := by
  have hlook := h.aged stampless_nonempty (.lookup (bus.stamps w) c site.addr site.mode)
  have hfound := found_of_lookup c (bus.stamps w) site.addr site.mode
  unfold ensure
  generalize c.lookup (bus.stamps w) site.addr site.mode = out at hlook hfound ⊢
  obtain ⟨r, d⟩ := out
  cases r with
  | none => exact full_build hlook hvalid bus decode site next w
  | some slot =>
    refine ⟨hlook, fun s hs => ?_⟩
    cases hs
    obtain ⟨-, t, ht, -⟩ := hfound slot rfl
    exact Option.isSome_iff_exists.2 ⟨t, ht⟩

/-- A branch is followed to a trace with records. -/
theorem full_chain (h : c.Full config) (l : Linker) (stamps : StampTable) (index : Nat) (addr : UInt64)
    (mode : FetchMode) (mayFollow : Bool) :
    (l.chain c stamps index addr mode mayFollow).2.2.Full config ∧
      ∀ slot, (l.chain c stamps index addr mode mayFollow).1 = some slot →
        mayFollow = true ∧ ((l.chain c stamps index addr mode mayFollow).2.2.trace? slot).isSome = true := by
  refine ⟨h.chain stampless_nonempty .., ?_⟩
  suffices hall : ∀ r c', c.Chains stamps index addr mode mayFollow r c' → ∀ slot, r = some slot →
      mayFollow = true ∧ (c'.trace? slot).isSome = true from hall _ _ (chains_chain ..)
  intro r c' hchains slot hslot
  cases hchains with
  | stays => cases hslot
  | follows stats hmay hlinked =>
    cases hslot
    obtain ⟨-, -, t, -, -, -, -, -, ht, -⟩ := exists_of_linked hlinked
    exact ⟨hmay, Option.isSome_iff_exists.2 ⟨t, ht⟩⟩
  | misses => cases hslot
  | links stats hmay hfound =>
    cases hslot
    obtain ⟨-, t, ht, -⟩ := found_of_lookup c stamps addr mode slot hfound
    exact ⟨hmay, Option.isSome_iff_exists.2 ⟨t, ht⟩⟩

end TraceCache

namespace Processor

variable {ω : Type} {s : Socket ω} {limit : Nat} {p p' : Processor} {w w' : ω} {point : Point}

/-! ## One step -/

/-- The processor's configuration is one that is not refused, and its traces have records. -/
structure Fit (p : Processor) : Prop where
  config : p.config.validate = .ok ()
  traces : p.cache.Full p.config

theorem Fit.congr (h : p.Fit) (hconfig : p'.config = p.config) (hcache : p'.cache = p.cache) : p'.Fit :=
  ⟨by rw [hconfig]; exact h.config, by rw [hconfig, hcache]; exact h.traces⟩

/-- The loop may be at this point: the records ahead are in the pool, and the budget is not used up. -/
def Within (limit : Nat) (p : Processor) : Point → Prop
  | .boundary => True
  | .record index left _ _ => index + left < p.cache.pool.size ∧ p.retired < limit

/-- Twice the instructions that are left of the budget, and one more at a boundary. -/
def potential (limit : Nat) (p : Processor) : Point → Nat
  | .boundary => 2 * (limit - p.retired) + 1
  | .record .. => 2 * (limit - p.retired)

/-- After a step the processor is fit, and if it stays in the loop, it may be where it is and has come nearer to the
end. -/
structure Nearer (limit bound : Nat) (out : Step × Processor × ω) : Prop where
  fit : out.2.1.Fit
  onward : ∀ next, out.1 = .goto next → Within limit out.2.1 next ∧ potential limit out.2.1 next < bound

theorem fit_serve (h : p.Fit) (w : ω) : (serve s p w).2.1.Fit := by
  have hserved := served_serve s p w
  generalize serve s p w = out at hserved ⊢
  cases hserved <;> exact h.congr rfl rfl

/-- A fault is counted. -/
theorem nearer_handFault (h : p.Fit) (fault : Fault) (rip : UInt64) (w : ω) {bound : Nat}
    (hbound : 2 * (limit - (p.retired + 1)) + 1 < bound) : Nearer limit bound (p.handFault s fault rip w) := by
  have hhanded := handed_handFault s fault rip p w
  generalize p.handFault s fault rip w = out at hhanded ⊢
  have hpotential : ∀ q : Processor, q.retired = p.retired + 1 → potential limit q .boundary < bound := by
    intro q hq
    unfold potential
    dsimp only
    rwa [hq]
  cases hhanded with
  | retried window _ cpu w' _ =>
    refine ⟨h.congr rfl rfl, ?_⟩
    rintro _ ⟨rfl⟩
    exact ⟨trivial, hpotential _ rfl⟩
  | delivered window _ cpu w' _ =>
    refine ⟨h.congr rfl rfl, ?_⟩
    rintro _ ⟨rfl⟩
    exact ⟨trivial, hpotential _ rfl⟩
  | escalated window _ cpu w' _ => exact ⟨h.congr rfl rfl, nofun⟩

/-- A cached trace has records. -/
theorem Fit.len_pos (h : p.Fit) {slot : Nat} {t : Trace} (ht : p.cache.trace? slot = some t) : 0 < t.len := by
  refine Nat.pos_of_ne_zero fun h0 => h.traces.all slot t ht (List.length_eq_zero_iff.1 ?_)
  rw [TraceCache.length_instrs (h.traces.inPool slot t ht), h0]

/-- The records of a trace that is entered. -/
theorem Fit.within_enterTrace (h : p.Fit) (s : Socket ω) {slot : Nat} (hslot : (p.cache.trace? slot).isSome = true)
    (hbudget : p.retired < limit) (w : ω) :
    Within limit p (p.enterTrace s slot w) ∧ potential limit p (p.enterTrace s slot w) = 2 * (limit - p.retired) := by
  obtain ⟨t, ht⟩ := Option.isSome_iff_exists.1 hslot
  have hin := h.traces.inPool slot t ht
  have hlen := h.len_pos ht
  unfold enterTrace
  rw [ht]
  dsimp only
  rw [if_neg hlen.ne']
  exact ⟨⟨by omega, hbudget⟩, rfl⟩

/-- A fetch leaves everything but window and cache alone. -/
theorem enterWindow_only (s : Socket ω) (p : Processor) (w : ω) :
    ∃ window, (p.enterWindow s w).2.1 = { p with window } := by
  unfold enterWindow
  split
  case h_1 => exact ⟨p.window, rfl⟩
  case h_2 => split <;> exact ⟨_, rfl⟩

theorem findTrace_only (s : Socket ω) (p : Processor) (w : ω) :
    ∃ window cache, (p.findTrace s w).2.1 = { p with window, cache } := by
  obtain ⟨window, hwindow⟩ := enterWindow_only s p w
  unfold findTrace
  generalize p.enterWindow s w = out at hwindow ⊢
  obtain ⟨e | offset, q, w₁⟩ := out
  · obtain rfl : q = _ := hwindow
    exact ⟨window, p.cache, rfl⟩
  · obtain rfl : q = _ := hwindow
    exact ⟨window, _, rfl⟩

/-- Serving events leaves everything but the state alone. -/
theorem serve_only (s : Socket ω) (p : Processor) (w : ω) : ∃ cpu, (serve s p w).2.1 = { p with cpu } := by
  have hserved := served_serve s p w
  generalize serve s p w = out at hserved ⊢
  cases hserved <;> exact ⟨_, rfl⟩

/-- What a step from a boundary changes. It counts one for a fault, and only while the budget is not used up. -/
theorem stepBoundary_only (s : Socket ω) (limit : Nat) (p : Processor) (w : ω) :
    ∃ cpu window cache retired, (p.stepBoundary s limit w).2.1 =
        { p with cpu, window, cache, linker := p.linker.reset, retired } ∧
      (retired = p.retired ∨ p.retired < limit ∧ retired = p.retired + 1) := by
  obtain ⟨cpu, hserve⟩ := serve_only s { p with linker := p.linker.reset } w
  have hbounded := bounded_stepBoundary s limit p w
  generalize p.stepBoundary s limit w = out at hbounded ⊢
  cases hbounded with
  | left exit p₁ w₁ served =>
    rw [served] at hserve
    exact ⟨cpu, _, _, _, hserve, Or.inl rfl⟩
  | halted p₁ w₁ served _ =>
    rw [served] at hserve
    exact ⟨cpu, _, _, _, hserve, Or.inl rfl⟩
  | spent p₁ w₁ served _ _ =>
    rw [served] at hserve
    exact ⟨cpu, _, _, _, hserve, Or.inl rfl⟩
  | searched p₁ w₁ served awake budget =>
    rw [served] at hserve
    obtain rfl : p₁ = _ := hserve
    obtain ⟨window, cache, hfound⟩ := findTrace_only s { p with linker := p.linker.reset, cpu } w₁
    unfold searched
    generalize findTrace s { p with linker := p.linker.reset, cpu } w₁ = out at hfound ⊢
    obtain ⟨fault | slot, p₂, w₂⟩ := out
    · obtain rfl : p₂ = _ := hfound
      obtain ⟨window', cpu', honly⟩ := handFault_only s fault cpu.rip
        { p with linker := p.linker.reset, cpu, window, cache } w₂
      exact ⟨cpu', window', cache, _, honly, Or.inr ⟨budget, rfl⟩⟩
    · obtain rfl : p₂ = _ := hfound
      exact ⟨cpu, window, cache, _, rfl, Or.inl rfl⟩

theorem Fit.findTrace (h : p.Fit) (w : ω) : (p.findTrace s w).2.1.Fit ∧
    ∀ slot, (p.findTrace s w).1 = .ok slot → ((p.findTrace s w).2.1.cache.trace? slot).isSome = true := by
  obtain ⟨window, hwindow⟩ := enterWindow_only s p w
  unfold Processor.findTrace
  generalize p.enterWindow s w = out at hwindow ⊢
  obtain ⟨e | offset, q, w₁⟩ := out
  · obtain rfl : q = _ := hwindow
    exact ⟨h.congr rfl rfl, nofun⟩
  · obtain rfl : q = _ := hwindow
    dsimp only
    obtain ⟨hfull, hfound⟩ := TraceCache.full_ensure h.traces h.config s.bus p.decode
      { addr := window.address offset, mode := p.cpu.fetchMode, rip := p.cpu.rip, remaining := window.remaining offset }
      (fun rip w =>
        ((openWindow s.bus s.guard p.cpu rip w).1.mapError .fetch, (openWindow s.bus s.guard p.cpu rip w).2))
      w₁
    exact ⟨⟨h.config, hfull⟩, hfound⟩

theorem nearer_stepBoundary (h : p.Fit) (w : ω) :
    Nearer limit (potential limit p .boundary) (p.stepBoundary s limit w) := by
  have hserve := fit_serve (s := s) (p := { p with linker := p.linker.reset }) (h.congr rfl rfl) w
  have hretired := retired_serve s { p with linker := p.linker.reset } w
  have hbounded := bounded_stepBoundary s limit p w
  generalize p.stepBoundary s limit w = out at hbounded ⊢
  cases hbounded with
  | left exit p₁ w₁ served =>
    rw [served] at hserve
    exact ⟨hserve, nofun⟩
  | halted p₁ w₁ served _ =>
    rw [served] at hserve
    exact ⟨hserve, nofun⟩
  | spent p₁ w₁ served _ _ =>
    rw [served] at hserve
    exact ⟨hserve, nofun⟩
  | searched p₁ w₁ served awake budget =>
    rw [served] at hserve hretired
    dsimp only at hserve hretired
    obtain ⟨hfit, hfound⟩ := hserve.findTrace (s := s) w₁
    obtain ⟨window, cache, honly⟩ := findTrace_only s p₁ w₁
    have hsame : (p₁.findTrace s w₁).2.1.retired = p₁.retired := by rw [honly]
    unfold searched
    generalize p₁.findTrace s w₁ = out at hfit hfound hsame ⊢
    obtain ⟨fault | slot, q, w₂⟩ := out
    · have hsame : q.retired = p₁.retired := hsame
      refine nearer_handFault hfit fault p₁.cpu.rip w₂ ?_
      unfold potential
      dsimp only
      omega
    · have hsame : q.retired = p₁.retired := hsame
      refine ⟨hfit, ?_⟩
      rintro _ ⟨rfl⟩
      obtain ⟨hwithin, hpotential⟩ := hfit.within_enterTrace s (hfound slot rfl) (show q.retired < limit by omega) w₂
      refine ⟨hwithin, ?_⟩
      dsimp only at hpotential ⊢
      rw [hpotential]
      unfold potential
      dsimp only
      omega

theorem stopsAt_only (s : Socket ω) (rip : UInt64) (len : Nat) (p : Processor) (w : ω) :
    ∃ resume, (p.stopsAt s rip len w).2.1 = { p with resume } := by
  unfold stopsAt
  split
  case isTrue => exact ⟨false, rfl⟩
  case isFalse =>
    refine ⟨p.resume, ?_⟩
    dsimp only
    split
    case isTrue => rfl
    case isFalse => split <;> rfl

/-- The word to go past a breakpoint is good for one instruction. -/
theorem resume_stopsAt (s : Socket ω) (rip : UInt64) (len : Nat) (p : Processor) (w : ω) :
    (p.stopsAt s rip len w).2.1.resume = false := by
  unfold stopsAt
  split
  case isTrue => rfl
  case isFalse hresume =>
    rw [Bool.not_eq_true] at hresume
    dsimp only
    split
    case isTrue => exact hresume
    case isFalse => split <;> exact hresume

/-- Besides that word, an instruction that is executed changes the state and the count only. -/
theorem ran_only {instr : Instr} {x : Except Fault Flow} {hit : Bool} {p₁ p₂ : Processor} {w₁ w₂ : ω}
    (hpasses : p.stopsAt s p.cpu.rip instr.len w = (false, p₁, w₁))
    (hexecuted : p₁.execute s limit instr w₁ = (x, hit, p₂, w₂)) :
    ∃ cpu retired, p₂ = { p with cpu, retired, resume := false } ∧ p.retired ≤ retired := by
  obtain ⟨resume, hstopsAt⟩ := stopsAt_only s p.cpu.rip instr.len p w
  have hresume := resume_stopsAt s p.cpu.rip instr.len p w
  rw [hpasses] at hstopsAt hresume
  obtain rfl : p₁ = { p with resume } := hstopsAt
  obtain rfl : resume = false := hresume
  have he := executed_execute s limit instr { p with resume := false } w₁
  rw [hexecuted] at he
  obtain ⟨⟨cpu, retired, hsame⟩, -, hle, -⟩ := he
  obtain rfl : p₂ = { p with cpu, retired, resume := false } := hsame
  exact ⟨cpu, retired, rfl, hle⟩

/-- An instruction that is through is counted. -/
theorem retired_lt_counted {instr : Instr} {flow : Flow} {hit : Bool} {p₁ p₂ : Processor} {w₁ w₂ : ω}
    (hpasses : p.stopsAt s p.cpu.rip instr.len w = (false, p₁, w₁))
    (hexecuted : p₁.execute s limit instr w₁ = (.ok flow, hit, p₂, w₂)) : p.retired < (p₂.counted flow).retired := by
  obtain ⟨resume, hstopsAt⟩ := stopsAt_only s p.cpu.rip instr.len p w
  rw [hpasses] at hstopsAt
  obtain rfl : p₁ = { p with resume } := hstopsAt
  have he := executed_execute s limit instr { p with resume } w₁
  rw [hexecuted] at he
  have hle := he.retired
  unfold counted
  split
  -- an instruction that gives way has counted what it did itself
  case isTrue hgave => exact he.progress (by rw [hgave])
  case isFalse => exact Nat.lt_succ_of_le hle

theorem counted_only (p : Processor) (flow : Flow) : ∃ retired, p.counted flow = { p with retired } := by
  unfold counted
  split
  · exact ⟨p.retired, rfl⟩
  · exact ⟨p.retired + 1, rfl⟩

theorem retired_lt_of_stays {generation : Nat} (h : p.mustLeave s limit generation w = false) : p.retired < limit := by
  unfold mustLeave at h
  simp only [Bool.or_eq_false_iff, decide_eq_false_iff_not] at h
  omega

/-- Behind a trace the loop goes to a boundary, or into a trace with records. -/
theorem Fit.follow (h : p.Fit) (hbudget : p.retired < limit) (branch : Option Nat) (w : ω) :
    (p.follow s limit branch w).2.Fit ∧ Within limit (p.follow s limit branch w).2 (p.follow s limit branch w).1 ∧
      potential limit (p.follow s limit branch w).2 (p.follow s limit branch w).1 ≤ 2 * (limit - p.retired) + 1 := by
  unfold Processor.follow
  split
  case h_1 => exact ⟨h, trivial, le_refl _⟩
  case h_2 index =>
    split
    case h_1 => exact ⟨h, trivial, le_refl _⟩
    case h_2 offset _ =>
      dsimp only
      obtain ⟨hfull, hfound⟩ := TraceCache.full_chain h.traces p.linker (s.bus.stamps w) index
        (p.window.address offset) p.cpu.fetchMode (!(s.line.events w).any && decide (p.retired < limit))
      generalize p.linker.chain p.cache (s.bus.stamps w) index (p.window.address offset) p.cpu.fetchMode
        (!(s.line.events w).any && decide (p.retired < limit)) = out at hfull hfound ⊢
      obtain ⟨slot, linker, cache⟩ := out
      cases slot with
      | none => exact ⟨⟨h.config, hfull⟩, trivial, le_refl _⟩
      | some slot =>
        have hfit : Fit { p with linker, cache } := ⟨h.config, hfull⟩
        obtain ⟨hwithin, hpotential⟩ := hfit.within_enterTrace s (hfound slot rfl).2 hbudget w
        exact ⟨hfit, hwithin, Nat.le_succ_of_le (Nat.le_of_eq hpotential)⟩

theorem nearer_stepRecord (h : p.Fit) {index left generation : Nat} {branch : Option Nat}
    (hin : Within limit p (.record index left generation branch)) (w : ω) :
    Nearer limit (potential limit p (.record index left generation branch))
      (p.stepRecord s limit index left generation branch w) := by
  obtain ⟨hpool, hbudget⟩ := hin
  have hrecorded := recorded_stepRecord s limit index left generation branch p w
  generalize p.stepRecord s limit index left generation branch w = out at hrecorded ⊢
  have hran : ∀ {instr : Instr} {x : Except Fault Flow} {hit : Bool} {p₁ p₂ : Processor} {w₁ w₂ : ω},
      p.stopsAt s p.cpu.rip instr.len w = (false, p₁, w₁) → p₁.execute s limit instr w₁ = (x, hit, p₂, w₂) →
      p₂.Fit ∧ p.retired ≤ p₂.retired ∧ p₂.cache = p.cache := by
    intro instr x hit p₁ p₂ w₁ w₂ hpasses hexecuted
    obtain ⟨cpu, retired, rfl, hle⟩ := ran_only hpasses hexecuted
    exact ⟨h.congr rfl rfl, hle, rfl⟩
  have hcounted : ∀ (flow : Flow) {q : Processor}, q.Fit → (q.counted flow).Fit ∧ (q.counted flow).cache = q.cache := by
    intro flow q hfit
    obtain ⟨retired, honly⟩ := counted_only q flow
    rw [honly]
    exact ⟨hfit.congr rfl rfl, rfl⟩
  cases hrecorded with
  | missing nothing => simp only [Array.getElem?_eq_none_iff] at nothing; omega
  | stopped record found p₁ w₁ stops =>
    obtain ⟨resume, honly⟩ := stopsAt_only s p.cpu.rip record.instr.len p w
    rw [stops] at honly
    obtain rfl : p₁ = { p with resume } := honly
    exact ⟨h.congr rfl rfl, nofun⟩
  | faulted record found p₁ w₁ passes fault hit p₂ w₂ executed =>
    obtain ⟨hfit, hle, -⟩ := hran passes executed
    refine nearer_handFault hfit fault p.cpu.rip w₂ ?_
    unfold potential
    dsimp only
    omega
  | struck record found p₁ w₁ passes flow p₂ w₂ executed =>
    exact ⟨(hcounted flow (hran passes executed).1).1, nofun⟩
  | left record found p₁ w₁ passes flow p₂ w₂ executed leaves =>
    have hmore := retired_lt_counted passes executed
    refine ⟨(hcounted flow (hran passes executed).1).1, ?_⟩
    rintro _ ⟨rfl⟩
    refine ⟨trivial, ?_⟩
    unfold potential
    dsimp only
    omega
  | next record found p₁ w₁ passes flow p₂ w₂ executed n more stays =>
    obtain ⟨hfit₂, -, hcache₂⟩ := hran passes executed
    obtain ⟨hfit, hcache⟩ := hcounted flow hfit₂
    have hmore := retired_lt_counted passes executed
    have hleft := retired_lt_of_stays stays.2
    refine ⟨hfit, ?_⟩
    rintro _ ⟨rfl⟩
    refine ⟨⟨?_, hleft⟩, ?_⟩
    · rw [hcache, hcache₂]
      omega
    · unfold potential
      dsimp only
      omega
  | through record found p₁ w₁ passes flow p₂ w₂ executed last stays =>
    obtain ⟨hfit, -⟩ := hcounted flow (hran passes executed).1
    have hmore := retired_lt_counted passes executed
    have hleft := retired_lt_of_stays stays.2
    obtain ⟨hfollow, hwithin, hpotential⟩ := hfit.follow (s := s) hleft (branched index branch flow) w₂
    refine ⟨hfollow, ?_⟩
    rintro _ ⟨rfl⟩
    refine ⟨hwithin, lt_of_le_of_lt hpotential ?_⟩
    unfold potential
    dsimp only
    omega

theorem nearer_step (h : p.Fit) (hin : Within limit p point) (w : ω) :
    Nearer limit (potential limit p point) (p.step s limit point w) := by
  cases point with
  | boundary => exact nearer_stepBoundary h w
  | record index left generation branch => exact nearer_stepRecord h hin w

/-! ## Runs -/

/-- With as many steps as the potential, the loop comes to its end. -/
theorem runSteps_ends {n : Nat} (h : p.Fit) (hin : Within limit p point) (hn : potential limit p point ≤ n) (w : ω) :
    (runSteps s limit n point p w).1.isSome = true := by
  induction n generalizing point p w with
  | zero =>
    unfold potential at hn
    cases point with
    | boundary => exact absurd hn (Nat.not_succ_le_zero _)
    | record index left generation branch =>
      have hbudget := hin.2
      dsimp only at hn
      omega
  | succ n ih =>
    have hnearer := nearer_step (s := s) h hin w
    unfold runSteps
    generalize p.step s limit point w = out at hnearer ⊢
    obtain ⟨next, p₁, w₁⟩ := out
    cases next with
    | leave exit => rfl
    | goto next =>
      obtain ⟨hwithin, hlt⟩ := hnearer.onward next rfl
      have hlt : potential limit p₁ next < potential limit p point := hlt
      exact ih hnearer.fit hwithin (by omega) w₁

theorem potential_boundary_le (p : Processor) (budget : Nat) :
    potential (p.limitFor budget) p .boundary ≤ 2 * budget + 1 := by
  unfold potential limitFor
  dsimp only
  omega

/-- Where the first step goes. -/
theorem Visits.first {budget : Nat} (h : (p.step s (p.limitFor budget) .boundary w).1 = .goto point) :
    Visits s (p.limitFor budget) p w point (p.step s (p.limitFor budget) .boundary w).2.1
      (p.step s (p.limitFor budget) .boundary w).2.2 :=
  .goto .start (by rw [← h])

/-- A visited point is as many steps from the start as the potential allows, and the loop goes on from it. -/
theorem Visits.steps {p₀ : Processor} {w₀ : ω} (h : p₀.Fit) (hv : Visits s limit p₀ w₀ point p w) :
    p.Fit ∧ Within limit p point ∧ ∃ k, potential limit p point + k ≤ potential limit p₀ .boundary ∧
      ∀ m, runSteps s limit (m + k) .boundary p₀ w₀ = runSteps s limit m point p w := by
  induction hv with
  | start => exact ⟨h, trivial, 0, le_refl _, fun _ => rfl⟩
  | @goto point next p p' w w' before steps ih =>
    obtain ⟨hfit, hin, k, hle, hsame⟩ := ih
    have hnearer := nearer_step (s := s) hfit hin w
    rw [steps] at hnearer
    obtain ⟨hwithin, hlt⟩ := hnearer.onward next rfl
    have hlt : potential limit p' next < potential limit p point := hlt
    -- one step more was taken, and the potential is lower by one at least
    refine ⟨hnearer.fit, hwithin, k + 1, by omega, fun m => ?_⟩
    rw [show m + (k + 1) = m + 1 + k by omega, hsame, runSteps, steps]

/-- What a visited point leaves with is what the run comes back with. -/
theorem run_of_visits {p₀ : Processor} {w₀ : ω} {budget : Nat} {exit : Exit} (h : p₀.Fit)
    (hv : Visits s (p₀.limitFor budget) p₀ w₀ point p w)
    (hleave : p.step s (p₀.limitFor budget) point w = (.leave exit, p', w')) : p₀.run s budget w₀ = (exit, p', w') := by
  obtain ⟨-, hin, k, hle, hsame⟩ := hv.steps h
  have hbudget := potential_boundary_le p₀ budget
  have hpos : 0 < potential (p₀.limitFor budget) p point := by
    unfold potential
    cases point with
    | boundary => exact Nat.succ_pos _
    | record index left generation branch =>
      have := hin.2
      dsimp only
      omega
  obtain ⟨m, hm⟩ : ∃ m, 2 * budget + 1 = m + 1 + k := ⟨2 * budget - k, by omega⟩
  unfold run
  rw [hm, hsame, runSteps, hleave]

/-- And what the loop comes back with, a visited point leaves with. -/
theorem Visits.leaves {p₀ : Processor} {w₀ : ω} {n : Nat} {exit : Exit} (hv : Visits s limit p₀ w₀ point p w)
    (h : runSteps s limit n point p w = (some exit, p', w')) :
    ∃ point' q v, Visits s limit p₀ w₀ point' q v ∧ q.step s limit point' v = (.leave exit, p', w') := by
  induction n generalizing point p w with
  | zero => cases h
  | succ n ih =>
    unfold runSteps at h
    rcases hstep : p.step s limit point w with ⟨e | next, p₁, w₁⟩
    · rw [hstep] at h
      exact ih (.goto hv hstep) h
    · rw [hstep] at h
      cases h
      exact ⟨point, p, w, hv, hstep⟩

theorem leaves_of_run {p₀ : Processor} (h : p₀.Fit) (s : Socket ω) (budget : Nat) (w₀ : ω) :
    ∃ point q v, Visits s (p₀.limitFor budget) p₀ w₀ point q v ∧ q.step s (p₀.limitFor budget) point v =
      (.leave (p₀.run s budget w₀).1, (p₀.run s budget w₀).2.1, (p₀.run s budget w₀).2.2) := by
  have hends := runSteps_ends (s := s) h (show Within (p₀.limitFor budget) p₀ .boundary from trivial)
    (potential_boundary_le p₀ budget) w₀
  unfold run
  rcases hout : runSteps s (p₀.limitFor budget) (2 * budget + 1) .boundary p₀ w₀ with ⟨_ | exit, p', w'⟩
  · rw [hout] at hends
    cases hends
  · exact Visits.leaves .start hout

/-! ## Histories -/

/-- A processor that was used: made with a configuration that is not refused, then run on anything, assigned to, and
told to drop its traces, to go past a breakpoint or to link, in any order. -/
inductive Used (ω : Type) : Processor → Prop
  | made {p : Processor} {id : Nat} {config : CoreConfig} {cpu : Cpu} {decode : Decoder}
      (valid : withDecoder id config cpu decode = .ok p) : Used ω p
  | run {p : Processor} (s : Socket ω) (budget : Nat) (w : ω) : Used ω p → Used ω (p.run s budget w).2.1
  | assigned {p : Processor} (cpu : Cpu) : Used ω p → Used ω { p with cpu }
  | dropped {p : Processor} : Used ω p → Used ω p.dropTraces
  | skipped {p : Processor} : Used ω p → Used ω p.skipBreakpoint
  | linked {p : Processor} (enabled : Bool) : Used ω p → Used ω (p.allowLinks enabled)

theorem Fit.run (h : p.Fit) (s : Socket ω) (budget : Nat) (w : ω) : (p.run s budget w).2.1.Fit := by
  obtain ⟨point, q, v, hv, hleave⟩ := leaves_of_run h s budget w
  obtain ⟨hfit, hin, -⟩ := hv.steps h
  have hnearer := nearer_step (s := s) hfit hin v
  rw [hleave] at hnearer
  exact hnearer.fit

theorem Used.fit (h : Used ω p) : p.Fit := by
  induction h with
  | @made p id config cpu decode valid =>
    unfold withDecoder at valid
    cases hvalid : config.validate with
    | error e => rw [hvalid] at valid; cases valid
    | ok _ =>
      rw [hvalid] at valid
      cases valid
      exact ⟨hvalid, TraceCache.every_new config _⟩
  | run s budget w _ ih => exact ih.run s budget w
  | assigned cpu _ ih => exact ih.congr rfl rfl
  | dropped _ ih => exact ⟨ih.config, ih.traces.flush⟩
  | skipped _ ih => exact ih.congr rfl rfl
  | linked enabled _ ih => exact ih.congr rfl rfl

/-- A processor with room for one trace of one instruction. -/
def small (cpu : Cpu) : Processor :=
  let config : CoreConfig := { traceSlots := 1, recordPool := 2, maxTraceLen := 1 }
  { id := 0, config, decode := decodeInstr, cpu, window := .empty, cache := .new config, linker := .new config
    retired := 0, resume := false }

theorem used_small (ω : Type) (cpu : Cpu) : Used ω (small cpu) := by
  have hmade : withDecoder 0 { traceSlots := 1, recordPool := 2, maxTraceLen := 1 } cpu decodeInstr = .ok (small cpu) :=
    rfl
  exact .made hmade

end Processor

end TraceCore
