/-
The limit of the code segment. Fetching enforces it, since what may be fetched ends with the segment; a trace from
before is entered without a look at the limit. Each of its instructions once was within the limit where it was fetched,
so with aliases a processor may execute it beyond.
-/
import TraceCore.Proofs.Processor.Progress
import TraceCore.Proofs.Processor.Remapped
import TraceCore.Proofs.Processor.Walk

namespace TraceCore

/-! ## Fetching at the limit -/

namespace Cpu

variable {c : Cpu} {rip : UInt64}

theorem windowAt_of_le (hb : c.codeSize ≠ .b64) (hle : rip.toNat % 2 ^ 32 ≤ c.cs.limit.toNat) :
    ∃ bias size, windowAt c rip = .ok (c.codeAddress rip, bias, size) := by
  have hin : ¬ c.cs.limit.toUInt64 < rip &&& 0xFFFFFFFF := by
    rw [UInt64.lt_iff_toNat_lt, UInt32.toNat_toUInt64, toNat_and_low]
    omega
  unfold windowAt codeAddress
  rw [if_neg hb, if_neg hb, if_neg hin]
  exact ⟨_, _, rfl⟩

theorem windowAt_of_lt (hb : c.codeSize ≠ .b64) (hlt : c.cs.limit.toNat < rip.toNat % 2 ^ 32) :
    windowAt c rip = .error (.segmentLimit (rip &&& 0xFFFFFFFF) c.cs.limit) := by
  have hout : c.cs.limit.toUInt64 < rip &&& 0xFFFFFFFF := by
    rw [UInt64.lt_iff_toNat_lt, UInt32.toNat_toUInt64, toNat_and_low]
    exact hlt
  unfold windowAt
  rw [if_neg hb, if_pos hout]

end Cpu

namespace MappedRam

variable {m m' : MappedRam} {c : Cpu} {addr : UInt64} {instr : Instr}

theorem fetchView_of_lt (hb : c.codeSize ≠ .b64) {rip : UInt64} (hlt : c.cs.limit.toNat < rip.toNat % 2 ^ 32) :
    m.fetchView c rip = .error (.segmentLimit (rip &&& 0xFFFFFFFF) c.cs.limit) := by
  unfold fetchView
  rw [Cpu.windowAt_of_lt hb hlt]

theorem Shows.congr (h : m.Shows c instr) (hmap : m'.mappings = m.mappings) (hbytes : m'.ram.bytes = m.ram.bytes) :
    m'.Shows c instr := by
  obtain ⟨bytes, hdec, hlen, hshown⟩ := h
  refine ⟨bytes, hdec, hlen, fun k hk => ?_⟩
  obtain ⟨addr, htr, hb⟩ := hshown k hk
  exact ⟨addr, by rw [translate_congr hmap]; exact htr, by rw [hbytes]; exact hb⟩

/-- Bytes that are mapped at the instruction pointer and behind it. -/
def Shown (m : MappedRam) (c : Cpu) (bytes : List UInt8) : Prop :=
  ∀ k < bytes.length, ∃ addr, m.translate (c.codeAddress (c.rip + UInt64.ofNat k)) .execute c.cpl = .ok addr ∧
    m.ram.bytes[addr.toNat]? = bytes[k]?

variable {bytes : List UInt8}

/-- Such a byte can be fetched up to the limit. -/
theorem Shown.fetchView (h : m.Shown c bytes) (hb : c.codeSize ≠ .b64) {k : Nat} (hk : k < bytes.length)
    (hle : (c.rip + UInt64.ofNat k).toNat % 2 ^ 32 ≤ c.cs.limit.toNat) :
    ∃ addr n, m.fetchView c (c.rip + UInt64.ofNat k) = .ok (addr, n) := by
  obtain ⟨addr, htr, hbyte⟩ := h k hk
  obtain ⟨bias, size, hat⟩ := Cpu.windowAt_of_le hb hle
  rw [List.getElem?_eq_getElem hk] at hbyte
  have hin := (Array.getElem?_eq_some_iff.1 hbyte).1
  have hpage : (m.ram.page? (pageBase addr)).isSome = true := by
    rw [Ram.isSome_page?, Ram.toNat_pageBase]
    exact Nat.lt_of_le_of_lt (Nat.div_mul_le_self ..) hin
  exact ⟨addr, _, Board.fetchView_eq_ok.2 ⟨_, bias, size, hat, htr, hpage, rfl⟩⟩

/-- What is fetched are these bytes. -/
theorem Shown.slice (h : m.Shown c bytes) {a j n : Nat} (hr : c.Reaches (c.rip + UInt64.ofNat a))
    (hview : m.fetchView c (c.rip + UInt64.ofNat a) = .ok (addr, n)) (hj : j ≤ n) (hle : a + j ≤ bytes.length) :
    m.ram.slice addr j = (bytes.drop a).take j := by
  apply List.ext_getElem?
  intro k
  rw [Ram.getElem?_slice, List.getElem?_take]
  by_cases hk : k < j
  · rw [if_pos hk, if_pos hk, List.getElem?_drop]
    obtain ⟨addr', htr', hbyte⟩ := h (a + k) (by omega)
    have htr := translate_of_fetchView (Board.fetchView_add hview hr (Nat.lt_of_lt_of_le hk hj)).1
    rw [UInt64.add_assoc, ← UInt64.ofNat_add, htr'] at htr
    cases htr
    rw [← hbyte, (pageOf_add (Nat.lt_of_lt_of_le (Nat.lt_of_lt_of_le hk hj) (Board.fetchView_le hview).2.1)).2.2.2]
  · rw [if_neg hk, if_neg hk]

/-- So are those from the instruction pointer on. -/
theorem Shown.slice_rip (h : m.Shown c bytes) (hr : c.Reaches c.rip) {n : Nat}
    (hview : m.fetchView c c.rip = .ok (addr, n)) (hle : n ≤ bytes.length) : m.ram.slice addr n = bytes.take n := by
  have hzero : c.rip + UInt64.ofNat 0 = c.rip := UInt64.add_zero _
  rw [← hzero] at hr hview
  exact h.slice hr hview (Nat.le_refl n) (by omega)

end MappedRam

namespace Board

variable {γ δ : Type} {guard : Guard (Board γ δ)} {w : Board γ δ} {cpu : Cpu} {rip addr : UInt64}

theorem nextWindow_eq_error {fault : Fault} (h : (nextWindow guard cpu rip w).1 = .error fault) :
    ∃ e, fault = .fetch e ∧ w.mem.fetchView cpu rip = .error e := by
  unfold nextWindow at h
  dsimp only at h
  cases hopen : (openWindow bus guard cpu rip w).1 with
  | error e =>
    rw [hopen] at h
    cases h
    exact ⟨e, rfl, (openWindow_eq_error guard).1 hopen⟩
  | ok window => rw [hopen] at h; cases h

/-- Nor does the window behind complete an instruction that goes beyond the limit. -/
theorem decodeAcross_of_crosses {bytes : List UInt8} {instr : Instr} {page : PageView} {n : Nat} (hg : guard.Quiet)
    (hc : cpu.Segmented) (hshown : w.mem.Shown cpu bytes) (hdec : decodeInstr bytes cpu.fetchMode = .complete instr)
    (hlen : bytes.length = instr.len) (hview : w.mem.fetchView cpu cpu.rip = .ok (addr, n))
    (hpage : page.window (pageOffset addr) n = w.mem.ram.slice addr n)
    (hcross : cpu.cs.limit.toNat + 1 < cpu.rip.toNat + instr.len) :
    ∃ fault, fault.guestException = some (.generalProtection 0) ∧
      (decodeAcross bus decodeInstr ⟨addr, cpu.fetchMode, cpu.rip, n⟩ (nextWindow guard cpu) page w).1 =
        .error fault := by
  have hmax := (len_of_decodeInstr hdec).2.1
  have hrip := hc.pointer
  have hn := MappedRam.fetchView_limit hc hc.reaches hview
  have hroom := MappedRam.window_length hview
  unfold decodeAcross
  rw [if_neg (show ¬ maxInstrLen ≤ n by omega)]
  dsimp only
  rw [hpage, Ram.length_slice, show min n (w.mem.ram.bytes.size - addr.toNat) = n by omega]
  have hworld := mem_openWindow hg cpu (cpu.rip + UInt64.ofNat n) w
  rcases hopen : nextWindow guard cpu (cpu.rip + UInt64.ofNat n) w with ⟨r, w'⟩
  have hmem : w'.mem = w.mem := (congrArg (·.2.mem) hopen).symm.trans hworld
  cases r with
  | error fault =>
    obtain ⟨e, rfl, he⟩ := nextWindow_eq_error (congrArg Prod.fst hopen)
    refine ⟨_, ?_, rfl⟩
    by_cases hle : (cpu.rip + UInt64.ofNat n).toNat % 2 ^ 32 ≤ cpu.cs.limit.toNat
    · obtain ⟨addr', n', hok⟩ := hshown.fetchView hc.code (by omega) hle
      rw [hok] at he
      cases he
    · rw [MappedRam.fetchView_of_lt hc.code (Nat.not_le.1 hle)] at he
      cases he
      rfl
  | ok window =>
    dsimp only
    cases ho : window.offset? (cpu.rip + UInt64.ofNat n) with
    | none => exact ⟨_, rfl, rfl⟩
    | some o =>
      -- the second window ends with the segment too, so the bytes of both are too few
      have hok := congrArg Prod.fst hopen
      have hreach := reaches_of_nextWindow hok ho
      have hnext := fetchView_of_nextWindow hok ho
      have hlimit := MappedRam.fetchView_limit hc hreach hnext
      rw [Ram.toNat_add_ofNat (by unfold maxInstrLen at hmax; omega)] at hlimit
      obtain ⟨tailPage, htail⟩ := Option.isSome_iff_exists.1 (Ram.isSome_page?.2 (fetchView_le hnext).2.2)
      dsimp only
      rw [show bus.codePage (window.address o) w' = w'.mem.ram.page? (window.address o) from rfl, hmem, htail]
      dsimp only
      rw [Ram.window_eq_slice htail rfl, hshown.slice_rip hc.reaches hview (by omega)]
      generalize hj : min (min (window.remaining o) (maxInstrLen - n)) (toPageEnd (window.address o)) = j
      rw [hshown.slice hreach hnext (show j ≤ window.remaining o by omega) (by omega), ← List.take_add,
        decodeInstr_take_short hdec (by omega)]
      exact ⟨_, rfl, rfl⟩

end Board

namespace Processor

variable {γ δ : Type} {K : Kind} {g : Guard (Board γ δ)} {d : Delivery (Board γ δ)} {i : Nat} {p₀ p p₁ p' : Processor}
  {w₀ w w₁ w' : Board γ δ} {instr : Instr}

/-- Across the limit there is no instruction to be decoded, and the guest takes that for a general protection fault. -/
theorem refetch_of_crosses (hg : g.Quiet) (hdecode : p.decode = decodeInstr) (hc : p.cpu.Segmented)
    (hshows : w.mem.Shows p.cpu instr) (hin : p.cpu.rip.toNat ≤ p.cpu.cs.limit.toNat)
    (hcross : p.cpu.cs.limit.toNat + 1 < p.cpu.rip.toNat + instr.len) :
    ∃ addr n fault, w.mem.fetchView p.cpu p.cpu.rip = .ok (addr, n) ∧
      fault.guestException = some (.generalProtection 0) ∧ (p.refetch (Board.socket g d i) w).1 = .error fault := by
  obtain ⟨bytes, hdec, hlen, hshown⟩ := hshows
  rw [← hlen] at hshown
  have hshown : w.mem.Shown p.cpu bytes := hshown
  have hpos := (len_of_decodeInstr hdec).1
  have hrip := hc.pointer
  have hzero : p.cpu.rip + UInt64.ofNat 0 = p.cpu.rip := UInt64.add_zero _
  obtain ⟨addr, n, hview⟩ := hshown.fetchView hc.code (show 0 < bytes.length by omega) (by rw [hzero]; omega)
  rw [hzero] at hview
  have hn := MappedRam.fetchView_limit hc hc.reaches hview
  have hhead := hshown.slice_rip hc.reaches hview (by omega)
  obtain ⟨hnpos, hend, -⟩ := Board.fetchView_le hview
  have hfull : decodeInstr (w.mem.ram.slice addr n ++ bytes.drop n) p.cpu.fetchMode = .complete instr := by
    rw [hhead, List.take_append_drop]
    exact hdec
  obtain ⟨page, hpage, hacross⟩ := TraceCache.decodeAt_of_crosses ⟨addr, p.cpu.fetchMode, p.cpu.rip, n⟩
    (Board.nextWindow g p.cpu) hnpos hend (show n < instr.len by omega) (MappedRam.window_length hview) hfull
  obtain ⟨fault, hguest, hfault⟩ := Board.decodeAcross_of_crosses hg hc hshown hdec hlen hview hpage hcross
  exact ⟨addr, n, fault, hview, hguest, by rw [refetch_ok hg hview, hdecode, hacross, hfault]⟩

/-- Without aliases, and as long as the mappings stay, no trace is entered that goes beyond the limit. -/
theorem Sought.inside {r : Except Fault Nat} (h : p.Sought K g d i w r p' w') (hlag : w.mem.ram.stamps.lag = 0)
    (hK : K.Unaliased) (honly : ∀ mappings, K mappings → mappings = w.mem.mappings)
    (hshows : w.mem.Shows p.cpu instr) {slot : Nat} (hr : r = .ok slot) :
    p.cpu.rip.toNat + instr.len ≤ p.cpu.cs.limit.toNat + 1 := by
  obtain ⟨t, -, hwalks⟩ := h.traverses hlag hr
  obtain ⟨window, cache, rfl⟩ := h.only
  obtain ⟨record, -, mappings, rip, hm, hreach, hoffers, hrip⟩ := hwalks.offers h.inOrder (h.world.lag.trans hlag)
  obtain rfl : rip = p.cpu.rip := UInt64.toNat_inj.1 (hrip hK)
  -- it is the instruction that the mappings show
  have hold : w.mem.Shows p.cpu record.instr :=
    (hoffers.shows hreach).congr ((honly mappings hm).symm) h.world.bytes.symm
  rw [hshows.unique hold]
  exact hoffers.limit h.inOrder.code

/-- Where an instruction goes beyond the limit, a trace from before is missed, or else it is a fault. -/
theorem findTrace_of_crosses (hg : g.Quiet) (h : p.InOrder K w) (hlag : w.mem.ram.stamps.lag = 0)
    (hshows : w.mem.Shows p.cpu instr) (hin : p.cpu.rip.toNat ≤ p.cpu.cs.limit.toNat)
    (hcross : p.cpu.cs.limit.toNat + 1 < p.cpu.rip.toNat + instr.len) :
    ∃ addr fault, w.mem.translate (p.cpu.codeAddress p.cpu.rip) .execute p.cpu.cpl = .ok addr ∧
      fault.guestException = some (.generalProtection 0) ∧
      ((p.findTrace (Board.socket g d i) w).1 = .error fault ↔
        (p.cache.lookup w.mem.ram.stamps addr p.cpu.fetchMode).1 = none) ∧
      (K.Unaliased → (∀ mappings, K mappings → mappings = w.mem.mappings) →
        (p.findTrace (Board.socket g d i) w).1 = .error fault) := by
  obtain ⟨addr, n, fault, hview, hguest, hrefetch⟩ := refetch_of_crosses (d := d) (i := i) hg h.decode h.code hshows hin
    hcross
  have hsought := sought_findTrace (d := d) (i := i) hg h
  have hfailed := hsought.failed hlag
  rw [hrefetch, hview] at hfailed
  refine ⟨addr, fault, MappedRam.translate_of_fetchView hview, hguest, ?_, fun hK honly => ?_⟩
  · rw [hfailed]
    exact ⟨fun hmiss => hmiss.2 addr n rfl, fun hnone => ⟨rfl, fun addr' n' hv => by cases hv; exact hnone⟩⟩
  · cases hout : (p.findTrace (Board.socket g d i) w).1 with
    | error f =>
      obtain ⟨hf, -⟩ := (hfailed f).1 hout
      cases hf
      rfl
    | ok slot => exact absurd (hsought.inside hlag hK honly hshows hout) (Nat.not_le.2 hcross)

/-- Each record that is executed was within the limit where it was fetched. Without aliases, that is where it is
executed. Beyond the limit nothing is fetched. Where an instruction begins within the limit and ends beyond, the
processor hands over a fault that is a general protection fault to the guest, just if no trace of it is found. -/
theorem limit_of_inSegment (h : InSegment K p₀ w₀) (hg : g.Quiet) (hd : d.StaysIn K) {limit : Nat} {point : Point}
    (hv : Visits (Board.socket g d i) limit p₀ w₀ point p w) (hfew : w.mem.ram.stamps.generation < 2 ^ 32) :
    (∀ index left generation branch, point = .record index left generation branch →
      ∃ record, p.cache.pool[index]? = some record ∧
        (∃ mappings rip, K mappings ∧ (w.mem.under mappings).Shows { p.cpu with rip } record.instr ∧
          rip.toNat + record.instr.len ≤ p.cpu.cs.limit.toNat + 1 ∧
          (K.Unaliased → p.cpu.rip = rip ∨ p.cpu.rip = rip &&& p.cpu.ipMask)) ∧
        (K.Unaliased → p.cpu.rip.toNat + record.instr.len ≤ p.cpu.cs.limit.toNat + 1)) ∧
    ∀ p₁ w₁, point = .boundary → p.GoesOn (Board.socket g d i) limit w p₁ w₁ →
      w₁.mem.ram.stamps.generation < 2 ^ 32 →
        (p₁.cpu.cs.limit.toNat < p₁.cpu.rip.toNat → p.Faults (Board.socket g d i) limit w p₁ w₁
          (.fetch (.segmentLimit p₁.cpu.rip p₁.cpu.cs.limit))) ∧
        ∀ instr, w₁.mem.Shows p₁.cpu instr → p₁.cpu.rip.toNat ≤ p₁.cpu.cs.limit.toNat →
          p₁.cpu.cs.limit.toNat + 1 < p₁.cpu.rip.toNat + instr.len →
            ∃ addr fault, w₁.mem.translate (p₁.cpu.codeAddress p₁.cpu.rip) .execute p₁.cpu.cpl = .ok addr ∧
              fault.guestException = some (.generalProtection 0) ∧
              (p.Faults (Board.socket g d i) limit w p₁ w₁ fault ↔
                (p₁.cache.lookup w₁.mem.ram.stamps addr p₁.cpu.fetchMode).1 = none) ∧
              (K.Unaliased → (∀ mappings, K mappings → mappings = w₁.mem.mappings) →
                p.Faults (Board.socket g d i) limit w p₁ w₁ fault) := by
  obtain ⟨hinOrder, hstanding⟩ := standing_of_visits hg hd (inOrder_of_inSegment h) hv
  have hlag := hinOrder.counted.lag_eq hfew
  refine ⟨fun index left generation branch hpoint => ?_, fun p₁ w₁ hpoint hgo hfew₁ => ?_⟩
  · subst hpoint
    obtain ⟨-, t, k, entry, hwalks⟩ := hstanding hlag
    obtain ⟨record, hrecord, mappings, rip, hm, hreach, hoffers, hrip⟩ := hwalks.offers hinOrder hlag
    have hcode : Cpu.Segmented { p.cpu with rip } := ⟨hinOrder.code.code, hinOrder.code.lt_of_reaches hreach⟩
    have hlimit : rip.toNat + record.instr.len ≤ p.cpu.cs.limit.toNat + 1 := hoffers.limit hcode
    have hsame : K.Unaliased → p.cpu.rip = rip ∨ p.cpu.rip = rip &&& p.cpu.ipMask := fun hK => by
      rw [hwalks.rip_eq (hrip hK)]
      split
      · exact Or.inl rfl
      · exact Or.inr rfl
    refine ⟨record, hrecord, ⟨mappings, rip, hm, hoffers.shows hreach, hlimit, hsame⟩, fun hK => ?_⟩
    have hle : p.cpu.rip.toNat ≤ rip.toNat := by
      rcases hsame hK with hsame | hsame
      · rw [hsame]
      · rw [hsame, Cpu.toNat_and_ipMask]
        exact Nat.mod_le ..
    omega
  · have hserved : p₁.InOrder K w₁ := by
      have hserve := inOrder_serve (g := g) (i := i) hd hinOrder.reset
      rw [hgo.1] at hserve
      exact hserve
    refine ⟨fun hlt => ?_, fun instr hshows hin hcross => ?_⟩
    · have heip : p₁.cpu.rip &&& 0xFFFFFFFF = p₁.cpu.rip := by
        apply UInt64.toNat_inj.1
        rw [toNat_and_low, Nat.mod_eq_of_lt hserved.code.pointer]
      have hview := MappedRam.fetchView_of_lt (m := w₁.mem) hserved.code.code
        (show p₁.cpu.cs.limit.toNat < p₁.cpu.rip.toNat % 2 ^ 32 by
          rw [Nat.mod_eq_of_lt hserved.code.pointer]; exact hlt)
      rw [heip] at hview
      refine hgo.faults_iff.2 (((sought_findTrace (d := d) (i := i) hg hserved).failed
        (hserved.counted.lag_eq hfew₁) _).2 ⟨refetch_error hview, fun addr n hok => ?_⟩)
      rw [hview] at hok
      cases hok
    · obtain ⟨addr, fault, htranslate, hguest, hfault, hunaliased⟩ := findTrace_of_crosses (d := d) (i := i) hg hserved
        (hserved.counted.lag_eq hfew₁) hshows hin hcross
      exact ⟨addr, fault, htranslate, hguest, hgo.faults_iff.trans hfault, fun hK honly =>
        hgo.faults_iff.2 (hunaliased hK honly)⟩

/-- `nop` and `mov eax, 0` at the start of a page. -/
def nopMove : Board Unit Unit := storedPage 0 [0x90, 0xB8]

/-- A processor whose code segment ends within the second instruction. -/
def clipped (rip : UInt64) : Processor :=
  small { Cpu.new .protectedMode with rip, cs := { Segment.flat 0x08 with limit := 3 } }

theorem inSegment_clipped (rip : UInt64) (hrip : rip.toNat < 2 ^ 32) :
    InSegment (· = none) (clipped rip) nopMove := by
  have hnew : Processor.new 0 { traceSlots := 1, recordPool := 2, maxTraceLen := 1 } (clipped rip).cpu =
      .ok (clipped rip) := rfl
  exact inSegment_storedPage hnew ⟨nofun, hrip⟩ 0 [0x90, 0xB8]

/-- The processor and the board once it is before the `nop`. -/
def clippedStep : Step × Processor × Board Unit Unit :=
  (clipped 0).step (Board.socket .none .toCaller 0) ((clipped 0).limitFor 1) .boundary nopMove

theorem goesOn_clipped (rip : UInt64) :
    (clipped rip).GoesOn (Board.socket .none .toCaller 0) 1 nopMove (clipped rip) nopMove :=
  ⟨serve_of_quiet (by decide +kernel) _, rfl, Nat.one_pos⟩

theorem shows_clipped : nopMove.mem.Shows (clipped 1).cpu { op := .moveImm .rax 0, len := 5 } := by
  have hshown : ∀ k < 5, nopMove.mem.translate ((clipped 1).cpu.codeAddress (1 + UInt64.ofNat k)) .execute 0 =
      .ok (1 + UInt64.ofNat k) ∧
      nopMove.mem.ram.bytes[(1 + UInt64.ofNat k).toNat]? = [0xB8, 0, 0, 0, 0][k]? := by decide +kernel
  exact ⟨[0xB8, 0, 0, 0, 0], by decide +kernel, rfl, fun k hk => ⟨_, hshown k hk⟩⟩

/-- The `nop` is executed within the limit, the instruction behind it and one beyond the limit are faults. -/
theorem limit_clipped :
    (∃ record, clippedStep.2.1.cache.pool[0]? = some record ∧
      clippedStep.2.1.cpu.rip.toNat + record.instr.len ≤ clippedStep.2.1.cpu.cs.limit.toNat + 1) ∧
    (∃ fault, fault.guestException = some (.generalProtection 0) ∧
      (clipped 1).Faults (Board.socket .none .toCaller 0) 1 nopMove (clipped 1) nopMove fault) ∧
    (clipped 4).Faults (Board.socket .none .toCaller 0) 1 nopMove (clipped 4) nopMove (.fetch (.segmentLimit 4 3)) := by
  have hstays : Delivery.toCaller.StaysIn (γ := Unit) (δ := Unit) (· = none) := Delivery.staysIn_toCaller _
  have hfew : nopMove.mem.ram.stamps.generation < 2 ^ 32 := by decide +kernel
  have hstart : ∀ rip, Visits (Board.socket .none .toCaller 0) 1 (clipped rip) nopMove .boundary (clipped rip)
    nopMove := fun _ => .start
  refine ⟨?_, ?_, ?_⟩
  · have hpoint : clippedStep.1 = .goto (.record 0 0 0 none) := by decide +kernel
    have hvisits : Visits (Board.socket .none .toCaller 0) ((clipped 0).limitFor 1) (clipped 0) nopMove
        (.record 0 0 0 none) clippedStep.2.1 clippedStep.2.2 := by
      unfold clippedStep at hpoint ⊢
      exact .first hpoint
    have hlimited := limit_of_inSegment (inSegment_clipped 0 (by decide)) Guard.quiet_none hstays hvisits
      (by decide +kernel)
    obtain ⟨record, hrecord, -, hlimit⟩ := hlimited.1 0 0 0 none rfl
    exact ⟨record, hrecord, hlimit Kind.unaliased_none⟩
  · have hunmapped : nopMove.mem.mappings = none := by rw [nopMove, mappings_storedPage]
    have hlimited := limit_of_inSegment (inSegment_clipped 1 (by decide)) Guard.quiet_none hstays (hstart 1) hfew
    obtain ⟨-, hcross⟩ := hlimited.2 (clipped 1) nopMove rfl (goesOn_clipped 1) hfew
    obtain ⟨-, fault, -, hguest, -, hfaults⟩ := hcross _ shows_clipped (by decide) (by decide)
    exact ⟨fault, hguest, hfaults Kind.unaliased_none fun _ h => h.trans hunmapped.symm⟩
  · have hlimited := limit_of_inSegment (inSegment_clipped 4 (by decide)) Guard.quiet_none hstays (hstart 4) hfew
    exact (hlimited.2 (clipped 4) nopMove rfl (goesOn_clipped 4) hfew).1 (by decide)

end Processor

end TraceCore
