/-
New traces, and the bytes that they were decoded from. The first record of a new trace is what `decodeAt` decodes. Where
the window of a site and the one behind it hold the bytes of one instruction between them, `Site.Stitches`, that
instruction is the whole trace, and the trace covers what it takes of either window.
-/
import TraceCore.Proofs.Trace.Every

namespace TraceCore

variable {ω : Type}

/-! ## Across the end of a window -/

/-- These bytes are decoded across the end of the site's window: the first lie in `page`, the others from `tailAddr` on,
in the next window. -/
structure Site.Stitches (site : Site) (bus : Bus ω) (next : UInt64 → ω → Except Fault FetchWindow × ω) (w : ω)
    (page : PageView) (tailAddr : UInt64) (bytes : List UInt8) : Prop where
  cut : site.remaining < maxInstrLen
  reaches : site.remaining ≤ bytes.length
  head : page.window (pageOffset site.addr) site.remaining = bytes.take site.remaining
  tail : ∃ window o tailPage w₁, next (site.rip + UInt64.ofNat site.remaining) w = (.ok window, w₁) ∧
    window.offset? (site.rip + UInt64.ofNat site.remaining) = some o ∧ window.address o = tailAddr ∧
    bus.codePage tailAddr w₁ = some tailPage ∧
    tailPage.window (pageOffset tailAddr) (min (window.remaining o) (maxInstrLen - site.remaining)) =
      bytes.drop site.remaining

namespace Site.Stitches

variable {site : Site} {bus : Bus ω} {next : UInt64 → ω → Except Fault FetchWindow × ω} {w : ω} {page : PageView}
  {tailAddr : UInt64} {bytes : List UInt8} {i : Instr}

theorem length_head (h : site.Stitches bus next w page tailAddr bytes) :
    (bytes.take site.remaining).length = site.remaining :=
  List.length_take_of_le h.reaches

theorem decodeAcross_of_invalid (h : site.Stitches bus next w page tailAddr bytes) {decode : Decoder}
    (hdec : decode bytes site.mode = .invalid) :
    (decodeAcross bus decode site next page w).1 = .error (.decode site.rip) := by
  obtain ⟨window, o, tailPage, w₁, hopens, henters, haddr, hpage, htail⟩ := h.tail
  unfold decodeAcross
  rw [if_neg (Nat.not_le.2 h.cut)]
  dsimp only
  rw [h.head, h.length_head, hopens]
  dsimp only
  rw [henters]
  dsimp only
  rw [haddr, hpage]
  dsimp only
  rw [htail, List.take_append_drop, hdec]

/-- The trace of an instruction that goes on in the next window. -/
theorem buildSplit_of_complete (h : site.Stitches bus next w page tailAddr bytes) {decode : Decoder}
    (hdec : decode bytes site.mode = .complete i) (hcross : site.remaining < i.len) (hle : i.len ≤ bytes.length)
    (slot : Nat) (stamp : UInt32) (c : TraceCache) :
    ∃ c' w' t tailStamp, TraceCache.buildSplit bus decode site next slot stamp page c w = (.ok slot, c', w') ∧
      c.Placed c' slot t [i] ∧
      t.head = ⟨pageOf site.addr, stamp, touchedChunks site.addr site.remaining⟩ ∧
      t.tail = some ⟨pageOf tailAddr, tailStamp, touchedChunks tailAddr (i.len - site.remaining)⟩ := by
  obtain ⟨window, o, tailPage, w₁, hopens, henters, haddr, hpage, htail⟩ := h.tail
  have hfits : i.fits bytes.length = true := by
    simp only [Instr.fits, Bool.and_eq_true, bne_iff_ne, decide_eq_true_eq]
    omega
  have hmin : min i.len site.remaining = site.remaining := Nat.min_eq_right (Nat.le_of_lt hcross)
  have hrest : ¬ i.len - site.remaining = 0 := by omega
  unfold TraceCache.buildSplit
  rw [if_neg (Nat.not_le.2 h.cut)]
  dsimp only
  rw [h.head, h.length_head, hopens]
  dsimp only
  rw [henters]
  dsimp only
  rw [haddr, hpage]
  dsimp only
  rw [htail, List.take_append_drop, hdec]
  dsimp only
  rw [hfits, hmin, Bool.not_true, if_neg Bool.false_ne_true, if_neg hrest]
  exact ⟨_, _, _, _, rfl, ⟨rfl, by simp [TraceCache.place], rfl, rfl, rfl, rfl, by simp⟩, rfl, rfl⟩

end Site.Stitches

namespace TraceCache

variable {bus : Bus ω} {decode : Decoder} {site : Site} {next : UInt64 → ω → Except Fault FetchWindow × ω}
  {c c' : TraceCache} {w w' : ω} {t : Trace} {i : Instr} {is : List Instr} {slot : Nat}

/-! ## The records of new traces -/

/-- The records of a trace. -/
def records (c : TraceCache) (t : Trace) : List Record := (c.pool.extract t.start (t.start + t.len)).toList

theorem Placed.records (h : c.Placed c' slot t is) : c'.records t = is.map (Record.mk · .none) := by
  unfold TraceCache.records
  rw [Array.toList_extract, h.pool, h.start, h.len, ← Array.length_toList]
  simp only [List.extract_eq_take_drop, List.drop_left, Nat.add_sub_cancel_left]
  exact List.take_of_length_le (by simp)

/-- A trace that was placed where `build` places it. -/
theorem Placed.found (h : (c.makeRoom site).Placed c' (c.slotOf site.addr site.mode) t is) (hslots : 0 < c.slots.size) :
    c'.trace? (c.slotOf site.addr site.mode) = some t := by
  rw [h.trace? (by rw [size_slots_makeRoom]; exact c.slotOf_lt hslots site.addr site.mode), if_pos rfl]

/-- Where an instruction can be decoded, it is the first record of the trace that is built. -/
theorem build_of_decodeAt (hslots : 0 < c.slots.size) (hroom : 0 < c.maxTraceLen)
    (h : (decodeAt bus decode site next w).1 = .ok i) :
    ∃ slot c' w' t, c.build bus decode site next w = (.ok slot, c', w') ∧ c'.trace? slot = some t ∧
      (c'.records t).head? = some ⟨i, .none⟩ := by
  obtain ⟨room, hm⟩ : ∃ room, (c.makeRoom site).maxTraceLen = room + 1 :=
    ⟨c.maxTraceLen - 1, by rw [maxTraceLen_makeRoom, Nat.sub_add_cancel hroom]⟩
  unfold decodeAt at h
  rw [build_eq_onBus, hm]
  cases hpage : bus.codePage site.addr w with
  | none => rw [hpage] at h; cases h
  | some page =>
    rw [hpage] at h
    dsimp only at h ⊢
    cases hdec : decode (page.window (pageOffset site.addr) (min site.remaining maxInstrLen)) site.mode with
    | invalid => rw [hdec] at h; cases h
    | short =>
      rw [hdec] at h
      dsimp only at h
      unfold decodeRun
      dsimp only
      rw [hdec]
      dsimp only
      rcases buildSplit_cases bus decode site next (c.slotOf site.addr site.mode)
        ((bus.stamps w).page (pageOf site.addr)).stamp page (c.makeRoom site) w with
        ⟨f, w', -, hf, -⟩ | ⟨c', w', t, j, hout, hj, hp, -⟩
      · rw [hf] at h
        cases h
      · rw [hj] at h
        cases h
        refine ⟨_, c', w', t, hout, hp.found hslots, ?_⟩
        rw [hp.records]
        rfl
    | complete j =>
      rw [hdec] at h
      dsimp only at h
      cases hfits : j.fits (page.window (pageOffset site.addr) (min site.remaining maxInstrLen)).length with
      | false => rw [hfits] at h; cases h
      | true =>
        rw [hfits] at h
        cases h
        obtain ⟨rest, ending, hrun⟩ := decodeRun_of_complete hdec hfits
          ((c.makeRoom site).joinable (bus.stamps w) site.mode) room site.addr
        rw [hrun]
        obtain ⟨t, hp, -⟩ := placed_buildRun bus site (c.slotOf site.addr site.mode)
          ((bus.stamps w).page (pageOf site.addr)).stamp (i :: rest) ending (c.makeRoom site) w
        refine ⟨_, _, _, t, rfl, hp.found hslots, ?_⟩
        rw [hp.records]
        rfl

/-- Where it goes on in the next window, it is the only record, and what it takes of both windows is covered. -/
theorem build_of_stitches (hslots : 0 < c.slots.size) (hroom : 0 < c.maxTraceLen) {page : PageView} {tailAddr : UInt64}
    {bytes : List UInt8} (h : site.Stitches bus next w page tailAddr bytes)
    (hpage : bus.codePage site.addr w = some page) (hshort : decode (bytes.take site.remaining) site.mode = .short)
    (hdec : decode bytes site.mode = .complete i) (hcross : site.remaining < i.len) (hle : i.len ≤ bytes.length) :
    ∃ slot c' w' t headStamp tailStamp, c.build bus decode site next w = (.ok slot, c', w') ∧ c'.trace? slot = some t ∧
      c'.records t = [⟨i, .none⟩] ∧
      t.coverage = [⟨pageOf site.addr, headStamp, touchedChunks site.addr site.remaining⟩,
        ⟨pageOf tailAddr, tailStamp, touchedChunks tailAddr (i.len - site.remaining)⟩] := by
  obtain ⟨room, hm⟩ : ∃ room, (c.makeRoom site).maxTraceLen = room + 1 :=
    ⟨c.maxTraceLen - 1, by rw [maxTraceLen_makeRoom, Nat.sub_add_cancel hroom]⟩
  obtain ⟨c', w', t, tailStamp, hout, hp, hhead, htail⟩ := h.buildSplit_of_complete hdec hcross hle
    (c.slotOf site.addr site.mode) ((bus.stamps w).page (pageOf site.addr)).stamp (c.makeRoom site)
  rw [build_eq_onBus, hm, hpage]
  unfold decodeRun
  dsimp only
  rw [Nat.min_eq_left (Nat.le_of_lt h.cut), h.head, hshort]
  refine ⟨_, c', w', t, ((bus.stamps w).page (pageOf site.addr)).stamp, tailStamp, hout, hp.found hslots, hp.records,
    ?_⟩
  unfold Trace.coverage
  rw [hhead, htail]
  rfl

/-! ## Vacant caches -/

/-- The cache has room for traces and holds none. -/
structure Vacant (c : TraceCache) : Prop where
  slots : 0 < c.slots.size
  room : 0 < c.maxTraceLen
  empty : ∀ slot, c.trace? slot = .none

theorem vacant_new {config : CoreConfig} (h : config.validate = .ok ()) : (new config).Vacant := by
  have hbounds := CoreConfig.bounds_of_validate h
  have hslots := hbounds.slots
  have hroom := hbounds.room
  refine ⟨by simpa [new] using hslots, hroom, fun slot => ?_⟩
  simp only [trace?, new, Array.getElem?_replicate]
  split <;> rfl

theorem Vacant.lookup (h : c.Vacant) (stamps : StampTable) (addr : UInt64) (mode : FetchMode) :
    c.lookup stamps addr mode = (.none, { c with stats.lookups := c.stats.lookups + 1 }) := by
  have hfind : c.find? addr mode = .none := by
    unfold find?
    rw [h.empty]
    rfl
  rw [lookup_eq, hfind]

/-- Nothing is found there, so a trace is built. -/
theorem Vacant.ensure (h : c.Vacant) (bus : Bus ω) (decode : Decoder) (site : Site)
    (next : UInt64 → ω → Except Fault FetchWindow × ω) (w : ω) :
    ∃ d : TraceCache, d.Vacant ∧ c.ensure bus decode site next w = d.build bus decode site next w := by
  refine ⟨{ c with stats.lookups := c.stats.lookups + 1 }, ⟨h.slots, h.room, h.empty⟩, ?_⟩
  unfold TraceCache.ensure
  rw [h.lookup]

end TraceCache

end TraceCore
