/-
What is true of every trace of a cache and its records stays true under the operations of the cache, as long as it does
not speak of stamps and is true of each new trace. The bus and the decoder may be any.
-/
import TraceCore.Proofs.Trace.Aging

namespace TraceCore

/-- The property does not speak of the stamps of a trace. -/
def Trace.Stampless (P : Trace → List Instr → Prop) : Prop :=
  ∀ (stamps : StampTable) {t t' : Trace} {is : List Instr}, t.refresh stamps = some t' → P t is → P t' is

theorem Trace.Stampless.restamped {P : Trace → List Instr → Prop} (hP : Trace.Stampless P) {stamps : StampTable}
    {t t' : Trace} {is : List Instr} (h : t.Restamped stamps t') (ht : P t is) : P t' is := by
  rcases h with rfl | h
  · exact ht
  · exact hP stamps h ht

namespace TraceCache

variable {ω : Type} {c c' : TraceCache} {config : CoreConfig} {P : Trace → List Instr → Prop} {t : Trace}
  {is : List Instr} {slot : Nat}

/-- The cache has the size that `config` asks for, the records of its traces lie in the pool, and every trace with its
records has the property. -/
structure Every (c : TraceCache) (config : CoreConfig) (P : Trace → List Instr → Prop) : Prop where
  slots : c.slots.size = config.traceSlots
  room : c.maxTraceLen = config.maxTraceLen
  inPool : ∀ s t, c.trace? s = some t → t.start + t.len ≤ c.pool.size
  all : ∀ s t, c.trace? s = some t → P t (c.instrs t)

theorem every_new (config : CoreConfig) (P : Trace → List Instr → Prop) : (new config).Every config P := by
  have hempty : ∀ s, (new config).trace? s = .none := by
    intro s
    simp only [trace?, new, Array.getElem?_replicate]
    split <;> rfl
  refine ⟨by simp [new], rfl, fun s t hs => ?_, fun s t hs => ?_⟩ <;> simp [hempty] at hs

namespace Every

/-- A cache with the same records and no other traces. -/
theorem sub (h : c.Every config P) (hslots : c'.slots.size = c.slots.size) (hroom : c'.maxTraceLen = c.maxTraceLen)
    (hpool : c'.pool = c.pool) (hsub : ∀ s t, c'.trace? s = some t → c.trace? s = some t) : c'.Every config P := by
  refine ⟨hslots.trans h.slots, hroom.trans h.room, fun s t hs => ?_, fun s t hs => ?_⟩
  · rw [hpool]
    exact h.inPool s t (hsub s t hs)
  · have hsame : c'.instrs t = c.instrs t := by unfold instrs; rw [hpool]
    rw [hsame]
    exact h.all s t (hsub s t hs)

theorem withStats (h : c.Every config P) (stats : CacheStats) : Every { c with stats } config P :=
  h.sub rfl rfl rfl fun _ _ hs => hs

theorem flush (h : c.Every config P) : c.flush.Every config P := by
  refine ⟨(size_slots_flush c).trans h.slots, h.room, fun s t hs => ?_, fun s t hs => ?_⟩ <;>
    simp [trace?_flush] at hs

theorem evict (h : c.Every config P) (slot : Nat) : (c.evict slot).Every config P := by
  refine h.sub (size_slots_evict c slot) (maxTraceLen_evict c slot) ?_ fun s t hs => (trace?_evict hs).1
  unfold TraceCache.evict
  split <;> rfl

/-- Traces took over other stamps, or went. -/
theorem aged (h : c.Every config P) (hP : Trace.Stampless P) {stamps : StampTable} (ha : Aged stamps c c') :
    c'.Every config P := by
  have hsame : ∀ s t', c'.trace? s = some t' → c'.pool = c.pool ∧
      ∃ t, c.trace? s = some t ∧ t.Restamped stamps t' := fun s t' hs => by
    refine ⟨ha.pool.resolve_right fun hempty => ?_, ha.traces s t' hs⟩
    rw [hempty.2] at hs
    cases hs
  refine ⟨ha.size.trans h.slots, ha.room.trans h.room, fun s t' hs => ?_, fun s t' hs => ?_⟩
  · obtain ⟨hpool, t, ht, hstamped⟩ := hsame s t' hs
    rw [hpool, hstamped.start, hstamped.len]
    exact h.inPool s t ht
  · obtain ⟨hpool, t, ht, hstamped⟩ := hsame s t' hs
    have hinstrs : c'.instrs t' = c.instrs t := by
      unfold instrs
      rw [hpool, hstamped.start, hstamped.len]
    rw [hinstrs]
    exact hP.restamped hstamped (h.all s t ht)

theorem setLink (h : c.Every config P) (stamps : StampTable) (index slot : Nat) (addr : UInt64) :
    (c.setLink stamps index slot addr).Every config P := by
  refine ⟨h.slots, h.room, fun s t hs => ?_, fun s t hs => ?_⟩
  · simpa [TraceCache.setLink] using h.inPool s t hs
  · rw [instrs_setLink]
    exact h.all s t hs

/-- Whichever trace a branch is followed into. -/
theorem chain (h : c.Every config P) (hP : Trace.Stampless P) (l : Linker) (stamps : StampTable) (index : Nat)
    (addr : UInt64) (mode : FetchMode) (mayFollow : Bool) :
    (l.chain c stamps index addr mode mayFollow).2.2.Every config P := by
  have hlook := h.aged hP (.lookup stamps c addr mode)
  suffices hall : ∀ r c', c.Chains stamps index addr mode mayFollow r c' → c'.Every config P from
    hall _ _ (chains_chain ..)
  intro r c' hchains
  cases hchains with
  | stays => exact h
  | follows stats => exact h.withStats stats
  | misses => exact hlook
  | links stats => exact (hlook.setLink ..).withStats stats

theorem makeRoom (h : c.Every config P) (site : Site) : (c.makeRoom site).Every config P := by
  have h₁ := h.withStats { c.stats with misses := c.stats.misses + 1 }
  unfold TraceCache.makeRoom
  dsimp only
  split
  · exact h₁.flush.evict _
  · exact h₁.evict _

/-- A new trace that has the property. -/
theorem placed (h : c.Every config P) (hp : c.Placed c' slot t is) (hslot : slot < c.slots.size) (ht : P t is) :
    c'.Every config P := by
  have hpool : c'.pool = c.pool ++ (is.map (Record.mk · .none)).toArray := by
    apply Array.ext'
    rw [hp.pool, Array.toList_append]
  refine ⟨by rw [hp.slots, Array.size_setIfInBounds, h.slots], hp.room.trans h.room, fun s t₁ hs => ?_,
    fun s t₁ hs => ?_⟩
  · rw [hp.trace? hslot] at hs
    have hsize : c'.pool.size = c.pool.size + is.length := by rw [hpool]; simp
    rw [hsize]
    split at hs
    case isTrue =>
      obtain rfl := Option.some.inj hs
      rw [hp.start, hp.len]
    case isFalse => exact Nat.le_add_right_of_le (h.inPool s t₁ hs)
  · rw [hp.trace? hslot] at hs
    split at hs
    case isTrue =>
      obtain rfl := Option.some.inj hs
      rw [hp.instrs]
      exact ht
    case isFalse =>
      -- the records behind the old ones are none of an old trace
      have hsame : c'.instrs t₁ = c.instrs t₁ := by
        rw [← instrs_append (c := c) (is.map (Record.mk · .none)).toArray (h.inPool s t₁ hs)]
        unfold instrs
        rw [hpool]
      rw [hsame]
      exact h.all s t₁ hs

end Every

/-! ## New traces -/

/-- What a run becomes: its records, and behind them those of the trace that it meets. -/
theorem placed_buildRun (bus : Bus ω) (site : Site) (slot : Nat) (stamp : UInt32) (run : List Instr) (ending : RunEnd)
    (c : TraceCache) (w : ω) : ∃ t, c.Placed (buildRun bus site slot stamp run ending c w).1 slot t
        (run ++ c.metInstrs ending) ∧ t.addr = site.addr ∧ t.mode = site.mode ∧ t.tail = .none ∧
      t.byteLen = Ram.bytesOf run + ((c.met ending).map (·.byteLen)).getD 0 ∧
      t.head = ⟨pageOf site.addr, stamp, touchedChunks site.addr t.byteLen⟩ := by
  unfold metInstrs
  cases hmet : c.met ending with
  | none =>
    have hfull : buildRun bus site slot stamp run ending c w = buildRun bus site slot stamp run .full c w := by
      cases ending with
      | meets s => simp only [buildRun, show c.trace? s = .none from hmet]
      | _ => rfl
    rw [hfull]
    exact ⟨_, ⟨rfl, by simp [buildRun, place], rfl, rfl, rfl, rfl, by simp [size_append_list]⟩, rfl, rfl, rfl,
      by simp [Ram.foldr_len], rfl⟩
  | some t =>
    cases ending with
    | meets s =>
      have hs : c.trace? s = some t := hmet
      unfold buildRun
      simp only [hs]
      exact ⟨_, ⟨rfl, by simp [place], rfl, rfl, rfl, rfl, by simp [size_append_list]; omega⟩, rfl, rfl, rfl,
        by simp [Ram.foldr_len], rfl⟩
    | _ => cases hmet

/-- Where the `len` bytes of an instruction lie that needed more than the first `n` of them to be decoded: all in the
page of the site after all, or behind those `n` in the page that the next window shows. -/
inductive Parted (site : Site) (next : UInt64 → ω → Except Fault FetchWindow × ω) (w : ω) (stamp : UInt32)
    (n len : Nat) (t : Trace) : Prop
  | whole (tail : t.tail = .none) (fits : len ≤ n) (head : t.head = ⟨pageOf site.addr, stamp, touchedChunks site.addr len⟩)
  | parted (window : FetchWindow) (offset : Nat) (tailStamp : UInt32) (crosses : n < len)
      (opens : (next (site.rip + UInt64.ofNat n) w).1 = .ok window)
      (enters : window.offset? (site.rip + UInt64.ofNat n) = some offset)
      (head : t.head = ⟨pageOf site.addr, stamp, touchedChunks site.addr n⟩)
      (tail : t.tail = some ⟨pageOf (window.address offset), tailStamp,
        touchedChunks (window.address offset) (len - n)⟩)
      (fits : pageOffset (window.address offset) + (len - n) ≤ pageSize)

theorem Parted.fits_of_tail {site : Site} {next : UInt64 → ω → Except Fault FetchWindow × ω} {w : ω} {stamp : UInt32}
    {n len : Nat} (h : Parted site next w stamp n len t) (htail : t.tail = .none) : len ≤ n := by
  cases h with
  | whole _ fits => exact fits
  | parted _ _ _ _ _ _ _ tail => rw [tail] at htail; cases htail

/-- The instruction at the end of the window is decoded as without a cache, and what comes of it is one new trace. When
it fails, nothing was done but to ask for the next window. -/
theorem buildSplit_cases (bus : Bus ω) (decode : Decoder) (site : Site)
    (next : UInt64 → ω → Except Fault FetchWindow × ω) (slot : Nat) (stamp : UInt32) (page : PageView) (c : TraceCache)
    (w : ω) :
    (∃ f w', buildSplit bus decode site next slot stamp page c w = (.error f, c, w') ∧
      (decodeAcross bus decode site next page w).1 = .error f ∧ (w' = w ∨ ∃ rip, w' = (next rip w).2)) ∨
    ∃ c' w' t i, buildSplit bus decode site next slot stamp page c w = (.ok slot, c', w') ∧
      (decodeAcross bus decode site next page w).1 = .ok i ∧ c.Placed c' slot t [i] ∧ t.addr = site.addr ∧
      t.mode = site.mode ∧ t.byteLen = i.len ∧
      Parted site next w stamp (page.window (pageOffset site.addr) site.remaining).length i.len t := by
  unfold buildSplit decodeAcross
  split
  case isTrue => exact Or.inl ⟨_, w, rfl, rfl, Or.inl rfl⟩
  case isFalse =>
    dsimp only
    generalize page.window (pageOffset site.addr) site.remaining = headBytes
    cases hnext : next (site.rip + UInt64.ofNat headBytes.length) w with
    | mk r w₁ =>
    -- from here on the world is the one that asking for the next window left
    have hworld : w₁ = w ∨ ∃ rip, w₁ = (next rip w).2 := Or.inr ⟨_, by rw [hnext]⟩
    cases r with
    | error f => exact Or.inl ⟨f, w₁, rfl, rfl, hworld⟩
    | ok window =>
      dsimp only
      cases hoffset : window.offset? (site.rip + UInt64.ofNat headBytes.length) with
      | none => exact Or.inl ⟨_, w₁, rfl, rfl, hworld⟩
      | some offset =>
        dsimp only
        cases bus.codePage (window.address offset) w₁ with
        | none => exact Or.inl ⟨_, w₁, rfl, rfl, hworld⟩
        | some tailPage =>
          have hshown := tailPage.length_window_inside (pageOffset (window.address offset))
            (min (window.remaining offset) (maxInstrLen - headBytes.length))
          dsimp only
          generalize tailPage.window (pageOffset (window.address offset))
            (min (window.remaining offset) (maxInstrLen - headBytes.length)) = tailBytes at hshown ⊢
          cases decode (headBytes ++ tailBytes) site.mode with
          | invalid => exact Or.inl ⟨_, w₁, rfl, rfl, hworld⟩
          | short => exact Or.inl ⟨_, w₁, rfl, rfl, hworld⟩
          | complete i =>
            dsimp only
            cases hfits : i.fits (headBytes ++ tailBytes).length with
            | false => exact Or.inl ⟨_, w₁, rfl, rfl, hworld⟩
            | true =>
              refine Or.inr ?_
              simp only [Bool.not_true, Bool.false_eq_true, if_false, if_true]
              by_cases htail : i.len - min i.len headBytes.length = 0
              · have hle : i.len ≤ headBytes.length := by omega
                rw [if_pos htail]
                refine ⟨_, _, _, i, rfl, rfl, ⟨rfl, by simp [place], rfl, rfl, rfl, rfl, by simp⟩, rfl, rfl, rfl,
                  .whole rfl hle ?_⟩
                rw [Nat.min_eq_left hle]
                rfl
              · have hmin : min i.len headBytes.length = headBytes.length := by omega
                have hle : i.len ≤ (headBytes ++ tailBytes).length := by
                  simp only [Instr.fits, Bool.and_eq_true, decide_eq_true_eq] at hfits
                  exact hfits.2
                rw [List.length_append] at hle
                have hoff := pageOffset_lt (window.address offset)
                rw [if_neg htail]
                refine ⟨_, _, _, i, rfl, rfl, ⟨rfl, by simp [place], rfl, rfl, rfl, rfl, by simp⟩, rfl, rfl, rfl,
                  .parted window offset ((bus.stamps w₁).page (pageOf (window.address offset))).stamp (by omega)
                    (by rw [hnext]) hoffset ?_ ?_ (by omega)⟩
                · rw [hmin]
                  rfl
                · rw [hmin]
                  rfl

/-- How the trace with the records `is` was made for a site: from a run of instructions there, with the records of the
trace that the run meets behind it, or from the one instruction that did not end in the window. -/
inductive Made (bus : Bus ω) (decode : Decoder) (site : Site) (next : UInt64 → ω → Except Fault FetchWindow × ω)
    (c : TraceCache) (w : ω) (t : Trace) : List Instr → Prop
  | run {page : PageView} {run : List Instr} {ending : RunEnd}
      (decoded : decodeRun decode site.mode page (c.joinable (bus.stamps w) site.mode) c.maxTraceLen site.addr
        (pageOffset site.addr) site.remaining = (run, ending))
      (begins : run = [] → ending ≠ .short ∧ ending ≠ .invalid) (tail : t.tail = .none)
      (byteLen : t.byteLen = Ram.bytesOf run + ((c.met ending).map (·.byteLen)).getD 0)
      (head : t.head = ⟨pageOf site.addr, ((bus.stamps w).page (pageOf site.addr)).stamp,
        touchedChunks site.addr t.byteLen⟩) : Made bus decode site next c w t (run ++ c.metInstrs ending)
  | split {page : PageView} {i : Instr} (byteLen : t.byteLen = i.len)
      (parted : Parted site next w ((bus.stamps w).page (pageOf site.addr)).stamp
        (page.window (pageOffset site.addr) site.remaining).length i.len t) : Made bus decode site next c w t [i]

/-- With room for a record, there is one. -/
theorem Made.ne_nil {bus : Bus ω} {decode : Decoder} {site : Site} {next : UInt64 → ω → Except Fault FetchWindow × ω}
    {w : ω} (h : Made bus decode site next c w t is) (hroom : 0 < c.maxTraceLen) : is ≠ [] := by
  cases h with
  | run decoded begins =>
    intro hnil
    obtain ⟨rfl, -⟩ := List.append_eq_nil_iff.1 hnil
    obtain ⟨hshort, hinvalid⟩ := begins rfl
    exact (decodeRun_of_nil hroom decoded).elim hshort hinvalid
  | split => exact List.cons_ne_nil _ _

/-- What building can come to. When it fails, room was made in the cache, and nothing else was done but to ask for the
next window; else there is one new trace in the room that was made. -/
theorem build_cases (bus : Bus ω) (decode : Decoder) (site : Site) (next : UInt64 → ω → Except Fault FetchWindow × ω)
    (c : TraceCache) (w : ω) :
    (∃ f w', c.build bus decode site next w = (.error f, c.makeRoom site, w') ∧
      (w' = w ∨ ∃ rip, w' = (next rip w).2)) ∨
    ∃ c' w' t is, c.build bus decode site next w = (.ok (c.slotOf site.addr site.mode), c', w') ∧
      (c.makeRoom site).Placed c' (c.slotOf site.addr site.mode) t is ∧ t.addr = site.addr ∧ t.mode = site.mode ∧
      Made bus decode site next (c.makeRoom site) w t is := by
  rw [build_eq_onBus]
  cases bus.codePage site.addr w with
  | none => exact Or.inl ⟨_, w, rfl, Or.inl rfl⟩
  | some page =>
    dsimp only
    split
    case h_1 =>
      rcases buildSplit_cases bus decode site next (c.slotOf site.addr site.mode)
          ((bus.stamps w).page (pageOf site.addr)).stamp page (c.makeRoom site) w with
        ⟨f, w', hout, -, hworld⟩ | ⟨c', w', t, i, hout, -, hp, haddr, hmode, hlen, hparted⟩
      · exact Or.inl ⟨f, w', hout, hworld⟩
      · exact Or.inr ⟨c', w', t, [i], hout, hp, haddr, hmode, .split hlen hparted⟩
    case h_2 => exact Or.inl ⟨_, w, rfl, Or.inl rfl⟩
    case h_3 run ending hshort hinvalid hrun =>
      obtain ⟨t, hp, haddr, hmode, htail, hlen, hhead⟩ := placed_buildRun bus site (c.slotOf site.addr site.mode)
        ((bus.stamps w).page (pageOf site.addr)).stamp run ending (c.makeRoom site) w
      refine Or.inr ⟨_, _, t, _, rfl, hp, haddr, hmode, .run hrun (fun hnil => ?_) htail hlen hhead⟩
      exact ⟨fun hs => hshort hnil hs, fun hi => hinvalid hnil hi⟩

end TraceCache

end TraceCore
