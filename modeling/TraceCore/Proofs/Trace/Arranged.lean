/-
How the traces of a cache lie. Each is in the slot of its key, with a stretch of the pool to itself, and its snapshots
have the chunks of its bytes and no others. Whatever is asked of the cache and done to the world around it, it stays so:
records are only ever added behind the pool, which is emptied together with all slots.
-/
import TraceCore.Proofs.Memory.Chunk
import TraceCore.Proofs.Trace.Straight

namespace TraceCore

/-! ## The bytes of a trace -/

/-- The snapshot is of the page of `addr`, and it has exactly the chunks that hold one of the `len` bytes from there on.
All of them lie in the page. -/
structure Snapshot.Covers (snap : Snapshot) (addr : UInt64) (len : Nat) : Prop where
  page : snap.page = pageOf addr
  inside : pageOffset addr + len ≤ pageSize
  chunks : ∀ j, hasChunk snap.mask j = true ↔ ∃ k < len, (pageOffset addr + k) / chunkSize = j

theorem Snapshot.covers_touchedChunks {addr : UInt64} {len : Nat} (stamp : UInt32)
    (h : pageOffset addr + len ≤ pageSize) : Snapshot.Covers ⟨pageOf addr, stamp, touchedChunks addr len⟩ addr len := by
  refine ⟨rfl, h, fun j => (hasChunk_touchedChunks addr len j).trans ⟨?_, ?_⟩⟩
  · rintro ⟨x, hfirst, hlast, -, rfl⟩
    exact ⟨x - pageOffset addr, by omega, by rw [Nat.add_sub_cancel' hfirst]⟩
  · rintro ⟨k, hk, rfl⟩
    exact ⟨pageOffset addr + k, Nat.le_add_right _ _, by omega, by omega, rfl⟩

/-- Where an instruction that did not end in its window is cut, and where it goes on. -/
structure Seam where
  /-- Bytes before the cut. -/
  cut : Nat
  /-- Address of the first byte behind it. -/
  rest : UInt64

/-- The seam at the end of a site's bytes, as the next window shows it. -/
def Site.seam {ω : Type} (site : Site) (next : UInt64 → ω → Except Fault FetchWindow × ω) (w : ω) : Option Seam :=
  match site.beyond next w with
  | .ok (some (rest, _)) => some ⟨site.remaining, rest⟩
  | _ => none

namespace Trace

/-- The snapshots of the trace have the chunks of its bytes, which lie in one page from its address on, or on the two
sides of a seam. -/
inductive Covered (t : Trace) (seam : Option Seam) : Prop
  | whole (tail : t.tail = none) (head : t.head.Covers t.addr t.byteLen)
  | parted (cut : Nat) (rest : UInt64) (second : Snapshot) (seam_eq : seam = some ⟨cut, rest⟩)
      (tail : t.tail = some second) (crosses : cut < t.byteLen) (head : t.head.Covers t.addr cut)
      (behind : second.Covers rest (t.byteLen - cut))

/-- The shape of a trace with its records, where `seams` tells the seam for each key. -/
structure Shaped (room : Nat) (seams : UInt64 → FetchMode → Option Seam) (t : Trace) (is : List Instr) : Prop where
  records : is.length = t.len
  nonempty : 0 < t.len
  fits : t.len ≤ room
  byteLen : t.byteLen = Ram.bytesOf is
  /-- Control goes on behind all records but the last. -/
  inner : ∀ i ∈ is.dropLast, i.ends = false
  single : t.split = true → t.len = 1
  covered : t.Covered (seams t.addr t.mode)

variable {t : Trace} {room : Nat} {seams seams' : UInt64 → FetchMode → Option Seam} {is : List Instr}

theorem stampless_shaped : Stampless (Shaped room seams) := by
  intro stamps t t' is hrefresh h
  obtain ⟨headStamp, tailStamp, rfl⟩ := refresh_eq hrefresh
  refine ⟨h.records, h.nonempty, h.fits, h.byteLen, h.inner, fun hsplit => h.single (by simpa [split] using hsplit), ?_⟩
  cases h.covered with
  | whole tail head => exact .whole (by simp [tail]) ⟨head.page, head.inside, head.chunks⟩
  | parted cut rest second seam_eq tail crosses head behind =>
    exact .parted cut rest { second with stamp := tailStamp } seam_eq (by simp [tail]) crosses
      ⟨head.page, head.inside, head.chunks⟩ ⟨behind.page, behind.inside, behind.chunks⟩

/-- Only the seam for its own key counts. -/
theorem Shaped.congr (h : t.Shaped room seams is) (hseam : seams' t.addr t.mode = seams t.addr t.mode) :
    t.Shaped room seams' is :=
  ⟨h.records, h.nonempty, h.fits, h.byteLen, h.inner, h.single, by rw [hseam]; exact h.covered⟩

/-- No trace has more bytes than its two pages. -/
theorem Covered.byteLen_le {seam : Option Seam} (h : t.Covered seam) : t.byteLen ≤ 2 * pageSize := by
  cases h with
  | whole _ head =>
    have := head.inside
    omega
  | parted cut rest second _ _ _ head behind =>
    have := head.inside
    have := behind.inside
    omega

end Trace

namespace TraceCache

variable {ω : Type} {c c' : TraceCache} {config : CoreConfig} {seams seams' : UInt64 → FetchMode → Option Seam}
  {site : Site} {t : Trace} {is : List Instr} {slot : Nat} {stamps : StampTable}

/-! ## The shape of a new trace -/

/-- What a run goes on with keeps to the page and to the room that are left, and only its last record may end it. -/
structure Continued (c : TraceCache) (site : Site) (room : Nat) (run : List Instr) (ending : RunEnd) : Prop where
  length_le : (run ++ c.metInstrs ending).length ≤ room
  bytes : Ram.bytesOf (c.metInstrs ending) = ((c.met ending).map (·.byteLen)).getD 0
  inside : pageOffset site.addr + Ram.bytesOf (run ++ c.metInstrs ending) ≤ pageSize
  inner : ∀ i ∈ (run ++ c.metInstrs ending).dropLast, i.ends = false

theorem continued_of_shape {run : List Instr} {ending : RunEnd}
    (h : c.Every config (Trace.Shaped config.maxTraceLen seams)) (hin : site.remaining ≤ toPageEnd site.addr)
    (hshape : RunShape (c.joinable stamps site.mode) config.maxTraceLen site.addr site.remaining run ending) :
    c.Continued site config.maxTraceLen run ending := by
  have hoffset := pageOffset_lt site.addr
  have hbytes := hshape.bytes_le
  cases hmet : c.met ending with
  | none =>
    have hnil : c.metInstrs ending = [] := by simp [metInstrs, hmet]
    refine ⟨?_, ?_, ?_, ?_⟩ <;> rw [hnil]
    · simpa using hshape.length_le
    · rw [hmet]
      rfl
    · rw [List.append_nil]
      unfold toPageEnd at hin
      omega
    · simpa using hshape.inner
  | some t =>
    cases ending with
    | meets s =>
      obtain ⟨-, hfull, left, hleft, hmeet⟩ := hshape.meets s rfl
      obtain ⟨t', hs, haddr, -, htail, hlen, -⟩ := check_of_joinable hmeet
      obtain rfl : t' = t := Option.some.inj (hs.symm.trans hmet)
      have hinstrs : c.metInstrs (.meets s) = c.instrs t' := by simp [metInstrs, hmet]
      have ht := h.all s t' hs
      have hmax : 0 < maxInstrLen := by decide
      obtain ⟨-, hoff, -, -⟩ := pageOf_add (show Ram.bytesOf run < toPageEnd site.addr by omega)
      have hinside : pageOffset t'.addr + t'.byteLen ≤ pageSize := by
        cases ht.covered with
        | whole _ head => exact head.inside
        | parted _ _ _ _ tail => rw [tail] at htail; cases htail
      refine ⟨?_, ?_, ?_, ?_⟩ <;> rw [hinstrs]
      · rw [List.length_append, ht.records]
        omega
      · rw [hmet]
        exact ht.byteLen.symm
      · rw [haddr, hoff] at hinside
        rw [Ram.bytesOf_append, ← ht.byteLen]
        omega
      · have hne : c.instrs t' ≠ [] := fun hnil => by
          have hrecords := ht.records
          have hpos := ht.nonempty
          rw [hnil, List.length_nil] at hrecords
          omega
        intro i hi
        rw [List.dropLast_append_of_ne_nil hne] at hi
        have hends : RunEnd.meets s ≠ .ended := by simp
        exact (List.mem_append.1 hi).elim (hshape.plain hends i) (ht.inner i)
    | _ => cases hmet

/-- A new trace has the shape, with the seam that its site shows. -/
theorem Made.shaped {bus : Bus ω} {decode : Decoder} {next : UInt64 → ω → Except Fault FetchWindow × ω} {w : ω}
    (h : Made bus decode site next c w t is) (hc : c.Every config (Trace.Shaped config.maxTraceLen seams))
    (hpos : 0 < config.maxTraceLen) (hin : site.remaining ≤ toPageEnd site.addr) (haddr : t.addr = site.addr)
    (hmode : t.mode = site.mode) (hlen : t.len = is.length) (hseam : seams' site.addr site.mode = site.seam next w) :
    t.Shaped config.maxTraceLen seams' is := by
  have hne := h.ne_nil (by rw [hc.room]; exact hpos)
  have hlenPos : 0 < t.len := by
    rw [hlen]
    exact List.length_pos_iff.2 hne
  have hoffset := pageOffset_lt site.addr
  cases h with
  | @run page run ending decoded begins tail byteLen head =>
    have hshape := shape_decodeRun decode site.mode page (c.joinable (bus.stamps w) site.mode) c.maxTraceLen site.addr
      (pageOffset site.addr) site.remaining
    rw [decoded, hc.room] at hshape
    have hcont := continued_of_shape hc hin hshape
    have hbytes : t.byteLen = Ram.bytesOf (run ++ c.metInstrs ending) := by
      rw [byteLen, Ram.bytesOf_append, hcont.bytes]
    refine ⟨hlen.symm, hlenPos, by rw [hlen]; exact hcont.length_le, hbytes, hcont.inner, fun hsplit => ?_,
      .whole tail ?_⟩
    · rw [Trace.split, tail] at hsplit
      cases hsplit
    · rw [haddr, head]
      exact Snapshot.covers_touchedChunks _ (by rw [hbytes]; exact hcont.inside)
  | @split page i byteLen parted =>
    have hshown : (page.window (pageOffset site.addr) site.remaining).length = site.remaining :=
      PageView.length_window (by unfold toPageEnd at hin; omega)
    rw [hshown] at parted
    refine ⟨hlen.symm, hlenPos, by rw [hlen]; exact hpos, by simpa using byteLen, fun j hj => absurd hj List.not_mem_nil,
      fun _ => hlen, ?_⟩
    cases parted with
    | whole tail fits head =>
      refine .whole tail ?_
      rw [haddr, head, byteLen]
      exact Snapshot.covers_touchedChunks _ (by unfold toPageEnd at hin; omega)
    | parted window offset tailStamp crosses opens enters head tail fits =>
      refine .parted site.remaining (window.address offset) _ ?_ tail (by rw [byteLen]; exact crosses) ?_ ?_
      · rw [haddr, hmode, hseam]
        unfold Site.seam Site.beyond
        dsimp only
        rw [opens]
        dsimp only [Except.map]
        rw [enters]
        rfl
      · rw [haddr, head]
        exact Snapshot.covers_touchedChunks _ (by unfold toPageEnd at hin; omega)
      · rw [byteLen]
        exact Snapshot.covers_touchedChunks _ fits

/-! ## The cache -/

/-- Each trace is in the slot of its key. -/
def AtHome (c : TraceCache) : Prop := ∀ s t, c.trace? s = some t → c.slotOf t.addr t.mode = s

theorem AtHome.aged (h : c.AtHome) (ha : Aged stamps c c') : c'.AtHome := by
  intro s t' hs
  obtain ⟨t, ht, hsame⟩ := ha.traces s t' hs
  rw [ha.slotOf, hsame.addr, hsame.mode]
  exact h s t ht

theorem AtHome.placed (h : c.AtHome) (hp : c.Placed c' slot t is) (hslot : slot < c.slots.size)
    (hhome : c.slotOf t.addr t.mode = slot) : c'.AtHome := by
  intro s t₁ hs
  have hsize : ∀ addr mode, c'.slotOf addr mode = c.slotOf addr mode := fun addr mode => by
    unfold TraceCache.slotOf
    rw [hp.slots, Array.size_setIfInBounds]
  rw [hp.trace? hslot] at hs
  rw [hsize]
  split at hs
  case isTrue heq =>
    cases hs
    exact hhome.trans heq
  case isFalse => exact h s t₁ hs

/-- The arrangement of a cache of the size that `config` asks for. -/
structure Arranged (c : TraceCache) (config : CoreConfig) (seams : UInt64 → FetchMode → Option Seam) : Prop where
  every : c.Every config (Trace.Shaped config.maxTraceLen seams)
  capacity : c.capacity = config.recordPool
  pool_le : c.pool.size ≤ config.recordPool
  home : c.AtHome
  /-- No two traces share a record. -/
  apart : ∀ s s' t t', c.trace? s = some t → c.trace? s' = some t' → s ≠ s' →
    t.start + t.len ≤ t'.start ∨ t'.start + t'.len ≤ t.start

theorem arranged_new (config : CoreConfig) (seams : UInt64 → FetchMode → Option Seam) :
    (new config).Arranged config seams := by
  have hempty : ∀ s, (new config).trace? s = .none := by
    intro s
    simp only [trace?, new, Array.getElem?_replicate]
    split <;> rfl
  refine ⟨every_new config _, rfl, Nat.zero_le _, fun s t hs => ?_, fun s s' t t' hs => ?_⟩ <;> simp [hempty] at hs

namespace Arranged

theorem aged (h : c.Arranged config seams) (ha : Aged stamps c c') : c'.Arranged config seams := by
  refine ⟨h.every.aged Trace.stampless_shaped ha, ha.capacity.trans h.capacity, ?_, h.home.aged ha,
    fun s s' t t' hs hs' hne => ?_⟩
  · rcases ha.pool with hpool | ⟨hpool, -⟩
    · rw [hpool]
      exact h.pool_le
    · rw [hpool]
      exact Nat.zero_le _
  · obtain ⟨t₀, ht₀, hsame⟩ := ha.traces s t hs
    obtain ⟨t₀', ht₀', hsame'⟩ := ha.traces s' t' hs'
    rw [hsame.start, hsame.len, hsame'.start, hsame'.len]
    exact h.apart s s' t₀ t₀' ht₀ ht₀' hne

theorem setLink (h : c.Arranged config seams) (stamps : StampTable) (index slot : Nat) (addr : UInt64) :
    (c.setLink stamps index slot addr).Arranged config seams :=
  ⟨h.every.setLink .., h.capacity, by simpa [TraceCache.setLink] using h.pool_le, h.home, h.apart⟩

theorem chain (h : c.Arranged config seams) (l : Linker) (stamps : StampTable) (index : Nat) (addr : UInt64)
    (mode : FetchMode) (mayFollow : Bool) :
    (l.chain c stamps index addr mode mayFollow).2.2.Arranged config seams := by
  have hlook := h.aged (.lookup stamps c addr mode)
  suffices hall : ∀ r c', c.Chains stamps index addr mode mayFollow r c' → c'.Arranged config seams from
    hall _ _ (chains_chain ..)
  intro r c' hchains
  cases hchains with
  | stays => exact h
  | follows stats => exact h.aged (.withStats stamps c stats)
  | misses => exact hlook
  | links stats => exact (hlook.setLink ..).aged (.withStats stamps _ stats)

/-- The seam of a key that no trace has may be told anew. -/
theorem reseam (h : c.Arranged config seams)
    (hsame : ∀ s t, c.trace? s = some t → seams' t.addr t.mode = seams t.addr t.mode) : c.Arranged config seams' :=
  ⟨⟨h.every.slots, h.every.room, h.every.inPool, fun s t hs => (h.every.all s t hs).congr (hsame s t hs)⟩, h.capacity,
    h.pool_le, h.home, h.apart⟩

/-- A new trace, behind all records that there are. -/
theorem placed (h : c.Arranged config seams) (hp : c.Placed c' slot t is) (hcapacity : c'.capacity = c.capacity)
    (hslot : slot < c.slots.size) (hhome : c.slotOf t.addr t.mode = slot)
    (hshaped : t.Shaped config.maxTraceLen seams is) (hfits : c.pool.size + config.maxTraceLen ≤ config.recordPool) :
    c'.Arranged config seams := by
  have hsize : c'.pool.size = c.pool.size + is.length := by
    rw [← Array.length_toList, hp.pool]
    simp
  have hlen := hshaped.fits
  rw [hp.len] at hlen
  refine ⟨h.every.placed hp hslot hshaped, hcapacity.trans h.capacity, by rw [hsize]; omega,
    h.home.placed hp hslot hhome, fun s s' t₁ t₂ hs hs' hne => ?_⟩
  rw [hp.trace? hslot] at hs hs'
  split at hs
  case isTrue heq =>
    cases hs
    rw [if_neg fun heq' => hne (heq.symm.trans heq')] at hs'
    have := h.every.inPool s' t₂ hs'
    rw [hp.start]
    exact Or.inr this
  case isFalse =>
    split at hs'
    case isTrue =>
      cases hs'
      have := h.every.inPool s t₁ hs
      rw [hp.start]
      exact Or.inl this
    case isFalse => exact h.apart s s' t₁ t₂ hs hs' hne

end Arranged

/-- Once room was made, another trace fits. -/
theorem Arranged.pool_makeRoom_le (h : c.Arranged config seams) (hbounds : config.Bounds) (site : Site) :
    (c.makeRoom site).pool.size + config.maxTraceLen ≤ config.recordPool := by
  have hpool := hbounds.pool
  by_cases hfull : c.capacity < c.pool.size + c.maxTraceLen + 1
  · rw [(makeRoom_full site hfull).1]
    simp only [Array.size_empty]
    omega
  · rw [(makeRoom_fits site hfull).1]
    rw [h.capacity, h.every.room] at hfull
    omega

/-- The seams once a trace for a site was built, or could not be. -/
def withSeam (seams : UInt64 → FetchMode → Option Seam) (site : Site) (seam : Option Seam) :
    UInt64 → FetchMode → Option Seam :=
  fun addr mode => if addr = site.addr ∧ mode = site.mode then seam else seams addr mode

theorem withSeam_self (seams : UInt64 → FetchMode → Option Seam) (site : Site) (seam : Option Seam) :
    withSeam seams site seam site.addr site.mode = seam :=
  if_pos ⟨rfl, rfl⟩

/-- Where room was made for the trace of a site, no trace has its key. -/
theorem Arranged.makeRoom (h : c.Arranged config seams) (site : Site) (seam : Option Seam) :
    (c.makeRoom site).Arranged config (withSeam seams site seam) := by
  have haged := Aged.makeRoom ⟨#[], 0⟩ c site
  have hroom := h.aged haged
  refine hroom.reseam fun s t hs => if_neg ?_
  rintro ⟨haddr, hmode⟩
  have hhome := hroom.home s t hs
  rw [haged.slotOf, haddr, hmode] at hhome
  rw [← hhome, trace?_makeRoom_self] at hs
  cases hs

theorem Arranged.build (h : c.Arranged config seams) (hbounds : config.Bounds) (bus : Bus ω) (decode : Decoder)
    (hin : site.remaining ≤ toPageEnd site.addr) (next : UInt64 → ω → Except Fault FetchWindow × ω) (w : ω) :
    (c.build bus decode site next w).2.1.Arranged config (withSeam seams site (site.seam next w)) := by
  have hroom := h.makeRoom site (site.seam next w)
  rcases build_cases bus decode site next c w with ⟨f, w', hout, -⟩ | ⟨c', w', t, is, hout, hp, haddr, hmode, hmade⟩
  · rw [hout]
    exact hroom
  · rw [hout]
    have hslotOf := (Aged.makeRoom ⟨#[], 0⟩ c site).slotOf site.addr site.mode
    have hslot := (c.makeRoom site).slotOf_lt (by rw [hroom.every.slots]; exact hbounds.slots) site.addr site.mode
    rw [hslotOf] at hslot
    refine hroom.placed hp hp.capacity hslot (by rw [haddr, hmode, hslotOf]) ?_ (h.pool_makeRoom_le hbounds site)
    exact hmade.shaped hroom.every hbounds.room hin haddr hmode hp.len (withSeam_self ..)

/-- Whether it is found or built. -/
theorem Arranged.ensure (h : c.Arranged config seams) (hbounds : config.Bounds) (bus : Bus ω) (decode : Decoder)
    (hin : site.remaining ≤ toPageEnd site.addr) (next : UInt64 → ω → Except Fault FetchWindow × ω) (w : ω) :
    (c.ensure bus decode site next w).2.1.Arranged config
      (if (c.lookup (bus.stamps w) site.addr site.mode).1.isSome then seams
        else withSeam seams site (site.seam next w)) := by
  have hlook := h.aged (.lookup (bus.stamps w) c site.addr site.mode)
  unfold TraceCache.ensure
  generalize c.lookup (bus.stamps w) site.addr site.mode = out at hlook ⊢
  obtain ⟨r, d⟩ := out
  cases r with
  | some slot => exact hlook
  | none => exact hlook.build hbounds bus decode hin next w

end TraceCache

/-! ## Sessions -/

/-- What a cache can be asked for, and what may happen in the world around it. -/
inductive CacheOp (ω : Type) where
  | ensure (decode : Decoder) (site : Site) (next : UInt64 → ω → Except Fault FetchWindow × ω)
  | lookup (addr : UInt64) (mode : FetchMode)
  | chain (linker : Linker) (index : Nat) (addr : UInt64) (mode : FetchMode) (mayFollow : Bool)
  | flush
  /-- Anything but the cache: stores, code that others register, the stamps forgotten. -/
  | outside (f : ω → ω)

/-- The operation asks for no trace of bytes behind the end of a page. -/
def CacheOp.InPage {ω : Type} : CacheOp ω → Prop
  | .ensure _ site _ => site.remaining ≤ toPageEnd site.addr
  | _ => True

/-- A cache in use. Beside it and its world stands what it was told of the bytes behind each site when it last had to
build a trace there; the cache does not read that. -/
structure Session (ω : Type) where
  cache : TraceCache
  world : ω
  seams : UInt64 → FetchMode → Option Seam

namespace Session

variable {ω : Type} {bus : Bus ω} {config : CoreConfig}

def start (config : CoreConfig) (w : ω) : Session ω := ⟨.new config, w, fun _ _ => none⟩

def step (bus : Bus ω) (s : Session ω) : CacheOp ω → Session ω
  | .ensure decode site next =>
    let found := (s.cache.lookup (bus.stamps s.world) site.addr site.mode).1.isSome
    let (_, cache, world) := s.cache.ensure bus decode site next s.world
    let seams := if found then s.seams else TraceCache.withSeam s.seams site (site.seam next s.world)
    { cache, world, seams }
  | .lookup addr mode => { s with cache := (s.cache.lookup (bus.stamps s.world) addr mode).2 }
  | .chain linker index addr mode mayFollow =>
    { s with cache := (linker.chain s.cache (bus.stamps s.world) index addr mode mayFollow).2.2 }
  | .flush => { s with cache := s.cache.flush }
  | .outside f => { s with world := f s.world }

def run (bus : Bus ω) (s : Session ω) (ops : List (CacheOp ω)) : Session ω := ops.foldl (step bus) s

/-- What each operation keeps, a run of them keeps. -/
theorem run_keeps (bus : Bus ω) {P : Session ω → Prop} {ops : List (CacheOp ω)} {s : Session ω}
    (hstep : ∀ s, ∀ op ∈ ops, P s → P (s.step bus op)) (h : P s) : P (s.run bus ops) := by
  induction ops generalizing s with
  | nil => exact h
  | cons op ops ih =>
    exact ih (fun s op' hop => hstep s op' (List.mem_cons_of_mem op hop)) (hstep s op List.mem_cons_self h)

theorem arranged_step (bus : Bus ω) {s : Session ω} (h : s.cache.Arranged config s.seams) (hbounds : config.Bounds)
    {op : CacheOp ω} (hin : op.InPage) : (s.step bus op).cache.Arranged config (s.step bus op).seams := by
  cases op with
  | ensure decode site next => exact h.ensure hbounds bus decode hin next s.world
  | lookup addr mode => exact h.aged (.lookup ..)
  | chain linker index addr mode mayFollow => exact h.chain ..
  | flush => exact h.aged (.flush (bus.stamps s.world) _)
  | outside f => exact h

/-- The invariant of a cache: in every session on a bus of any kind its traces are arranged, and their numbers fit the
words that they are kept in. -/
theorem arranged_run (hvalid : config.validate = .ok ()) (bus : Bus ω) (w : ω) {ops : List (CacheOp ω)}
    (hin : ∀ op ∈ ops, op.InPage) :
    ((start config w).run bus ops).cache.Arranged config ((start config w).run bus ops).seams ∧
      ∀ slot t, ((start config w).run bus ops).cache.trace? slot = some t →
        t.start < UInt32.size ∧ t.len < UInt16.size ∧ t.byteLen < UInt32.size := by
  have hbounds := CoreConfig.bounds_of_validate hvalid
  have h := run_keeps bus (P := fun s => s.cache.Arranged config s.seams)
    (fun s op hop hs => arranged_step bus hs hbounds (hin op hop))
    (show (start config w).cache.Arranged config (start config w).seams from TraceCache.arranged_new config _)
  refine ⟨h, fun slot t hs => ?_⟩
  have hshaped := h.every.all slot t hs
  have hpool := h.every.inPool slot t hs
  have hle := h.pool_le
  have hlt := hbounds.pool_lt
  have hfits := hshaped.fits
  have hroom := hbounds.room_le
  have hbytes := hshaped.covered.byteLen_le
  refine ⟨by omega, ?_, ?_⟩
  · show t.len < 65536
    unfold maxTraceLenLimit at hroom
    omega
  · show t.byteLen < 4294967296
    unfold pageSize at hbytes
    omega

/-- Two traces of the resting page, a store between them, and a branch from the one to the other. -/
def restingOps : List (CacheOp (Board Unit Unit)) :=
  [.ensure decodeInstr (TraceCache.restingSite 1) TraceCache.nothingBehind,
    .outside fun w => (Board.bus.write 0x80 [0x90] w).2,
    .ensure decodeInstr (TraceCache.restingSite 0) TraceCache.nothingBehind,
    .chain ⟨true, 1, 0⟩ 1 0 (TraceCache.restingSite 0).mode true]

theorem arranged_resting :
    ((start TraceCache.restingConfig TraceCache.restingBoard).run Board.bus restingOps).cache.live = 2 ∧
      ((start TraceCache.restingConfig TraceCache.restingBoard).run Board.bus restingOps).cache.Arranged
        TraceCache.restingConfig ((start TraceCache.restingConfig TraceCache.restingBoard).run Board.bus restingOps).seams := by
  refine ⟨by decide +kernel, (arranged_run rfl Board.bus TraceCache.restingBoard fun op hop => ?_).1⟩
  simp only [restingOps, List.mem_cons, List.not_mem_nil, or_false] at hop
  rcases hop with rfl | rfl | rfl | rfl
  · exact Nat.le_refl _
  · trivial
  · exact Nat.le_refl _
  · trivial

end Session

end TraceCore
