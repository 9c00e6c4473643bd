/-
Loads and stores by the byte. A range is accessed piece by piece, and the pieces are cut in more than one place; the
result is the one of a processor that translates each byte of the range on its own. Where some page of the range
cannot be translated, the first such page faults, and a store has changed nothing.
-/
import Mathlib.Data.Nat.Find
import TraceCore.Proofs.Exec.Torn

namespace TraceCore

/-- The bytes lie in memory at `place 0`, `place 1` and so on. -/
def Ram.Holds (ram : Ram) (place : Nat → UInt64) (bytes : List UInt8) : Prop :=
  ∀ k < bytes.length, ram.bytes[(place k).toNat]? = bytes[k]?

namespace MappedRam

/-- Where the bytes of a range lie, each of them translated on its own: `place 0`, `place 1` and so on, all in
memory. -/
structure Places (m : MappedRam) (access : Access) (cpl : UInt8) (linear : UInt64) (len : Nat)
    (place : Nat → UInt64) : Prop where
  translate : ∀ k < len, m.translate (linear + UInt64.ofNat k) access cpl = .ok (place k)
  inside : ∀ k < len, (place k).toNat < m.ram.size

/-- Some byte of a range cannot be translated, and all that can lie in memory. -/
structure Gap (m : MappedRam) (access : Access) (cpl : UInt8) (linear : UInt64) (len : Nat) : Prop where
  missing : ∃ k < len, ∃ pf, m.translate (linear + UInt64.ofNat k) access cpl = .error pf
  inside : ∀ k < len, ∀ addr, m.translate (linear + UInt64.ofNat k) access cpl = .ok addr → addr.toNat < m.ram.size

/-- The fault of the first page of a range that cannot be translated. It is for byte `k`, the first one of the range
on that page. -/
structure FirstFault (m : MappedRam) (access : Access) (cpl : UInt8) (linear : UInt64) (len k : Nat)
    (pf : PageFault) : Prop where
  lt : k < len
  fault : m.translate (linear + UInt64.ofNat k) access cpl = .error pf
  addr : pf.addr = linear + UInt64.ofNat k
  page : ∀ j < k, pageOf (linear + UInt64.ofNat j) ≠ pageOf (linear + UInt64.ofNat k)
  before : ∀ j < k, ∃ addr, m.translate (linear + UInt64.ofNat j) access cpl = .ok addr ∧ addr.toNat < m.ram.size

/-- What a store of `src` makes of memory: the bytes lie at their places, and nothing else is different. -/
structure Stores (m : MappedRam) (place : Nat → UInt64) (src : List UInt8) (m' : MappedRam) : Prop where
  mappings : m'.mappings = m.mappings
  remaps : m'.remaps = m.remaps
  size : m'.ram.size = m.ram.size
  holds : m'.ram.Holds place src
  elsewhere : ∀ i, (∀ k < src.length, i ≠ (place k).toNat) → m'.ram.bytes[i]? = m.ram.bytes[i]?

end MappedRam

/-! ## Bytes at their places -/

namespace Ram

variable {ram : Ram} {place : Nat → UInt64} {as bs : List UInt8}

theorem Holds.append (ha : ram.Holds place as) (hb : ram.Holds (fun k => place (as.length + k)) bs) :
    ram.Holds place (as ++ bs) := by
  intro k hk
  rw [List.length_append] at hk
  rw [List.getElem?_append]
  split
  case isTrue hlt => exact ha k hlt
  case isFalse hge =>
    have hplace : as.length + (k - as.length) = k := by omega
    have hbyte := hb (k - as.length) (by omega)
    dsimp only at hbyte
    rwa [hplace] at hbyte

/-- The places determine the bytes. -/
theorem Holds.unique (ha : ram.Holds place as) (hb : ram.Holds place bs) (hlen : as.length = bs.length) : as = bs := by
  apply List.ext_getElem?
  intro k
  by_cases hk : k < as.length
  · rw [← ha k hk, hb k (hlen ▸ hk)]
  · rw [List.getElem?_eq_none (by omega), List.getElem?_eq_none (by omega)]

/-- Places that are next to each other. -/
theorem holds_slice {addr : UInt64} {len : Nat} (hplace : ∀ k < len, (place k).toNat = addr.toNat + k) :
    ram.Holds place (ram.slice addr len) := by
  intro k hk
  rw [length_slice] at hk
  rw [getElem?_slice, if_pos (by omega), hplace k (by omega)]

end Ram

namespace MappedRam

variable {m m' m₁ m₂ : MappedRam} {access : Access} {cpl : UInt8} {linear addr : UInt64} {len k : Nat}
  {place : Nat → UInt64} {pf : PageFault} {src as bs : List UInt8}

/-! ## Ranges cut into pieces -/

theorem add_ofNat_add (linear : UInt64) (n k : Nat) :
    linear + UInt64.ofNat n + UInt64.ofNat k = linear + UInt64.ofNat (n + k) := by
  rw [UInt64.ofNat_add, UInt64.add_assoc]

theorem add_ofNat_zero (linear : UInt64) : linear + UInt64.ofNat 0 = linear := UInt64.add_zero linear

/-- Whoever may write may read. -/
theorem translate_read (h : m.translate linear .write cpl = .ok addr) : m.translate linear .read cpl = .ok addr := by
  unfold translate at h ⊢
  split at h
  case h_1 => exact h
  case h_2 mappings _ =>
    split at h
    case h_1 => cases h
    case h_2 mapping _ =>
      split at h
      case isFalse => cases h
      case isTrue hallows =>
        have hread : mapping.allows .read cpl = true := by
          unfold Mapping.allows at hallows ⊢
          rw [Bool.and_eq_true] at hallows ⊢
          exact ⟨rfl, hallows.2⟩
        rw [if_pos hread]
        exact h

theorem addr_of_fault (h : m.translate linear access cpl = .error pf) : pf.addr = linear := by
  unfold translate at h
  split at h
  case h_1 => cases h
  case h_2 =>
    split at h
    case h_1 => cases h; rfl
    case h_2 =>
      split at h
      case isTrue => cases h
      case isFalse => cases h; rfl

theorem Places.read (h : m.Places .write cpl linear len place) : m.Places .read cpl linear len place :=
  ⟨fun k hk => translate_read (h.translate k hk), h.inside⟩

theorem Places.stores (h : m.Places access cpl linear len place) (hm : m.Stores place src m') :
    m'.Places access cpl linear len place :=
  ⟨fun k hk => (translate_congr hm.mappings ..).trans (h.translate k hk), fun k hk => hm.size ▸ h.inside k hk⟩

theorem Places.drop {n : Nat} (h : m.Places access cpl linear len place) (hn : n ≤ len) :
    m.Places access cpl (linear + UInt64.ofNat n) (len - n) fun k => place (n + k) := by
  refine ⟨fun k hk => ?_, fun k hk => h.inside (n + k) (by omega)⟩
  rw [add_ofNat_add]
  exact h.translate (n + k) (by omega)

/-- The first piece lies in memory as it lies in its page. -/
theorem Places.piece (h : m.Places access cpl linear len place) (hpos : 0 < len) :
    m.translate linear access cpl = .ok (place 0) ∧
      (∀ k < bytesInPage linear len, (place k).toNat = (place 0).toNat + k) ∧
      m.ram.fits (place 0) (bytesInPage linear len) = true := by
  have hle := bytesInPage_le linear len
  have hn := bytesInPage_pos linear hpos
  have hfirst : m.translate linear access cpl = .ok (place 0) := by
    have := h.translate 0 hpos
    rwa [add_ofNat_zero] at this
  have hplace : ∀ k < bytesInPage linear len, (place k).toNat = (place 0).toNat + k := by
    intro k hk
    have hk' : k < toPageEnd linear := Nat.lt_of_lt_of_le hk (Nat.min_le_right ..)
    have htr := h.translate k (by omega)
    rw [translate_add hfirst hk'] at htr
    rw [toPageEnd_translate hfirst] at hk'
    rw [← Except.ok.inj htr]
    exact (pageOf_add hk').2.2.2
  refine ⟨hfirst, hplace, decide_eq_true ?_⟩
  -- the last byte of the piece lies in memory
  have hlast := h.inside (bytesInPage linear len - 1) (by omega)
  rw [hplace _ (by omega)] at hlast
  omega

/-- No two bytes of a range of at most a page lie at one place, not even if its pages are mapped to one frame. -/
theorem Places.apart (h : m.Places access cpl linear len place) (hlen : len ≤ pageSize) {i j : Nat} (hi : i < len)
    (hj : j < len) (hne : i ≠ j) : (place i).toNat ≠ (place j).toNat := by
  intro heq
  have hoffset : ∀ k < len, (place k).toNat % pageSize = (linear.toNat + k) % pageSize := by
    intro k hk
    rw [← pageOffset_eq, pageOffset_translate (h.translate k hk), pageOffset_eq, UInt64.toNat_add,
      UInt64.toNat_ofNat']
    unfold pageSize
    omega
  have hi' := hoffset i hi
  have hj' := hoffset j hj
  rw [heq] at hi'
  unfold pageSize at *
  omega

/-! ## Ranges with a gap -/

/-- The first byte that cannot be translated begins its page: had an earlier byte of the range been there, then the
whole page. -/
theorem Gap.firstFault (h : m.Gap access cpl linear len) : ∃ k pf, m.FirstFault access cpl linear len k pf := by
  classical
  have hex := h.missing
  obtain ⟨hlt, pf, hpf⟩ := Nat.find_spec hex
  have hbefore : ∀ j < Nat.find hex, ∃ addr, m.translate (linear + UInt64.ofNat j) access cpl = .ok addr ∧
      addr.toNat < m.ram.size := by
    intro j hj
    cases hok : m.translate (linear + UInt64.ofNat j) access cpl with
    | ok addr => exact ⟨addr, rfl, h.inside j (by omega) addr hok⟩
    | error pf' => exact absurd ⟨by omega, pf', hok⟩ (Nat.find_min hex hj)
  refine ⟨Nat.find hex, pf, hlt, hpf, addr_of_fault hpf, fun j hj hpage => ?_, hbefore⟩
  obtain ⟨addr, hok, -⟩ := hbefore j hj
  obtain ⟨addr', hok', -⟩ := translate_of_pageOf hok hpage.symm
  rw [hpf] at hok'
  cases hok'

theorem FirstFault.drop {n : Nat} (h : m.FirstFault access cpl linear len k pf) (hn : n ≤ k) :
    m.FirstFault access cpl (linear + UInt64.ofNat n) (len - n) (k - n) pf := by
  have hlt := h.lt
  have hk : linear + UInt64.ofNat n + UInt64.ofNat (k - n) = linear + UInt64.ofNat k := by
    rw [add_ofNat_add, Nat.add_sub_cancel' hn]
  refine ⟨by omega, hk ▸ h.fault, hk ▸ h.addr, fun j hj => ?_, fun j hj => ?_⟩
  · rw [hk, add_ofNat_add]
    exact h.page (n + j) (by omega)
  · rw [add_ofNat_add]
    exact h.before (n + j) (by omega)

/-- The first piece faults, or it lies in memory and the fault is met behind it. -/
theorem FirstFault.piece (h : m.FirstFault access cpl linear len k pf) :
    m.translate linear access cpl = .error pf ∨
      ∃ addr, m.translate linear access cpl = .ok addr ∧ m.ram.fits addr (bytesInPage linear len) = true ∧
        m.FirstFault access cpl (linear + UInt64.ofNat (bytesInPage linear len)) (len - bytesInPage linear len)
          (k - bytesInPage linear len) pf := by
  have hlt := h.lt
  have hend : bytesInPage linear len ≤ toPageEnd linear := Nat.min_le_right ..
  rcases Nat.eq_zero_or_pos k with rfl | hk
  case inl =>
    have hfault := h.fault
    rw [add_ofNat_zero] at hfault
    exact Or.inl hfault
  case inr =>
    have hn : 0 < bytesInPage linear len := bytesInPage_pos linear (by omega)
    obtain ⟨addr, hok, -⟩ := h.before 0 hk
    rw [add_ofNat_zero] at hok
    -- the page of the first byte is there, and with it the whole piece
    have hle : bytesInPage linear len ≤ k := by
      by_contra hgt
      have hbyte := translate_add hok (show k < toPageEnd linear by omega)
      rw [h.fault] at hbyte
      cases hbyte
    refine Or.inr ⟨addr, hok, decide_eq_true ?_, h.drop hle⟩
    have hlast : bytesInPage linear len - 1 < toPageEnd linear := by omega
    obtain ⟨addr', hok', hin⟩ := h.before (bytesInPage linear len - 1) (by omega)
    rw [translate_add hok hlast] at hok'
    rw [toPageEnd_translate hok] at hlast
    rw [← Except.ok.inj hok', (pageOf_add hlast).2.2.2] at hin
    omega

/-- What lies in one page faults at its first byte. -/
theorem FirstFault.whole (h : m.FirstFault access cpl linear len k pf) (hwhole : bytesInPage linear len = len) :
    m.translate linear access cpl = .error pf := by
  rcases h.piece with hfault | ⟨addr, -, -, hrest⟩
  · exact hfault
  · have := hrest.lt
    omega

/-! ## Stores cut into pieces -/

theorem stores_piece (hplace : ∀ k < src.length, (place k).toNat = addr.toNat + k)
    (hfits : m.ram.fits addr src.length = true) : m.Stores place src { m with ram := m.ram.store addr src } := by
  have hin : addr.toNat + src.length ≤ m.ram.bytes.size := of_decide_eq_true hfits
  refine ⟨rfl, rfl, Ram.size_store .., fun k hk => ?_, fun i hi => ?_⟩
  · change (overwrite m.ram.bytes addr.toNat src)[(place k).toNat]? = _
    rw [getElem?_overwrite, hplace k hk, if_pos (by omega), Nat.add_sub_cancel_left]
  · change (overwrite m.ram.bytes addr.toNat src)[i]? = _
    rw [getElem?_overwrite, if_neg]
    rintro ⟨hle, hlt, -⟩
    refine hi (i - addr.toNat) (by omega) ?_
    rw [hplace _ (by omega)]
    omega

/-- The second piece leaves the first one alone. -/
theorem Stores.append (ha : m.Stores place as m₁) (hb : m₁.Stores (fun k => place (as.length + k)) bs m₂)
    (hapart : ∀ i < as.length, ∀ j < bs.length, (place i).toNat ≠ (place (as.length + j)).toNat) :
    m.Stores place (as ++ bs) m₂ := by
  refine ⟨hb.mappings.trans ha.mappings, hb.remaps.trans ha.remaps, hb.size.trans ha.size,
    Ram.Holds.append (fun k hk => ?_) hb.holds, fun i hi => ?_⟩
  · rw [hb.elsewhere _ (hapart k hk)]
    exact ha.holds k hk
  · rw [List.length_append] at hi
    rw [hb.elsewhere i fun k hk => hi _ (by omega), ha.elsewhere i fun k hk => hi k (by omega)]

/-- A store that goes on behind its first `n` bytes. -/
theorem Stores.drop {n : Nat} (h : m.Stores place (src.take n) m₁) (hn : n ≤ src.length)
    (hplace : ∀ k < src.length - n, (place (n + k)).toNat = addr.toNat + k)
    (hfits : m.ram.fits addr (src.length - n) = true)
    (hapart : ∀ i < n, ∀ j < src.length - n, (place i).toNat ≠ (place (n + j)).toNat) :
    m.Stores place src { m₁ with ram := m₁.ram.store addr (src.drop n) } := by
  have htake : (src.take n).length = n := by rw [List.length_take, Nat.min_eq_left hn]
  have hdrop : (src.drop n).length = src.length - n := List.length_drop
  have hfits₁ : m₁.ram.fits addr (src.drop n).length = true := by
    unfold Ram.fits at hfits ⊢
    rwa [h.size, hdrop]
  have hrest : m₁.Stores (fun k => place ((src.take n).length + k)) (src.drop n)
      { m₁ with ram := m₁.ram.store addr (src.drop n) } := stores_piece (by rwa [htake, hdrop]) hfits₁
  have hboth := h.append hrest (by rwa [htake, hdrop])
  rwa [List.take_append_drop] at hboth

/-- The places determine what a store makes of memory. -/
theorem Stores.unique (h₁ : m.Stores place src m₁) (h₂ : m.Stores place src m₂) : m₁.ram.bytes = m₂.ram.bytes := by
  apply Array.ext_getElem?
  intro i
  by_cases hi : ∃ k < src.length, i = (place k).toNat
  · obtain ⟨k, hk, rfl⟩ := hi
    rw [h₁.holds k hk, h₂.holds k hk]
  · have hout : ∀ k < src.length, i ≠ (place k).toNat := fun k hk heq => hi ⟨k, hk, heq⟩
    rw [h₁.elsewhere i hout, h₂.elsewhere i hout]

end MappedRam

namespace Exec

variable {γ δ : Type} {g : Guard (Board γ δ)} {r : Running (Board γ δ)} {linear : UInt64} {len k : Nat}
  {src : List UInt8} {place : Nat → UInt64} {pf : PageFault}

/-! ## Loads -/

/-- A load gives the bytes that lie at the places. -/
theorem eval_load_places (h : r.world.mem.Places .read r.cpu.cpl linear len place) :
    ∃ bytes, eval (load Board.bus linear len) r = (.ok bytes, r) ∧ bytes.length = len ∧
      r.world.mem.ram.Holds place bytes := by
  induction len using Nat.strongRecOn generalizing linear place with
  | ind len ih =>
    unfold load
    split
    case isTrue hlen => exact ⟨[], rfl, hlen.symm, fun k hk => absurd hk (Nat.not_lt_zero k)⟩
    case isFalse hlen =>
      obtain ⟨htranslate, hplace, hfits⟩ := h.piece (Nat.pos_of_ne_zero hlen)
      have hle := bytesInPage_le linear len
      obtain ⟨rest, heval, hlength, hholds⟩ := ih _ (sub_bytesInPage_lt hlen) (h.drop hle)
      generalize bytesInPage linear len = n at *
      have hread : r.world.mem.ram.read (place 0) n = .ok (r.world.mem.ram.slice (place 0) n) := if_pos hfits
      have hslice : (r.world.mem.ram.slice (place 0) n).length = n := by
        have hin : (place 0).toNat + n ≤ r.world.mem.ram.bytes.size := of_decide_eq_true hfits
        rw [Ram.length_slice]
        omega
      refine ⟨r.world.mem.ram.slice (place 0) n ++ rest, ?_, ?_, (Ram.holds_slice hplace).append (by rwa [hslice])⟩
      · dsimp only
        rw [eval_bind, eval_translate, htranslate]
        dsimp only
        rw [eval_bind, eval_read, hread]
        dsimp only
        rw [eval_bind, heval]
        rfl
      · rw [List.length_append, hslice, hlength]
        omega

/-- A load with a gap reads up to the gap. -/
theorem eval_load_fault (h : r.world.mem.FirstFault .read r.cpu.cpl linear len k pf) :
    eval (load Board.bus linear len) r = (.error (.semantic (.pageFault pf)), r) := by
  induction len using Nat.strongRecOn generalizing linear k with
  | ind len ih =>
    have hlen : len ≠ 0 := Nat.ne_of_gt (Nat.zero_lt_of_lt h.lt)
    rw [load, dif_neg hlen, eval_bind, eval_translate]
    rcases h.piece with hfault | ⟨addr, hok, hfits, hrest⟩
    case inl => rw [hfault]
    case inr =>
      have hread : r.world.mem.ram.read addr (bytesInPage linear len) =
          .ok (r.world.mem.ram.slice addr (bytesInPage linear len)) := if_pos hfits
      rw [hok]
      dsimp only
      rw [eval_bind, eval_read, hread]
      dsimp only
      rw [eval_bind, ih _ (sub_bytesInPage_lt hlen) hrest]

/-! ## Stores -/

/-- A store puts its bytes at the places. -/
theorem eval_store_places (hg : g.Quiet) (hpos : 0 < src.length) (hlen : src.length ≤ pageSize)
    (h : r.world.mem.Places .write r.cpu.cpl linear src.length place) :
    ∃ r', eval (store Board.bus g linear src) r = (.ok (), r') ∧ r'.cpu = r.cpu ∧
      r.world.mem.Stores place src r'.world.mem := by
  obtain ⟨r₀, hcpu, hmem, hout⟩ := eval_store hg linear src r
  rw [← hmem, ← hcpu] at h
  rw [← hmem, ← hcpu, hout]
  obtain ⟨htranslate, hplace, hfits⟩ := h.piece hpos
  by_cases hwhole : bytesInPage linear src.length = src.length
  case pos =>
    rw [hwhole] at hplace hfits
    rw [if_pos hwhole, eval_put, MappedRam.put_of_fits htranslate hfits]
    exact ⟨_, rfl, rfl, MappedRam.stores_piece hplace hfits⟩
  case neg =>
    have hcross := Nat.lt_of_le_of_ne (bytesInPage_le linear src.length) hwhole
    obtain ⟨htranslate', hplace', hfits'⟩ := (h.drop hcross.le).piece (by omega)
    rw [bytesInPage_rest hcross hlen] at hplace' hfits'
    rw [if_neg hwhole, eval_crossing rfl hcross hlen, htranslate]
    dsimp only
    rw [htranslate']
    generalize bytesInPage linear src.length = n at *
    have htake : (src.take n).length = n := by rw [List.length_take, Nat.min_eq_left hcross.le]
    have hfirst := MappedRam.stores_piece (by rwa [htake]) (by rwa [htake])
    have hboth := hfirst.drop hcross.le hplace' hfits' fun i hi j hj => h.apart hlen (by omega) (by omega) (by omega)
    dsimp only at hfits' ⊢
    rw [hfits, hfits']
    exact ⟨_, rfl, rfl, hboth⟩

/-- A store with a gap changes nothing. -/
theorem eval_store_fault (hg : g.Quiet) (hlen : src.length ≤ pageSize)
    (h : r.world.mem.FirstFault .write r.cpu.cpl linear src.length k pf) :
    ∃ r', eval (store Board.bus g linear src) r = (.error (.semantic (.pageFault pf)), r') ∧ r'.cpu = r.cpu ∧
      r'.world.mem = r.world.mem := by
  obtain ⟨r₀, hcpu, hmem, hout⟩ := eval_store hg linear src r
  rw [← hmem, ← hcpu] at h
  rw [← hmem, ← hcpu, hout]
  refine ⟨r₀, ?_, rfl, rfl⟩
  by_cases hwhole : bytesInPage linear src.length = src.length
  case pos => rw [if_pos hwhole, eval_bind, eval_translate, h.whole hwhole]
  case neg =>
    have hcross := Nat.lt_of_le_of_ne (bytesInPage_le linear src.length) hwhole
    rw [if_neg hwhole, eval_crossing rfl hcross hlen]
    rcases h.piece with hfault | ⟨addr, hok, -, hrest⟩
    case inl => rw [hfault]
    case inr =>
      rw [hok]
      dsimp only
      rw [hrest.whole (bytesInPage_rest hcross hlen)]

/-! ## Byte by byte -/

/-- Loads and stores of at most a page are what they would be byte by byte, whatever is mapped where. Where each byte
of the range has its place in memory, a load gives the bytes at these places, and a store puts its bytes there and
changes nothing else, so that a load gives them back. Where bytes cannot be translated and the others lie in memory,
both fault on the first page that is missing, at the first byte of the range on it, and memory is as it was. -/
theorem load_store_bytewise (hg : g.Quiet) (hpos : 0 < src.length) (hlen : src.length ≤ pageSize) (linear : UInt64)
    (r : Running (Board γ δ)) :
    let m := r.world.mem
    let cpl := r.cpu.cpl
    let len := src.length
    let loaded := eval (load Board.bus linear len) r
    let stored := eval (store Board.bus g linear src) r
    (∀ place, m.Places .read cpl linear len place →
      ∃ bytes, loaded = (.ok bytes, r) ∧ bytes.length = len ∧ m.ram.Holds place bytes) ∧
    (m.Gap .read cpl linear len →
      ∃ k pf, m.FirstFault .read cpl linear len k pf ∧ loaded = (.error (.semantic (.pageFault pf)), r)) ∧
    (∀ place, m.Places .write cpl linear len place →
      ∃ r', stored = (.ok (), r') ∧ r'.cpu = r.cpu ∧ m.Stores place src r'.world.mem ∧
        eval (load Board.bus linear len) r' = (.ok src, r')) ∧
    (m.Gap .write cpl linear len →
      ∃ k pf r', m.FirstFault .write cpl linear len k pf ∧ stored = (.error (.semantic (.pageFault pf)), r') ∧
        r'.cpu = r.cpu ∧ r'.world.mem = m) := by
  refine ⟨fun place h => eval_load_places h, fun h => ?_, fun place h => ?_, fun h => ?_⟩
  · obtain ⟨k, pf, hfault⟩ := h.firstFault
    exact ⟨k, pf, hfault, eval_load_fault hfault⟩
  · obtain ⟨r', hstored, hcpu, hmem⟩ := eval_store_places hg hpos hlen h
    have hread := h.read.stores hmem
    rw [← hcpu] at hread
    obtain ⟨bytes, hloaded, hlength, hholds⟩ := eval_load_places hread
    rw [hholds.unique hmem.holds hlength] at hloaded
    exact ⟨r', hstored, hcpu, hmem, hloaded⟩
  · obtain ⟨k, pf, hfault⟩ := h.firstFault
    obtain ⟨r', hstored, hcpu, hmem⟩ := eval_store_fault hg hlen hfault
    exact ⟨k, pf, r', hfault, hstored, hcpu, hmem⟩

/-- Two pages on one frame, and none behind them. -/
def oneFrame : Running (Board Unit Unit) :=
  ⟨.new .protectedMode,
    ⟨(MappedRam.map { ram := .zeroPage } 0x1000 { frame := 0 }).map 0x2000 { frame := 0 }, (), (), #[{}]⟩, 0, false⟩

/-- The places of two bytes on each side of the boundary. -/
def oneFramePlace (k : Nat) : UInt64 := if k < 2 then 0xFFE + UInt64.ofNat k else UInt64.ofNat (k - 2)

theorem translate_oneFrame (linear : UInt64) (access : Access) :
    oneFrame.world.mem.translate linear access 0 =
      if pageOf linear = 1 ∨ pageOf linear = 2 then .ok (linear % 4096) else .error (.of linear false access 0) := by
  unfold oneFrame
  dsimp only
  have hallows : (⟨0, true, true, true⟩ : Mapping).allows access 0 = true := by cases access <;> rfl
  have haddress : (⟨0, true, true, true⟩ : Mapping).address linear = linear % 4096 := by simp [Mapping.address]
  rw [MappedRam.translate_map, MappedRam.translate_map, if_pos hallows, haddress]
  have hfirst : pageOf 0x1000 = 1 := rfl
  have hsecond : pageOf 0x2000 = 2 := rfl
  rw [hfirst, hsecond]
  by_cases h₁ : pageOf linear = 1
  · simp [h₁, hfirst, MappedRam.map]
  · by_cases h₂ : pageOf linear = 2 <;> simp [h₁, h₂, MappedRam.map]

theorem places_oneFrame (access : Access) : oneFrame.world.mem.Places access 0 0x1FFE 4 oneFramePlace := by
  constructor
  case translate =>
    simp only [translate_oneFrame]
    cases access <;> decide +kernel
  case inside => decide +kernel

theorem gap_oneFrame (access : Access) : oneFrame.world.mem.Gap access 0 0x2FFE 4 := by
  refine ⟨⟨2, by decide, _, (translate_oneFrame ..).trans (if_neg (by decide))⟩, fun k hk addr hok => ?_⟩
  rw [translate_oneFrame] at hok
  split at hok
  case isTrue =>
    cases hok
    have hsize : oneFrame.world.mem.ram.size = 4096 := by decide +kernel
    rw [hsize, UInt64.toNat_mod]
    exact Nat.mod_lt _ (by decide)
  case isFalse => cases hok

theorem fault_oneFrame {access : Access} (h : oneFrame.world.mem.FirstFault access 0 0x2FFE 4 k pf) :
    pf = .of 0x3000 false access 0 := by
  have hlt := h.lt
  have hfault := h.fault
  rw [translate_oneFrame] at hfault
  have hk : k = 2 := by
    by_contra hne
    rcases (by omega : k = 0 ∨ k = 1 ∨ k = 3) with rfl | rfl | rfl
    · cases hfault
    · cases hfault
    · exact h.page 2 (by decide) rfl
  subst hk
  cases hfault
  rfl

/-- Four bytes across the boundary of the two pages, which go to the end and the start of the frame and come back, and
four bytes of which the last two have no page. -/
theorem load_store_oneFrame :
    (eval (load Board.bus 0x1FFE 4) oneFrame).1 = .ok [0, 0, 0, 0] ∧
      (∃ r', eval (store Board.bus .none 0x1FFE [0x11, 0x22, 0x33, 0x44]) oneFrame = (.ok (), r') ∧
        r'.world.mem.ram.bytes[0xFFF]? = some 0x22 ∧ r'.world.mem.ram.bytes[0]? = some 0x33 ∧
        eval (load Board.bus 0x1FFE 4) r' = (.ok [0x11, 0x22, 0x33, 0x44], r')) ∧
      (eval (load Board.bus 0x2FFE 4) oneFrame).1 = .error (.semantic (.pageFault (.of 0x3000 false .read 0))) ∧
      (eval (store Board.bus .none 0x2FFE [0x11, 0x22, 0x33, 0x44]) oneFrame).1 =
        .error (.semantic (.pageFault (.of 0x3000 false .write 0))) := by
  have hquiet : (Guard.none : Guard (Board Unit Unit)).Quiet := Guard.quiet_none
  have hpos : 0 < [(0x11 : UInt8), 0x22, 0x33, 0x44].length := by decide
  have hlen : [(0x11 : UInt8), 0x22, 0x33, 0x44].length ≤ pageSize := by decide
  obtain ⟨hload, -, hstore, -⟩ := load_store_bytewise hquiet hpos hlen 0x1FFE oneFrame
  obtain ⟨-, hload', -, hstore'⟩ := load_store_bytewise hquiet hpos hlen 0x2FFE oneFrame
  refine ⟨?_, ?_, ?_, ?_⟩
  · obtain ⟨bytes, hloaded, hlength, hholds⟩ := hload _ (places_oneFrame .read)
    have hzero : oneFrame.world.mem.ram.Holds oneFramePlace [0, 0, 0, 0] := by
      unfold Ram.Holds
      decide +kernel
    rw [hholds.unique hzero hlength] at hloaded
    exact congrArg Prod.fst hloaded
  · obtain ⟨r', hstored, -, hmem, hloaded⟩ := hstore _ (places_oneFrame .write)
    exact ⟨r', hstored, hmem.holds 1 (by decide), hmem.holds 2 (by decide), hloaded⟩
  · obtain ⟨k, pf, hfirst, hfault⟩ := hload' (gap_oneFrame .read)
    rw [fault_oneFrame hfirst] at hfault
    exact congrArg Prod.fst hfault
  · obtain ⟨k, pf, r', hfirst, hfault, -⟩ := hstore' (gap_oneFrame .write)
    rw [fault_oneFrame hfirst] at hfault
    exact congrArg Prod.fst hfault

end Exec

end TraceCore
