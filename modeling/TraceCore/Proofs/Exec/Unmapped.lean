/-
Loads and stores without mappings. A linear address is the physical one then, so what crosses pages is one range all the
same: it is loaded or stored if memory has all of it, and else refused.
-/
import TraceCore.Proofs.Exec.Bytewise

namespace TraceCore

namespace Word

theorem ofBytes_lt {bs : List UInt8} (h : bs.length ≤ 8) : (ofBytes bs).toNat < 2 ^ (8 * bs.length) := by
  induction bs with
  | nil => decide
  | cons b bs ih =>
    rw [List.length_cons] at h
    have hb := b.toNat_lt
    have hrest := ih (by omega)
    have hle : 2 ^ (8 * bs.length) ≤ 2 ^ 56 := Nat.pow_le_pow_right Nat.two_pos (by omega)
    rw [ofBytes, List.length_cons, Nat.mul_succ, Nat.pow_add, UInt64.toNat_add, UInt64.toNat_mul,
      UInt8.toNat_toUInt64, show UInt64.toNat 256 = 256 from rfl]
    omega

/-- The bytes of a word that is made of bytes are these. -/
theorem toBytes_ofBytes {bs : List UInt8} (h : bs.length ≤ 8) : toBytes bs.length (ofBytes bs) = bs := by
  induction bs with
  | nil => rfl
  | cons b bs ih =>
    rw [List.length_cons] at h
    have hrest : (ofBytes bs).toNat < 2 ^ (8 * bs.length) := ofBytes_lt (by omega)
    have hle : 2 ^ (8 * bs.length) ≤ 2 ^ 56 := Nat.pow_le_pow_right Nat.two_pos (by omega)
    have hb := b.toNat_lt
    have hlow : (b.toUInt64 + 256 * ofBytes bs).toUInt8 = b := by
      apply UInt8.toNat_inj.1
      rw [UInt64.toNat_toUInt8, UInt64.toNat_add, UInt64.toNat_mul, UInt8.toNat_toUInt64,
        show UInt64.toNat 256 = 256 from rfl]
      omega
    have hhigh : (b.toUInt64 + 256 * ofBytes bs) / 256 = ofBytes bs := by
      apply UInt64.toNat_inj.1
      rw [UInt64.toNat_div, UInt64.toNat_add, UInt64.toNat_mul, UInt8.toNat_toUInt64,
        show UInt64.toNat 256 = 256 from rfl]
      omega
    rw [ofBytes, List.length_cons, toBytes, hlow, hhigh, ih (by omega)]

end Word

namespace MappedRam

variable {m : MappedRam}

theorem translate_unmapped (h : m.mappings = none) (linear : UInt64) (access : Access) (cpl : UInt8) :
    m.translate linear access cpl = .ok linear := by
  unfold translate
  rw [h]

/-- The places of a range that memory has all bytes of. -/
theorem places_unmapped (h : m.mappings = none) (hsize : m.ram.size < 2 ^ 64) {linear : UInt64} {len : Nat}
    (hfits : linear.toNat + len ≤ m.ram.size) (access : Access) (cpl : UInt8) :
    m.Places access cpl linear len (fun k => linear + UInt64.ofNat k) ∧
      ∀ k < len, (linear + UInt64.ofNat k).toNat = linear.toNat + k := by
  have hplace : ∀ k < len, (linear + UInt64.ofNat k).toNat = linear.toNat + k :=
    fun k hk => Ram.toNat_add_ofNat (by omega)
  refine ⟨⟨fun k hk => translate_unmapped h .., fun k hk => ?_⟩, hplace⟩
  rw [hplace k hk]
  omega

end MappedRam

namespace Exec

variable {γ δ : Type} {g : Guard (Board γ δ)} {r : Running (Board γ δ)} {linear : UInt64} {len : Nat} {src : List UInt8}

/-- What begins with a part that faults does. -/
theorem refused_bind {ω α β : Type} {m : Exec ω α} {f : α → Exec ω β} {r : Running ω}
    (h : ∃ fault, (eval m r).1 = .error fault) : ∃ fault, (eval (m >>= f) r).1 = .error fault := by
  obtain ⟨fault, hfault⟩ := h
  rw [eval_bind]
  rcases hout : eval m r with ⟨e | a, r₁⟩
  · exact ⟨e, rfl⟩
  · rw [hout] at hfault
    cases hfault

/-! ## Loads -/

/-- A load that memory has all bytes of. -/
theorem eval_load_unmapped (hmap : r.world.mem.mappings = none) (hsize : r.world.mem.ram.size < 2 ^ 64)
    (hfits : linear.toNat + len ≤ r.world.mem.ram.size) :
    eval (load Board.bus linear len) r = (.ok (r.world.mem.ram.slice linear len), r) := by
  obtain ⟨hplaces, hplace⟩ := MappedRam.places_unmapped hmap hsize hfits .read r.cpu.cpl
  obtain ⟨bytes, heval, hlength, hholds⟩ := eval_load_places hplaces
  have hslice : (r.world.mem.ram.slice linear len).length = len := by
    unfold Ram.size at hfits
    rw [Ram.length_slice]
    omega
  rw [heval, hholds.unique (Ram.holds_slice hplace) (hlength.trans hslice.symm)]

/-- A load that memory lacks a byte of. -/
theorem eval_load_refused (hmap : r.world.mem.mappings = none) (hsize : r.world.mem.ram.size < 2 ^ 64)
    (hpos : 0 < len) (hnot : r.world.mem.ram.size < linear.toNat + len) :
    ∃ fault, (eval (load Board.bus linear len) r).1 = .error fault := by
  induction len using Nat.strongRecOn generalizing linear with
  | ind len ih =>
    have hlen : len ≠ 0 := Nat.ne_of_gt hpos
    unfold load
    rw [dif_neg hlen]
    have hle := bytesInPage_le linear len
    have hlt : len - bytesInPage linear len < len := sub_bytesInPage_lt hlen
    generalize bytesInPage linear len = n at hle hlt ⊢
    dsimp only
    rw [eval_bind, eval_translate, MappedRam.translate_unmapped hmap]
    dsimp only
    rw [eval_bind, eval_read]
    by_cases hin : linear.toNat + n ≤ r.world.mem.ram.size
    · have hread : r.world.mem.ram.read linear n = .ok (r.world.mem.ram.slice linear n) := if_pos (decide_eq_true hin)
      have hnext : (linear + UInt64.ofNat n).toNat = linear.toNat + n := Ram.toNat_add_ofNat (by omega)
      rw [hread]
      exact refused_bind (ih _ hlt (by omega) (by omega))
    · have hread : r.world.mem.ram.read linear n = .error (.outOfRange linear n r.world.mem.ram.size) :=
        if_neg fun h => hin (of_decide_eq_true h)
      rw [hread]
      exact ⟨_, rfl⟩

/-! ## Stores -/

/-- A store that memory has all bytes of. -/
theorem eval_store_unmapped (hg : g.Quiet) (hmap : r.world.mem.mappings = none)
    (hsize : r.world.mem.ram.size < 2 ^ 64) (hpos : 0 < src.length) (hlen : src.length ≤ pageSize)
    (hfits : linear.toNat + src.length ≤ r.world.mem.ram.size) :
    ∃ r', eval (store Board.bus g linear src) r = (.ok (), r') ∧ r'.cpu = r.cpu ∧ r'.world.mem.mappings = none ∧
      r'.world.mem.ram.bytes = overwrite r.world.mem.ram.bytes linear.toNat src := by
  obtain ⟨hplaces, hplace⟩ := MappedRam.places_unmapped hmap hsize hfits .write r.cpu.cpl
  obtain ⟨r', heval, hcpu, hmem⟩ := eval_store_places hg hpos hlen hplaces
  -- one piece from `linear` on would have the same bytes
  have hone := MappedRam.stores_piece hplace (decide_eq_true hfits)
  exact ⟨r', heval, hcpu, hmem.mappings.trans hmap, hmem.unique hone⟩

/-- A store that memory lacks a byte of. -/
theorem eval_store_refused (hg : g.Quiet) (hmap : r.world.mem.mappings = none)
    (hsize : r.world.mem.ram.size < 2 ^ 64) (hlen : src.length ≤ pageSize)
    (hnot : r.world.mem.ram.size < linear.toNat + src.length) :
    ∃ fault, (eval (store Board.bus g linear src) r).1 = .error fault := by
  obtain ⟨r₀, hcpu, hmem, hout⟩ := eval_store hg linear src r
  rw [← hmem] at hmap hsize hnot
  rw [hout]
  by_cases hwhole : bytesInPage linear src.length = src.length
  case pos =>
    rw [if_pos hwhole, eval_put, MappedRam.put_of_not_fits (MappedRam.translate_unmapped hmap ..)
      (decide_eq_false (Nat.not_le.2 hnot))]
    exact ⟨_, rfl⟩
  case neg =>
    have hcross := Nat.lt_of_le_of_ne (bytesInPage_le linear src.length) hwhole
    rw [if_neg hwhole, eval_crossing rfl hcross hlen, MappedRam.translate_unmapped hmap]
    dsimp only
    rw [MappedRam.translate_unmapped hmap]
    generalize bytesInPage linear src.length = n at hcross ⊢
    dsimp only
    split
    case h_1 => exact ⟨_, rfl⟩
    case h_2 => exact ⟨_, rfl⟩
    case h_3 hfirst hsecond =>
      have hfirst := of_decide_eq_true hfirst
      have hsecond := of_decide_eq_true hsecond
      have hnext : (linear + UInt64.ofNat n).toNat = linear.toNat + n := Ram.toNat_add_ofNat (by omega)
      omega

end Exec

end TraceCore
