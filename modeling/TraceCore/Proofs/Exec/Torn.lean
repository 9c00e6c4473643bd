/-
Stores that fail. Of a store that crosses a page both pages are looked up before the first byte is written, but
whether the frames lie in memory is only seen piece by piece. So a store that fails has changed memory just if
the first of its frames lies in memory and the second does not.
-/
import TraceCore.Proofs.Exec.Restart

namespace TraceCore

/-! ## Both sides of a page boundary -/

/-- The first byte behind a piece that ends at the end of its page begins a page. -/
theorem pageOffset_add_bytesInPage {linear : UInt64} {len : Nat} (h : bytesInPage linear len < len) :
    pageOffset (linear + UInt64.ofNat (bytesInPage linear len)) = 0 := by
  have hoffset := pageOffset_lt linear
  have hn : bytesInPage linear len = pageSize - pageOffset linear := by
    unfold bytesInPage at h ⊢
    omega
  rw [hn, pageOffset_eq, UInt64.toNat_add,
    UInt64.toNat_ofNat_of_lt' (show pageSize - pageOffset linear < UInt64.size by unfold pageSize UInt64.size; omega)]
  rw [pageOffset_eq] at hoffset ⊢
  unfold pageSize at hoffset ⊢
  omega

/-- What is left of a range of at most a page lies in the next page. -/
theorem bytesInPage_rest {linear : UInt64} {len : Nat} (h : bytesInPage linear len < len) (hlen : len ≤ pageSize) :
    bytesInPage (linear + UInt64.ofNat (bytesInPage linear len)) (len - bytesInPage linear len) =
      len - bytesInPage linear len := by
  have hoffset := pageOffset_add_bytesInPage h
  generalize linear + UInt64.ofNat (bytesInPage linear len) = rest at hoffset ⊢
  rw [bytesInPage, hoffset]
  omega

namespace Ram

@[simp] theorem size_store (ram : Ram) (addr : UInt64) (src : List UInt8) : (ram.store addr src).size = ram.size :=
  size_overwrite ..

theorem fits_store (ram : Ram) (addr : UInt64) (src : List UInt8) (addr' : UInt64) (len : Nat) :
    (ram.store addr src).fits addr' len = ram.fits addr' len := by
  unfold fits
  rw [size_store]

end Ram

namespace MappedRam

/-- What becomes of one piece of a store. -/
def put (m : MappedRam) (cpl : UInt8) (linear : UInt64) (src : List UInt8) : Except Fault MappedRam :=
  match m.translate linear .write cpl with
  | .error pf => .error (.semantic (.pageFault pf))
  | .ok addr =>
    if m.ram.fits addr src.length then .ok { m with ram := m.ram.store addr src }
    else .error (.bus (.outOfRange addr src.length m.ram.size))

/-- Where a store of `len` bytes at `linear` tears: it crosses a page, both pages can be written to, and of their
frames the first lies in memory and the second does not. The two pieces would go to `a` and `b`. -/
structure Tears (m : MappedRam) (cpl : UInt8) (linear : UInt64) (len : Nat) (a b : UInt64) : Prop where
  crosses : bytesInPage linear len < len
  first : m.translate linear .write cpl = .ok a
  second : m.translate (linear + UInt64.ofNat (bytesInPage linear len)) .write cpl = .ok b
  inside : m.ram.fits a (bytesInPage linear len) = true
  outside : m.ram.fits b (len - bytesInPage linear len) = false

variable {m m' : MappedRam} {cpl : UInt8} {linear addr : UInt64} {src : List UInt8}

theorem write_of_fits (h : m.ram.fits addr src.length = true) :
    m.write addr src = (.ok (), { m with ram := m.ram.store addr src }) := by
  obtain ⟨ram, mappings, remaps⟩ := m
  unfold write Ram.write
  dsimp only
  rw [if_pos h]

theorem write_of_not_fits (h : m.ram.fits addr src.length = false) :
    m.write addr src = (.error (.outOfRange addr src.length m.ram.size), m) := by
  obtain ⟨ram, mappings, remaps⟩ := m
  unfold write Ram.write
  dsimp only at h ⊢
  rw [if_neg (by rw [h]; decide)]

theorem put_of_fits (ht : m.translate linear .write cpl = .ok addr) (h : m.ram.fits addr src.length = true) :
    m.put cpl linear src = .ok { m with ram := m.ram.store addr src } := by
  unfold put
  rw [ht]
  exact if_pos h

theorem put_of_not_fits (ht : m.translate linear .write cpl = .ok addr) (h : m.ram.fits addr src.length = false) :
    m.put cpl linear src = .error (.bus (.outOfRange addr src.length m.ram.size)) := by
  unfold put
  rw [ht]
  exact if_neg (by rw [h]; decide)

end MappedRam

namespace Exec

variable {γ δ α : Type} {g : Guard (Board γ δ)} {r : Running (Board γ δ)} {linear : UInt64} {src : List UInt8}

/-! ## Piece by piece -/

/-- A piece is written, or it fails and has changed nothing. -/
theorem eval_put (linear : UInt64) (src : List UInt8) (r : Running (Board γ δ)) :
    eval (do
        let addr ← translate Board.bus linear .write
        attempt .bus (Board.bus.write addr src)) r =
      match r.world.mem.put r.cpu.cpl linear src with
      | .error f => (.error f, r)
      | .ok mem => (.ok (), { r with world.mem := mem }) := by
  rw [eval_bind, eval_translate]
  cases ht : r.world.mem.translate linear .write r.cpu.cpl with
  | error pf =>
    unfold MappedRam.put
    rw [ht]
  | ok addr =>
    dsimp only
    rw [eval_write]
    cases hfits : r.world.mem.ram.fits addr src.length with
    | true => rw [MappedRam.put_of_fits ht hfits, MappedRam.write_of_fits hfits]
    | false => rw [MappedRam.put_of_not_fits ht hfits, MappedRam.write_of_not_fits hfits]

/-- What is left goes on from a piece that is written. -/
theorem eval_put_bind (linear : UInt64) (src : List UInt8) (rest : Exec (Board γ δ) α) (r : Running (Board γ δ)) :
    eval (do
        let addr ← translate Board.bus linear .write
        attempt .bus (Board.bus.write addr src)
        rest) r =
      match r.world.mem.put r.cpu.cpl linear src with
      | .error f => (.error f, r)
      | .ok mem => eval rest { r with world.mem := mem } := by
  rw [← bind_assoc, eval_bind, eval_put]
  cases r.world.mem.put r.cpu.cpl linear src <;> rfl

/-- A store in one page is one piece. -/
theorem eval_storePieces_whole (hne : src ≠ []) (h : bytesInPage linear src.length = src.length)
    (r : Running (Board γ δ)) :
    eval (storePieces Board.bus linear src) r =
      match r.world.mem.put r.cpu.cpl linear src with
      | .error f => (.error f, r)
      | .ok mem => (.ok (), { r with world.mem := mem }) := by
  have hlen : src.length ≠ 0 := fun hzero => hne (List.eq_nil_of_length_eq_zero hzero)
  have hnil : storePieces Board.bus (linear + UInt64.ofNat src.length) [] =
      (pure () : Exec (Board γ δ) Unit) := by
    unfold storePieces
    rfl
  unfold storePieces
  rw [dif_neg hlen]
  dsimp only
  rw [h, List.take_length, List.drop_length, hnil, eval_put_bind]
  rfl

/-- A store that crosses a page is two pieces. -/
theorem eval_storePieces_crossing (h : bytesInPage linear src.length < src.length) (hlen : src.length ≤ pageSize)
    (r : Running (Board γ δ)) :
    eval (storePieces Board.bus linear src) r =
      let n := bytesInPage linear src.length
      match r.world.mem.put r.cpu.cpl linear (src.take n) with
      | .error f => (.error f, r)
      | .ok mem =>
        match mem.put r.cpu.cpl (linear + UInt64.ofNat n) (src.drop n) with
        | .error f => (.error f, { r with world.mem := mem })
        | .ok mem => (.ok (), { r with world.mem := mem }) := by
  have hrest : (src.drop (bytesInPage linear src.length)).length = src.length - bytesInPage linear src.length :=
    List.length_drop
  rw [storePieces, dif_neg (by omega)]
  dsimp only
  rw [eval_put_bind]
  cases r.world.mem.put r.cpu.cpl linear (src.take (bytesInPage linear src.length)) with
  | error f => rfl
  | ok mem =>
    dsimp only
    refine eval_storePieces_whole (fun hnil => ?_) ?_ _
    · rw [hnil, List.length_nil] at hrest
      omega
    · rw [hrest]
      exact bytesInPage_rest h hlen

/-- The look at both pages of a store that crosses a page. -/
theorem eval_probe_crossing {len : Nat} (h : bytesInPage linear len < len) (hlen : len ≤ pageSize)
    (r : Running (Board γ δ)) :
    eval (probe Board.bus linear len) r =
      match r.world.mem.translate linear .write r.cpu.cpl with
      | .error pf => (.error (.semantic (.pageFault pf)), r)
      | .ok _ =>
        match r.world.mem.translate (linear + UInt64.ofNat (bytesInPage linear len)) .write r.cpu.cpl with
        | .error pf => (.error (.semantic (.pageFault pf)), r)
        | .ok _ => (.ok (), r) := by
  have hnil : ∀ rest : UInt64, probe Board.bus rest 0 = (pure () : Exec (Board γ δ) Unit) := by
    intro rest
    unfold probe
    rfl
  rw [probe, dif_neg (by omega), eval_bind, eval_translate]
  cases r.world.mem.translate linear .write r.cpu.cpl with
  | error pf => rfl
  | ok _ =>
    dsimp only
    rw [probe, dif_neg (by omega), bytesInPage_rest h hlen]
    dsimp only
    rw [Nat.sub_self, hnil, eval_bind, eval_translate]
    cases r.world.mem.translate (linear + UInt64.ofNat (bytesInPage linear len)) .write r.cpu.cpl <;> rfl

/-! ## The whole store -/

/-- A store asks the guard first, which leaves memory alone. -/
theorem eval_store (hg : g.Quiet) (linear : UInt64) (src : List UInt8) (r : Running (Board γ δ)) :
    ∃ r₀ : Running (Board γ δ), r₀.cpu = r.cpu ∧ r₀.world.mem = r.world.mem ∧
      eval (store Board.bus g linear src) r =
        eval (if bytesInPage linear src.length = src.length then do
            let addr ← translate Board.bus linear .write
            attempt .bus (Board.bus.write addr src)
          else do
            probe Board.bus linear src.length
            storePieces Board.bus linear src) r₀ := by
  have hmem := hg.watches linear src.length .write r.world
  rcases hask : g.watches linear src.length .write r.world with ⟨hit, w⟩
  rw [hask] at hmem
  refine ⟨{ r with world := w, watchHit := hit || r.watchHit }, rfl, hmem, ?_⟩
  unfold store
  rw [eval_bind, show eval (world (g.watches linear src.length .write)) r =
    (.ok (g.watches linear src.length .write r.world).1,
      { r with world := (g.watches linear src.length .write r.world).2 }) from rfl, hask]
  cases hit <;> rfl

/-- A store that crosses a page. What can go wrong is found in this order. -/
theorem eval_crossing {n : Nat} (hn : bytesInPage linear src.length = n) (h : n < src.length)
    (hlen : src.length ≤ pageSize) (r : Running (Board γ δ)) :
    eval (do
        probe Board.bus linear src.length
        storePieces Board.bus linear src) r =
      match r.world.mem.translate linear .write r.cpu.cpl with
      | .error pf => (.error (.semantic (.pageFault pf)), r)
      | .ok a =>
        match r.world.mem.translate (linear + UInt64.ofNat n) .write r.cpu.cpl with
        | .error pf => (.error (.semantic (.pageFault pf)), r)
        | .ok b =>
          match r.world.mem.ram.fits a n, r.world.mem.ram.fits b (src.length - n) with
          | false, _ => (.error (.bus (.outOfRange a n r.world.mem.ram.size)), r)
          | true, false =>
            (.error (.bus (.outOfRange b (src.length - n) r.world.mem.ram.size)),
              { r with world.mem.ram := r.world.mem.ram.store a (src.take n) })
          | true, true =>
            (.ok (), { r with world.mem.ram := (r.world.mem.ram.store a (src.take n)).store b (src.drop n) }) := by
  have htake : (src.take n).length = n := by rw [List.length_take, Nat.min_eq_left h.le]
  have hdrop : (src.drop n).length = src.length - n := List.length_drop
  subst hn
  rw [eval_bind, eval_probe_crossing h hlen]
  cases ha : r.world.mem.translate linear .write r.cpu.cpl with
  | error pf => rfl
  | ok a =>
    dsimp only
    cases hb : r.world.mem.translate (linear + UInt64.ofNat (bytesInPage linear src.length)) .write r.cpu.cpl with
    | error pf => rfl
    | ok b =>
      dsimp only
      rw [eval_storePieces_crossing h hlen]
      dsimp only
      cases hfirst : r.world.mem.ram.fits a (bytesInPage linear src.length) with
      | false => rw [MappedRam.put_of_not_fits ha (by rw [htake, hfirst]), htake]
      | true =>
        rw [MappedRam.put_of_fits ha (by rw [htake, hfirst])]
        dsimp only
        -- the second piece goes by the mappings and the size that the first one found
        have hb : ({ r.world.mem with ram := r.world.mem.ram.store a (src.take (bytesInPage linear src.length)) } :
            MappedRam).translate (linear + UInt64.ofNat (bytesInPage linear src.length)) .write r.cpu.cpl = .ok b := hb
        cases hsecond : r.world.mem.ram.fits b (src.length - bytesInPage linear src.length) with
        | false =>
          rw [MappedRam.put_of_not_fits hb (by rw [hdrop, Ram.fits_store, hsecond]), hdrop]
          dsimp only
          rw [Ram.size_store]
        | true => rw [MappedRam.put_of_fits hb (by rw [hdrop, Ram.fits_store, hsecond])]

/-- A store of at most a page that fails has changed nothing in memory, unless it tears: then the bus refuses the
second piece, and the first piece is written. -/
theorem mem_store_of_error (hg : g.Quiet) (hlen : src.length ≤ pageSize) (linear : UInt64) (r : Running (Board γ δ)) :
    let n := bytesInPage linear src.length
    let out := eval (store Board.bus g linear src) r
    (∀ a b, r.world.mem.Tears r.cpu.cpl linear src.length a b →
      out.1 = .error (.bus (.outOfRange b (src.length - n) r.world.mem.ram.size)) ∧
        out.2.world.mem = { r.world.mem with ram := r.world.mem.ram.store a (src.take n) }) ∧
    ((¬∃ a b, r.world.mem.Tears r.cpu.cpl linear src.length a b) →
      ∀ f, out.1 = .error f → out.2.world.mem = r.world.mem) := by
  intro n out
  obtain ⟨r₀, hcpu, hmem, hout⟩ := eval_store hg linear src r
  rw [← hcpu, ← hmem]
  change out = _ at hout
  rw [hout]
  by_cases hwhole : bytesInPage linear src.length = src.length
  case pos =>
    -- one piece cannot tear
    refine ⟨fun a b htears => absurd htears.crosses (by omega), fun _ f hf => ?_⟩
    rw [if_pos hwhole, eval_put] at hf ⊢
    cases hput : r₀.world.mem.put r₀.cpu.cpl linear src with
    | error f => rfl
    | ok mem => rw [hput] at hf; cases hf
  case neg =>
    have hcross : bytesInPage linear src.length < src.length :=
      Nat.lt_of_le_of_ne (bytesInPage_le linear src.length) hwhole
    rw [if_neg hwhole, eval_crossing rfl hcross hlen]
    refine ⟨fun a b htears => ?_, fun hwhole f hf => ?_⟩
    · rw [htears.first]
      dsimp only
      rw [htears.second]
      dsimp only
      rw [htears.inside, htears.outside]
      exact ⟨rfl, rfl⟩
    · cases ha : r₀.world.mem.translate linear .write r₀.cpu.cpl with
      | error pf => rfl
      | ok a =>
        rw [ha] at hf
        dsimp only at hf ⊢
        cases hb : r₀.world.mem.translate (linear + UInt64.ofNat (bytesInPage linear src.length)) .write r₀.cpu.cpl with
        | error pf => rfl
        | ok b =>
          rw [hb] at hf
          dsimp only at hf ⊢
          split
          case h_1 => rfl
          case h_2 hfirst hsecond => exact absurd ⟨a, b, hcross, ha, hb, hfirst, hsecond⟩ hwhole
          case h_3 hfirst hsecond => rw [hfirst, hsecond] at hf; cases hf

/-- Before a store, on a board of one zeroed page. -/
def onePage : Running (Board Unit Unit) := ⟨.new .protectedMode, ⟨{ ram := .zeroPage }, (), (), #[{}]⟩, 0, false⟩

/-- Four bytes at the last two of memory: the bus refuses two of them and the other two are there. -/
theorem mem_store_onePage :
    let out := eval (store Board.bus .none 0xFFE [0x11, 0x22, 0x33, 0x44]) onePage
    out.1 = .error (.bus (.outOfRange 0x1000 2 4096)) ∧
      out.2.world.mem.ram.bytes[0xFFE]? = some 0x11 ∧ out.2.world.mem.ram.bytes[0xFFF]? = some 0x22 := by
  have hlen : [(0x11 : UInt8), 0x22, 0x33, 0x44].length ≤ pageSize := by decide
  obtain ⟨htorn, -⟩ := mem_store_of_error Guard.quiet_none hlen 0xFFE onePage
  obtain ⟨hfault, hmem⟩ := htorn 0xFFE 0x1000
    ⟨by decide, rfl, rfl, by decide +kernel, by decide +kernel⟩
  refine ⟨hfault.trans (by decide +kernel), ?_⟩
  rw [hmem]
  decide +kernel

end Exec

end TraceCore
