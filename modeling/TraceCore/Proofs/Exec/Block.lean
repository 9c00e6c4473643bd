/-
Block stores and block moves. A repeated store or move does in memory what its elements say, one after the other, and
nothing else: its index registers move on, and no flag or other register but the count changes.
-/
import TraceCore.Proofs.Exec.Elements
import TraceCore.Proofs.Exec.Precise
import TraceCore.Proofs.Exec.Unmapped

namespace TraceCore

/-! ## Index registers -/

namespace Cpu

variable {c c' : Cpu} {size : CodeSize} {w : Width} {reg : Reg} {k : Nat}

/-- An index register behind `n` elements. Without any it is as it was. Else it holds the index, and above that nothing
for 64 bits and for 32 bits in long mode, and what it held before for 16 bits and for 32 bits in other modes. -/
def indexReg (c : Cpu) (size : CodeSize) (w : Width) (reg : Reg) (n : Nat) : Nat :=
  if n = 0 then (c.read reg .w64).toNat
  else size.width.above (c.mode = .longMode) (c.read reg .w64) + c.indexAt size w reg n

/-- What an index register is written with behind an element. -/
def nextIndex (c : Cpu) (size : CodeSize) (w : Width) (reg : Reg) : UInt64 :=
  (c.read reg .w64 &&& size.mask) + (if c.backwards then 0 - UInt64.ofNat w.bytes else UInt64.ofNat w.bytes)

/-- A processor whose index register is `k` elements on. What the index leaves alone of it is lost with the first of
them, or never. -/
structure Indexed (c : Cpu) (size : CodeSize) (w : Width) (reg : Reg) (k : Nat) (c' : Cpu) : Prop where
  index : (c'.read reg .w64 &&& size.mask).toNat = c.indexAt size w reg k
  above : size.width.above (c.mode = .longMode) (c'.read reg .w64) =
    size.width.above (c.mode = .longMode) (c.read reg .w64)
  value : (c'.read reg .w64).toNat = c.indexReg size w reg k

theorem indexed_zero (c : Cpu) (size : CodeSize) (w : Width) (reg : Reg) : Indexed c size w reg 0 c where
  index := by rw [CodeSize.toNat_and_mask, indexAt_zero]
  above := rfl
  value := (if_pos rfl).symm

theorem Indexed.congr {c'' : Cpu} (h : Indexed c size w reg k c') (hread : c''.read reg .w64 = c'.read reg .w64) :
    Indexed c size w reg k c'' := by
  obtain ⟨hindex, habove, hvalue⟩ := h
  rw [← hread] at hindex habove hvalue
  exact ⟨hindex, habove, hvalue⟩

theorem step_modEq (c : Cpu) (w : Width) :
    ((if c.backwards then 0 - UInt64.ofNat w.bytes else UInt64.ofNat w.bytes : UInt64).toNat : Int) ≡
      c.stride w [ZMOD 2 ^ 64] := by
  unfold stride
  split
  case isTrue => cases w <;> decide
  case isFalse => cases w <;> decide

/-- The next index is that of the next element. -/
theorem Indexed.next (h : Indexed c size w reg k c') (hdir : c'.backwards = c.backwards) :
    (c'.nextIndex size w reg).toNat % 2 ^ size.bits = c.indexAt size w reg (k + 1) := by
  have hdvd : (2 ^ size.bits : Int) ∣ 2 ^ 64 := pow_dvd_pow 2 (by cases size <;> decide)
  have hstep := c'.step_modEq w
  have hindex := c.indexAt_modEq size w reg k
  have hsum : ((c'.nextIndex size w reg).toNat : Int) ≡ c.indexAt size w reg k + c.stride w [ZMOD 2 ^ size.bits] := by
    have hstride : c'.stride w = c.stride w := by
      unfold stride
      rw [hdir]
    rw [hstride] at hstep
    refine (Int.ModEq.trans ?_ (hstep.add_left _)).of_dvd hdvd
    unfold nextIndex
    rw [UInt64.toNat_add, h.index]
    push_cast
    exact Int.mod_modEq _ _
  have hsucc := hsum.trans (hindex.add_right (c.stride w))
  have hcast := c.cast_indexAt size w reg (k + 1)
  push_cast at hcast
  rw [Int.add_mul, Int.one_mul, ← Int.add_assoc, ← hsucc] at hcast
  exact_mod_cast hcast.symm

/-- So it stands in the register that is written with it, whatever was written to others before. -/
theorem Indexed.write {c'' : Cpu} (h : Indexed c size w reg k c') (hreg : reg.high = false)
    (hread : c''.read reg .w64 = c'.read reg .w64) (hmode : c''.mode = c.mode) (hdir : c'.backwards = c.backwards) :
    Indexed c size w reg (k + 1) (c''.write reg size.width (c'.nextIndex size w reg)) := by
  have hwrite := c''.read_write_self hreg size.width (c'.nextIndex size w reg)
  rw [hread, hmode] at hwrite
  have hnat := size.width.toNat_replace (c.mode = .longMode) (c'.read reg .w64) (c'.nextIndex size w reg)
  have hvalue : ((c''.write reg size.width (c'.nextIndex size w reg)).read reg .w64).toNat =
      size.width.above (c.mode = .longMode) (c.read reg .w64) + c.indexAt size w reg (k + 1) := by
    rw [hwrite, hnat, h.above]
    exact congrArg (_ + ·) (h.next hdir)
  refine ⟨?_, ?_, hvalue.trans (if_neg (Nat.succ_ne_zero k)).symm⟩
  · rw [CodeSize.toNat_and_mask, hvalue]
    exact (Width.above_add_mod ..).trans (Nat.mod_eq_of_lt (c.indexAt_lt size w reg (k + 1)))
  · rw [hwrite, Width.above_replace, h.above]

/-- Nothing but registers differ. -/
def OnlyRegsDiffer (c c' : Cpu) : Prop := c' = { c with regs := c'.regs }

theorem OnlyRegsDiffer.write (h : c.OnlyRegsDiffer c') (reg : Reg) (w : Width) (value : UInt64) :
    c.OnlyRegsDiffer (c'.write reg w value) := by
  have hsame : c' = { c with regs := c'.regs } := h
  have hwritten := congrArg (fun x : Cpu => ({ x with regs := (c'.write reg w value).regs } : Cpu)) hsame
  exact hwritten

theorem OnlyRegsDiffer.setCount (h : c.OnlyRegsDiffer c') (size : CodeSize) (n : UInt64) :
    c.OnlyRegsDiffer (c'.setCount size n) := by
  cases size with
  | b16 => exact h.write ..
  | b32 => exact h.write ..
  | b64 => exact h.write ..

theorem read_setCount_of_ne (c : Cpu) (size : CodeSize) (n : UInt64) (h : reg.index ≠ Reg.rcx.index) (w : Width) :
    (c.setCount size n).read reg w = c.read reg w := by
  cases size with
  | b16 => exact c.read_write_of_ne h.symm ..
  | b32 => exact c.read_write_of_ne h.symm ..
  | b64 => exact c.read_write_of_ne h.symm ..

end Cpu

/-! ## Elements -/

namespace Exec

variable {γ δ : Type} {g : Guard (Board γ δ)} {c : Cpu} {i : Instr} {op : StringOp} {w : Width} {bytes : Array UInt8}
  {k n : Nat} {r r' : Running (Board γ δ)}

/-- `k` elements behind the start: memory, the index registers, and all that is as it was. -/
structure Behind (c : Cpu) (i : Instr) (op : StringOp) (w : Width) (bytes : Array UInt8) (k : Nat)
    (r : Running (Board γ δ)) : Prop where
  cpu : c.OnlyRegsDiffer r.cpu
  regs : ∀ reg : Reg, reg.high = false → reg.index ≠ Reg.rcx.index → reg.index ≠ Reg.rdi.index →
    (op = .move → reg.index ≠ Reg.rsi.index) → r.cpu.read reg .w64 = c.read reg .w64
  dst : c.Indexed i.addrSize w .rdi k r.cpu
  src : op = .move → c.Indexed i.addrSize w .rsi k r.cpu
  mappings : r.world.mem.mappings = none
  bytes : r.world.mem.ram.bytes = c.block i.addrSize w op bytes k

theorem eval_element_store (g : Guard (Board γ δ)) (i : Instr) (w : Width) (r : Running (Board γ δ)) :
    eval (element Board.bus g i .store w) r =
      match eval (store Board.bus g (r.cpu.linear r.cpu.es.base (r.cpu.read .rdi .w64 &&& i.addrSize.mask))
        (Word.toBytes w.bytes (r.cpu.read .rax .w64))) r with
      | (.ok _, r₁) => (.ok (), { r₁ with
          cpu := r₁.cpu.write .rdi i.addrSize.width (r.cpu.nextIndex i.addrSize w .rdi) })
      | (.error e, r₁) => (.error e, r₁) := by
  unfold element storeWord
  rw [eval_bind, eval_cpu]
  dsimp only
  rw [eval_bind]
  generalize eval (store Board.bus g _ _) r = out
  rcases out with ⟨e | _, r₁⟩ <;> rfl

theorem eval_element_move (g : Guard (Board γ δ)) (i : Instr) (w : Width) (r : Running (Board γ δ)) :
    eval (element Board.bus g i .move w) r =
      match eval (load Board.bus (r.cpu.linear r.cpu.ds.base (r.cpu.read .rsi .w64 &&& i.addrSize.mask)) w.bytes) r with
      | (.error e, r₁) => (.error e, r₁)
      | (.ok piece, r₁) =>
        match eval (store Board.bus g (r.cpu.linear r.cpu.es.base (r.cpu.read .rdi .w64 &&& i.addrSize.mask))
          (Word.toBytes w.bytes (Word.ofBytes piece))) r₁ with
        | (.ok _, r₂) => (.ok (), { r₂ with
            cpu := (r₂.cpu.write .rsi i.addrSize.width (r.cpu.nextIndex i.addrSize w .rsi)).write .rdi
              i.addrSize.width (r.cpu.nextIndex i.addrSize w .rdi) })
        | (.error e, r₂) => (.error e, r₂) := by
  unfold element loadWord storeWord
  rw [eval_bind, eval_cpu]
  dsimp only
  rw [eval_bind, eval_bind]
  rcases eval (load Board.bus (r.cpu.linear r.cpu.ds.base (r.cpu.read .rsi .w64 &&& i.addrSize.mask)) w.bytes) r
    with ⟨e | piece, r₁⟩
  · rfl
  · dsimp only
    rw [eval_pure]
    dsimp only
    rw [eval_bind]
    generalize eval (store Board.bus g _ _) r₁ = out
    rcases out with ⟨e | _, r₂⟩ <;> rfl

/-- Where the next element is read from and written to. -/
theorem Behind.addresses (h : Behind c i op w bytes k r) :
    (r.cpu.linear r.cpu.es.base (r.cpu.read .rdi .w64 &&& i.addrSize.mask)).toNat = c.dstAt i.addrSize w k ∧
    (op = .move →
      (r.cpu.linear r.cpu.ds.base (r.cpu.read .rsi .w64 &&& i.addrSize.mask)).toNat = c.srcAt i.addrSize w k) := by
  have hlinear : ∀ base offset, (r.cpu.linear base offset).toNat = c.linearAt base offset.toNat := by
    intro base offset
    rw [← c.toNat_linear, h.cpu]
    rfl
  have hes : r.cpu.es.base = c.es.base := by rw [h.cpu]
  have hds : r.cpu.ds.base = c.ds.base := by rw [h.cpu]
  rw [hlinear, hlinear, h.dst.index, hes, hds]
  refine ⟨rfl, fun hmove => ?_⟩
  rw [(h.src hmove).index]
  rfl

theorem Behind.backwards (h : Behind c i op w bytes k r) : r.cpu.backwards = c.backwards := by
  rw [h.cpu]
  rfl

theorem Behind.mode (h : Behind c i op w bytes k r) : r.cpu.mode = c.mode := by rw [h.cpu]

theorem Behind.size (h : Behind c i op w bytes k r) : r.world.mem.ram.size = bytes.size := by
  unfold Ram.size
  rw [h.bytes, Cpu.size_block]

/-- The count and what is retired make no difference. -/
theorem Behind.setCount (h : Behind c i op w bytes k r) (m : UInt64) (retired : Nat) :
    Behind c i op w bytes k { r with cpu := r.cpu.setCount i.addrSize m, retired } where
  cpu := h.cpu.setCount i.addrSize m
  regs reg hlow hrcx hrdi hrsi := (r.cpu.read_setCount_of_ne _ _ hrcx _).trans (h.regs reg hlow hrcx hrdi hrsi)
  dst := h.dst.congr (r.cpu.read_setCount_of_ne _ _ (by decide) _)
  src hmove := (h.src hmove).congr (r.cpu.read_setCount_of_ne _ _ (by decide) _)
  mappings := h.mappings
  bytes := h.bytes

theorem length_toBytes_le (w : Width) (value : UInt64) : (Word.toBytes w.bytes value).length ≤ pageSize := by
  rw [Word.length_toBytes]
  cases w <;> decide

/-- An element that memory has all bytes of. -/
theorem Behind.succ (h : Behind c i op w bytes k r) (hg : g.Quiet) (hop : op = .store ∨ op = .move)
    (hsize : bytes.size < 2 ^ 64) (hfits : c.FitsAt i.addrSize w op bytes.size k) :
    ∃ r', eval (element Board.bus g i op w) r = (.ok (), r') ∧ Behind c i op w bytes (k + 1) r' := by
  obtain ⟨hdst, hsrc⟩ := h.addresses
  have hmem := h.size
  have hbound : r.world.mem.ram.size < 2 ^ 64 := by rwa [hmem]
  have hpos (value : UInt64) : 0 < (Word.toBytes w.bytes value).length := by
    rw [Word.length_toBytes]
    cases w <;> decide
  have hblock : c.block i.addrSize w op bytes (k + 1) = overwrite r.world.mem.ram.bytes
      (r.cpu.linear r.cpu.es.base (r.cpu.read .rdi .w64 &&& i.addrSize.mask)).toNat
      (c.elementAt i.addrSize w op r.world.mem.ram.bytes k) := by
    rw [Cpu.block, h.bytes, hdst]
  rcases hop with rfl | rfl
  · have helement : c.elementAt i.addrSize w .store r.world.mem.ram.bytes k =
        Word.toBytes w.bytes (r.cpu.read .rax .w64) := by
      rw [h.regs .rax rfl (by decide) (by decide) (fun hmove => absurd hmove (by decide))]
      rfl
    obtain ⟨r₁, hstore, hcpu, hmap, hbytes⟩ := eval_store_unmapped hg h.mappings hbound (hpos _)
      (length_toBytes_le w (r.cpu.read .rax .w64)) (by rw [hmem, hdst, Word.length_toBytes]; exact hfits.dst)
    rw [eval_element_store, hstore]
    dsimp only
    rw [hcpu]
    refine ⟨_, rfl, h.cpu.write .., ?_, ?_, fun hmove => absurd hmove (by decide), hmap, ?_⟩
    · intro reg hlow hrcx hrdi hrsi
      exact (r.cpu.read_write_of_ne hrdi.symm ..).trans (h.regs reg hlow hrcx hrdi hrsi)
    · exact h.dst.write rfl rfl h.mode h.backwards
    · exact hbytes.trans (by rw [hblock, helement])
  · rw [eval_element_move]
    have hsrc := hsrc rfl
    have hfrom := hfits.src rfl
    have hload := eval_load_unmapped h.mappings hbound
      (show _ + w.bytes ≤ _ by rw [hmem, hsrc]; exact hfrom)
    generalize r.cpu.linear r.cpu.ds.base (r.cpu.read .rsi .w64 &&& i.addrSize.mask) = src at hsrc hload ⊢
    have hlen : (r.world.mem.ram.slice src w.bytes).length = w.bytes := by
      rw [Ram.length_slice]
      unfold Ram.size at hmem
      omega
    have helement : c.elementAt i.addrSize w .move r.world.mem.ram.bytes k =
        Word.toBytes w.bytes (Word.ofBytes (r.world.mem.ram.slice src w.bytes)) := by
      have hback := Word.toBytes_ofBytes (show (r.world.mem.ram.slice src w.bytes).length ≤ 8 by
        rw [hlen]
        cases w <;> decide)
      rw [hlen] at hback
      rw [hback, Ram.slice, hsrc]
      rfl
    obtain ⟨r₁, hstore, hcpu, hmap, hbytes⟩ := eval_store_unmapped hg h.mappings hbound (hpos _)
      (length_toBytes_le w (Word.ofBytes (r.world.mem.ram.slice src w.bytes)))
      (by rw [hmem, hdst, Word.length_toBytes]; exact hfits.dst)
    rw [hload]
    dsimp only
    rw [hstore]
    dsimp only
    rw [hcpu]
    refine ⟨_, rfl, (h.cpu.write ..).write .., ?_, ?_, fun _ => ?_, hmap, ?_⟩
    · intro reg hlow hrcx hrdi hrsi
      refine (Cpu.read_write_of_ne _ hrdi.symm ..).trans ?_
      exact (r.cpu.read_write_of_ne (hrsi rfl).symm ..).trans (h.regs reg hlow hrcx hrdi hrsi)
    · exact h.dst.write rfl (r.cpu.read_write_of_ne (by decide) ..) h.mode h.backwards
    · exact ((h.src rfl).write rfl rfl h.mode h.backwards).congr (Cpu.read_write_of_ne _ (by decide) ..)
    · exact hbytes.trans (by rw [hblock, helement])

/-- An element that memory lacks a byte of. -/
theorem Behind.refused (h : Behind c i op w bytes k r) (hg : g.Quiet) (hop : op = .store ∨ op = .move)
    (hsize : bytes.size < 2 ^ 64) (hnot : ¬c.FitsAt i.addrSize w op bytes.size k) :
    ∃ fault, (eval (element Board.bus g i op w) r).1 = .error fault := by
  obtain ⟨hdst, hsrc⟩ := h.addresses
  have hmem := h.size
  have hbound : r.world.mem.ram.size < 2 ^ 64 := by rwa [hmem]
  have hpos : 0 < w.bytes := by cases w <;> decide
  -- what is stored does not matter
  have hstore (value : UInt64) (hout : bytes.size < c.dstAt i.addrSize w k + w.bytes) :
      ∃ fault, (eval (store Board.bus g (r.cpu.linear r.cpu.es.base (r.cpu.read .rdi .w64 &&& i.addrSize.mask))
        (Word.toBytes w.bytes value)) r).1 = .error fault :=
    eval_store_refused hg h.mappings hbound (length_toBytes_le w value)
      (by rw [hmem, hdst, Word.length_toBytes]; exact hout)
  rcases hop with rfl | rfl
  · have hout : bytes.size < c.dstAt i.addrSize w k + w.bytes :=
      Nat.not_le.1 fun hle => hnot ⟨hle, nofun⟩
    unfold element storeWord
    rw [eval_bind, eval_cpu]
    exact refused_bind (hstore _ hout)
  · have hsrc := hsrc rfl
    unfold element loadWord storeWord
    rw [eval_bind, eval_cpu]
    dsimp only
    by_cases hin : c.srcAt i.addrSize w k + w.bytes ≤ bytes.size
    · have hload := eval_load_unmapped h.mappings hbound
        (show _ + w.bytes ≤ _ by rw [hmem, hsrc]; exact hin)
      have hout : bytes.size < c.dstAt i.addrSize w k + w.bytes :=
        Nat.not_le.1 fun hle => hnot ⟨hle, fun _ => hin⟩
      rw [eval_bind, eval_bind, hload]
      exact refused_bind (hstore _ hout)
    · exact refused_bind (refused_bind (eval_load_refused h.mappings hbound hpos
        (by rw [hmem, hsrc]; exact Nat.not_le.1 hin)))

/-- Laps of the instruction put their elements into memory, which has all their bytes. -/
theorem behind_of_laps (h : Behind c i op w bytes 0 r) (hg : g.Quiet) (hop : op = .store ∨ op = .move)
    (hsize : bytes.size < 2 ^ 64) (hlaps : eval (laps i (element Board.bus g i op w) k) r = (.ok (), r')) :
    Behind c i op w bytes k r' ∧ ∀ j < k, c.FitsAt i.addrSize w op bytes.size j := by
  induction k generalizing r' with
  | zero =>
    cases hlaps
    exact ⟨h, fun j hj => absurd hj (Nat.not_lt_zero j)⟩
  | succ k ih =>
    obtain ⟨r₁, hbefore, hlap⟩ := eval_laps_succ_eq_ok hlaps
    obtain ⟨r₂, hran, rfl⟩ := eval_lap_eq_ok hlap
    obtain ⟨hbehind, hfits⟩ := ih hbefore
    by_cases hfit : c.FitsAt i.addrSize w op bytes.size k
    · obtain ⟨r₃, hran', hnext⟩ := hbehind.succ hg hop hsize hfit
      cases hran.symm.trans hran'
      refine ⟨hnext.setCount _ _, fun j hj => ?_⟩
      rcases Nat.lt_succ_iff_lt_or_eq.1 hj with hlt | rfl
      · exact hfits j hlt
      · exact hfit
    · obtain ⟨fault, hfault⟩ := hbehind.refused hg hop hsize hfit
      rw [hran] at hfault
      cases hfault

/-- A repeated store or move that does not give way is through if and only if memory has all bytes of its elements. Then
it is as many elements behind the start as the count says. -/
theorem behind_of_instr {s : Socket (Board γ δ)} {frame : Frame} (hbus : s.bus = Board.bus) (hg : s.guard.Quiet)
    (hi : i.op = .string op w) (hop : op = .store ∨ op = .move) (hrep : i.rep = .rep)
    (hmap : r.world.mem.mappings = none) (hsize : r.world.mem.ram.bytes.size < 2 ^ 64)
    (hyield : (eval (instr s frame i) r).1 ≠ .ok .giveWay) :
    let n := (r.cpu.count i.addrSize).toNat
    ((eval (instr s frame i) r).1 = .ok .next ↔
      ∀ k < n, r.cpu.FitsAt i.addrSize w op r.world.mem.ram.bytes.size k) ∧
    ((eval (instr s frame i) r).1 = .ok .next →
      Behind r.cpu i op w r.world.mem.ram.bytes n (eval (instr s frame i) r).2) := by
  intro n
  have hne : i.rep ≠ .once := by
    rw [hrep]
    exact nofun
  have hstart : Behind r.cpu i op w r.world.mem.ram.bytes 0 r :=
    ⟨rfl, fun _ _ _ _ _ => rfl, r.cpu.indexed_zero .., fun _ => r.cpu.indexed_zero .., hmap, rfl⟩
  have hlooped : Looped s.line frame i _ n 0 r _ := looped_instr hi hne (sparesCount_element hbus hg i op w) frame r
  generalize eval (instr s frame i) r = out at hlooped hyield ⊢
  rw [hbus] at hlooped
  cases hlooped with
  | empty none =>
    rw [none]
    exact ⟨⟨fun _ k hk => absurd hk (Nat.not_lt_zero k), fun _ => rfl⟩, fun _ => hstart⟩
  | through k r₁ r₂ lt goes hlaps ran last =>
    have hn : n = k + 1 := by
      rcases last with hn | hends
      · exact hn
      · rw [hrep] at hends
        cases hends
    -- the last iteration is a lap but for its retirement
    obtain ⟨-, hfits⟩ := behind_of_laps hstart hg hop hsize
      ((eval_laps_last k r).trans (by rw [hlaps]; exact eval_lap ran))
    obtain ⟨hbehind, -⟩ := behind_of_laps hstart hg hop hsize hlaps
    obtain ⟨r₃, hran, hlast⟩ := hbehind.succ hg hop hsize (hfits k (Nat.lt_succ_self k))
    cases ran.symm.trans hran
    rw [← hn] at hfits hlast
    exact ⟨⟨fun _ => hfits, fun _ => rfl⟩, fun _ => hlast.setCount _ r₂.retired⟩
  | gaveWay => exact absurd rfl hyield
  | faulted k r₁ r₂ fault lt goes hlaps ran =>
    obtain ⟨hbehind, -⟩ := behind_of_laps hstart hg hop hsize hlaps
    refine ⟨⟨nofun, fun hfits => ?_⟩, nofun⟩
    obtain ⟨r₃, hran, -⟩ := hbehind.succ hg hop hsize (hfits k lt)
    cases ran.symm.trans hran

/-- What a repeated store or move does that does not give way, in memory without mappings. With `n` elements to go by the
count, it is through if and only if memory has all their bytes, those that are read and those that are written. Then
memory is as it was with the elements put in one after the other, the index registers are `n` elements on, and no other
register but the count is changed, no flag, nothing else of the processor, and no byte outside the elements. A move that
reads nothing that it writes is a copy. -/
theorem eval_block {s : Socket (Board γ δ)} {frame : Frame} (hbus : s.bus = Board.bus) (hg : s.guard.Quiet)
    (hi : i.op = .string op w) (hop : op = .store ∨ op = .move) (hrep : i.rep = .rep)
    (hmap : r.world.mem.mappings = none) (hsize : r.world.mem.ram.bytes.size < 2 ^ 64)
    (hyield : (eval (instr s frame i) r).1 ≠ .ok .giveWay) :
    let c := r.cpu
    let a := i.addrSize
    let bytes := r.world.mem.ram.bytes
    let n := (c.read .rcx .w64).toNat % 2 ^ a.bits
    let out := eval (instr s frame i) r
    (out.1 = .ok .next ↔ ∀ k < n, c.FitsAt a w op bytes.size k) ∧
    (out.1 = .ok .next →
      out.2.world.mem.ram.bytes = c.block a w op bytes n ∧
      (out.2.cpu.read .rdi .w64).toNat = c.indexReg a w .rdi n ∧
      (op = .move → (out.2.cpu.read .rsi .w64).toNat = c.indexReg a w .rsi n) ∧
      (∀ reg : Reg, reg.high = false → reg.index ≠ Reg.rcx.index → reg.index ≠ Reg.rdi.index →
        (op = .move → reg.index ≠ Reg.rsi.index) → out.2.cpu.read reg .w64 = c.read reg .w64) ∧
      out.2.cpu = { c with regs := out.2.cpu.regs } ∧
      (∀ j, (∀ k < n, j < c.dstAt a w k ∨ c.dstAt a w k + w.bytes ≤ j) →
        out.2.world.mem.ram.bytes[j]? = bytes[j]?) ∧
      (op = .move → c.Disjoint a w n → ∀ k < n, ∀ b < w.bytes,
        out.2.world.mem.ram.bytes[c.dstAt a w k + b]? = bytes[c.srcAt a w k + b]?)) := by
  intro c a bytes n out
  have hn : (r.cpu.count i.addrSize).toNat = n := CodeSize.toNat_and_mask ..
  obtain ⟨hfits, hbehind⟩ := behind_of_instr hbus hg hi hop hrep hmap hsize hyield
  rw [hn] at hfits hbehind
  refine ⟨hfits, fun hnext => ?_⟩
  have hend := hbehind hnext
  refine ⟨hend.bytes, hend.dst.value, fun hmove => (hend.src hmove).value, hend.regs, hend.cpu, fun j hj => ?_, ?_⟩
  · exact (congrArg (·[j]?) hend.bytes).trans (c.getElem?_block_outside a w hj)
  · rintro rfl hdisjoint k hk b hb
    exact (congrArg (·[c.dstAt a w k + b]?) hend.bytes).trans
      (c.getElem?_block_move a w (hfits.1 hnext) hdisjoint hk hb)

/-- Before a move of three words downwards to where they overlap, with addresses of 16 bits. -/
def overlapping : Running (Board Unit Unit) :=
  let cpu := { Cpu.new .protectedMode with flags := Flags.fixed ||| Flags.direction }
  ⟨((cpu.write .rcx .w64 0x70003).write .rsi .w64 0x12340100).write .rdi .w64 0x56780102,
    ⟨{ ram := Ram.zeroPage.store 0x100 [0xAB, 0xCD] }, (), (), #[{}]⟩, 0, false⟩

/-- The move, as the only processor runs it. -/
def moved : Except Fault Flow × Running (Board Unit Unit) :=
  eval (instr ⟨Board.bus, .none, .toCaller, Board.line 0⟩ ⟨0, 8, 31⟩
    { op := .string .move .w16, len := 3, addrSize := .b16, rep := .rep }) overlapping

/-- The first word is two bytes higher, and the upper halves of the index registers are as they were. -/
theorem eval_block_overlapping :
    moved.1 = .ok .next ∧ moved.2.world.mem.ram.bytes[0x102]? = some 0xAB ∧
      (moved.2.cpu.read .rdi .w64).toNat = 0x567800FC ∧ (moved.2.cpu.read .rsi .w64).toNat = 0x123400FA := by
  have hnext : moved.1 = .ok .next := by decide +kernel
  have hyield : moved.1 ≠ .ok .giveWay := by rw [hnext]; exact nofun
  obtain ⟨-, hresult⟩ := eval_block (s := ⟨Board.bus, .none, .toCaller, Board.line 0⟩) rfl Guard.quiet_none rfl
    (Or.inr rfl) rfl (rfl : overlapping.world.mem.mappings = none) (by decide +kernel) hyield
  obtain ⟨hbytes, hdst, hsrc, -⟩ := hresult hnext
  refine ⟨hnext, ?_, hdst.trans (by decide +kernel), (hsrc rfl).trans (by decide +kernel)⟩
  rw [show moved.2.world.mem.ram.bytes = _ from hbytes]
  decide +kernel

end Exec

end TraceCore
