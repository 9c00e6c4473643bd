/-
Running in numbers. The executor is gone through once more for raw instructions, whose widths may be any numbers, with
every slice of a buffer and every shift by a width checked; what is out of range is a slip. Shifts by a constant are
left as they are. On the raw form of an instruction there is no slip, and it does what the instruction does. So nothing
that was decoded slips in any state.
-/
import TraceCore.Proofs.Exec.Iterate
import TraceCore.Proofs.Instr.Record

namespace TraceCore

namespace Word

theorem ofBytes_zeros (n : Nat) : ofBytes (List.replicate n 0) = 0 := by
  induction n with
  | zero => rfl
  | succ n ih =>
    rw [List.replicate_succ, ofBytes, ih]
    rfl

theorem ofBytes_append_zeros (bs : List UInt8) (n : Nat) : ofBytes (bs ++ List.replicate n 0) = ofBytes bs := by
  induction bs with
  | nil => exact ofBytes_zeros n
  | cons b bs ih => rw [List.cons_append, ofBytes, ih, ofBytes]

theorem take_toBytes {n m : Nat} (h : n ≤ m) (v : UInt64) : (toBytes m v).take n = toBytes n v := by
  induction n generalizing m v with
  | zero => rfl
  | succ n ih =>
    obtain ⟨m, rfl⟩ : ∃ k, m = k + 1 := ⟨m - 1, by omega⟩
    rw [toBytes, List.take_succ_cons, ih (by omega), toBytes]

end Word

/-- The low part of a register is what is left of it under a mask. -/
theorem Width.select_low (w : Width) (full : UInt64) : w.select false full = full &&& w.mask := by
  cases w <;> rfl

/-! ## Checks -/

/-- What is out of range. -/
inductive Slip where
  /-- A slice does not lie inside its buffer. -/
  | slice
  /-- A word is shifted by less than nothing, or by all its bits or more. -/
  | shift
deriving DecidableEq

/-- A part of an instruction that may slip. -/
abbrev Checked (ω : Type) := ExceptT Slip (Exec ω)

namespace Checked

variable {ω α β : Type}

/-- Runs a part that has nothing to check. -/
def lift (m : Exec ω α) : Checked ω α := ExceptT.lift m

/-- Goes on unless there was a slip. -/
def check (x : Except Slip α) : Checked ω α := ExceptT.mk (pure x)

@[simp] theorem check_ok (a : α) : check (.ok a) = (pure a : Checked ω α) := rfl

@[simp] theorem lift_pure (a : α) : lift (pure a) = (pure a : Checked ω α) := rfl

theorem lift_bind (m : Exec ω α) (f : α → Exec ω β) : lift (m >>= f) = lift m >>= fun a => lift (f a) :=
  ExceptT.lift_bind ..

theorem lift_ite {p : Prop} [Decidable p] (m n : Exec ω α) :
    lift (if p then m else n) = if p then lift m else lift n := apply_ite ..

/-- The slice from `start` up to `stop` lies inside a buffer of `len` bytes. -/
def within (start stop len : Nat) : Except Slip Unit :=
  if start ≤ stop ∧ stop ≤ len then .ok () else .error .slice

def slice (bs : List UInt8) (start stop : Nat) : Except Slip (List UInt8) := do
  within start stop bs.length
  return (bs.drop start).take (stop - start)

/-- A shift by `n` bits is one inside a word. -/
def shiftable (n : Int) : Except Slip Unit :=
  if 0 ≤ n ∧ n < 64 then .ok () else .error .shift

def shiftLeft (v : UInt64) (n : Int) : Except Slip UInt64 := do
  shiftable n
  return v <<< UInt64.ofNat n.toNat

def shiftRight (v : UInt64) (n : Int) : Except Slip UInt64 := do
  shiftable n
  return v >>> UInt64.ofNat n.toNat

theorem within_of_le {start stop len : Nat} (h : start ≤ stop) (h' : stop ≤ len) : within start stop len = .ok () :=
  if_pos ⟨h, h'⟩

theorem slice_of_le {bs : List UInt8} {start stop : Nat} (h : start ≤ stop) (h' : stop ≤ bs.length) :
    slice bs start stop = .ok ((bs.drop start).take (stop - start)) := by
  unfold slice
  rw [within_of_le h h']
  rfl

theorem shiftable_of_lt {n : Int} (h : 0 ≤ n) (h' : n < 64) : shiftable n = .ok () := if_pos ⟨h, h'⟩

/-! ## Masks and flags -/

/-- The low `bits` bits set. -/
def mask (bits : Nat) : Except Slip UInt64 :=
  if 64 ≤ bits then .ok 0xFFFFFFFFFFFFFFFF else return (← shiftLeft 1 bits) - 1

/-- Zero and sign flag of a result of `bits` bits. -/
def withResult (c : Cpu) (result : UInt64) (bits : Nat) : Except Slip Cpu := do
  let low ← mask bits
  let top ← shiftRight result (bits - 1)
  let zero := result &&& low == 0
  let sign := top &&& 1 != 0
  return { c with flags := Flags.assign (Flags.assign c.flags Flags.zero zero) Flags.sign sign }

/-- Flags of the comparison of two values of `bits` bits. -/
def compare (c : Cpu) (lhs rhs : UInt64) (bits : Nat) : Except Slip Cpu := do
  let low ← mask bits
  let c ← withResult c ((lhs - rhs) &&& low) bits
  return { c with flags := Flags.assign c.flags Flags.carry (lhs &&& low < rhs &&& low) }

/-- A mask asks for no shift that is out of range, whatever the width. -/
theorem mask_eq (bits : Nat) : mask bits = .ok (Word.mask bits) := by
  unfold mask Word.mask
  split
  case isTrue => rfl
  case isFalse h =>
    unfold shiftLeft
    rw [shiftable_of_lt (by omega) (by omega)]
    rfl

/-- The sign of a result is a shift, which only one to 64 bits allow. -/
theorem withResult_eq (c : Cpu) (result : UInt64) (bits : Nat) :
    withResult c result bits = if 0 < bits ∧ bits ≤ 64 then .ok (c.withResult result bits) else .error .shift := by
  unfold withResult shiftRight
  rw [mask_eq]
  split
  case isTrue h =>
    have htop : ((bits : Int) - 1).toNat = bits - 1 := by omega
    rw [shiftable_of_lt (by omega) (by omega), htop]
    rfl
  case isFalse h =>
    rw [show shiftable (bits - 1) = .error .shift from if_neg (by omega)]
    rfl

theorem withResult_bits (c : Cpu) (result : UInt64) (w : Width) :
    withResult c result w.bits = .ok (c.withResult result w.bits) := by
  rw [withResult_eq, if_pos (by cases w <;> decide)]

theorem compare_bits (c : Cpu) (lhs rhs : UInt64) (w : Width) :
    compare c lhs rhs w.bits = .ok (c.compare lhs rhs w) := by
  unfold compare
  rw [mask_eq]
  show withResult c _ w.bits >>= _ = _
  rw [withResult_bits]
  rfl

/-! ## Loads and stores -/

/-- Changes the state, unless that slips. -/
def update (f : Cpu → Except Slip Cpu) : Checked ω Unit := do
  let c ← check (f (← lift Exec.cpu))
  lift (Exec.modifyCpu fun _ => c)

/-- The bytes from position `done` on of a buffer of `len` that is filled from memory. -/
def fill (bus : Bus ω) (linear : UInt64) (len done : Nat) : Checked ω (List UInt8) :=
  if _h : done < len then do
    let addr := linear + UInt64.ofNat done
    let n := bytesInPage addr (len - done)
    let paddr ← lift (Exec.translate bus addr .read)
    check (within done (done + n) len)
    let piece ← lift (Exec.attempt .bus (bus.read paddr n))
    return piece ++ (← fill bus linear len (done + n))
  else return []
termination_by len - done
decreasing_by
  have := bytesInPage_pos (linear + UInt64.ofNat done) (Nat.sub_pos_of_lt _h)
  omega

/-- Stores the bytes from position `done` on, page by page. -/
def storePieces (bus : Bus ω) (linear : UInt64) (src : List UInt8) (done : Nat) : Checked ω Unit :=
  if _h : done < src.length then do
    let addr := linear + UInt64.ofNat done
    let n := bytesInPage addr (src.length - done)
    let paddr ← lift (Exec.translate bus addr .write)
    let piece ← check (slice src done (done + n))
    lift (Exec.attempt .bus (bus.write paddr piece))
    storePieces bus linear src (done + n)
  else return ()
termination_by src.length - done
decreasing_by
  have := bytesInPage_pos (linear + UInt64.ofNat done) (Nat.sub_pos_of_lt _h)
  omega

def store (bus : Bus ω) (guard : Guard ω) (linear : UInt64) (src : List UInt8) : Checked ω Unit := do
  if ← lift (Exec.world (guard.watches linear src.length .write)) then
    lift (modify fun r => { r with watchHit := true })
  if bytesInPage linear src.length = src.length then
    let addr ← lift (Exec.translate bus linear .write)
    lift (Exec.attempt .bus (bus.write addr src))
  else
    lift (Exec.probe bus linear src.length)
    storePieces bus linear src 0

/-- Loads an operand into the front of a buffer of eight zeros, and reads all of that. -/
def loadWord (bus : Bus ω) (linear : UInt64) (width : Nat) : Checked ω UInt64 := do
  check (within 0 width 8)
  return Word.ofBytes ((← fill bus linear width 0) ++ List.replicate (8 - width) 0)

/-- Stores the front of the eight bytes of a word. -/
def storeWord (bus : Bus ω) (guard : Guard ω) (linear : UInt64) (width : Nat) (value : UInt64) : Checked ω Unit := do
  store bus guard linear (← check (slice (Word.toBytes 8 value) 0 width))

theorem update_eq {f : Cpu → Except Slip Cpu} {g : Cpu → Cpu} (h : ∀ c, f c = .ok (g c)) :
    update f = lift (Exec.modifyCpu g : Exec ω Unit) := by
  obtain rfl : f = fun c => .ok (g c) := funext h
  rfl

theorem update_compare (lhs rhs : UInt64) (w : Width) :
    update (compare · lhs rhs (8 * w.bytes)) = lift (Exec.modifyCpu (·.compare lhs rhs w) : Exec ω Unit) :=
  update_eq fun c => compare_bits c lhs rhs w

/-- The pieces of a buffer lie inside it. -/
theorem fill_eq (bus : Bus ω) (linear : UInt64) {len done : Nat} (h : done ≤ len) :
    fill bus linear len done = lift (Exec.load bus (linear + UInt64.ofNat done) (len - done)) := by
  -- on what is left to fill, which each piece makes less
  induction hleft : len - done using Nat.strong_induction_on generalizing done with
  | _ left ih =>
    subst hleft
    rw [fill, Exec.load]
    by_cases hdone : done < len
    · have hpos := bytesInPage_pos (linear + UInt64.ofNat done) (Nat.sub_pos_of_lt hdone)
      have hle := bytesInPage_le (linear + UInt64.ofNat done) (len - done)
      rw [dif_pos hdone, dif_neg (by omega)]
      dsimp only
      simp only [lift_bind, lift_pure]
      congr 1; funext paddr
      rw [within_of_le (by omega) (by omega), check_ok, pure_bind]
      congr 1; funext piece
      rw [ih _ (by omega) (by omega) rfl, UInt64.add_assoc, UInt64.ofNat_add, Nat.sub_sub]
    · rw [dif_neg hdone, dif_pos (by omega)]
      rfl

theorem storePieces_eq (bus : Bus ω) (linear : UInt64) (src : List UInt8) {done : Nat} (h : done ≤ src.length) :
    storePieces bus linear src done =
      lift (Exec.storePieces bus (linear + UInt64.ofNat done) (src.drop done)) := by
  -- on what is left to store
  induction hleft : src.length - done using Nat.strong_induction_on generalizing done with
  | _ left ih =>
    subst hleft
    rw [storePieces, Exec.storePieces]
    by_cases hdone : done < src.length
    · have hpos := bytesInPage_pos (linear + UInt64.ofNat done) (Nat.sub_pos_of_lt hdone)
      have hle := bytesInPage_le (linear + UInt64.ofNat done) (src.length - done)
      rw [dif_pos hdone, dif_neg (by rw [List.length_drop]; omega)]
      simp only [List.length_drop, lift_bind]
      congr 1; funext paddr
      rw [slice_of_le (by omega) (by omega), check_ok, pure_bind, Nat.add_sub_cancel_left]
      congr 1; funext _
      rw [ih _ (by omega) (by omega) rfl, UInt64.add_assoc, UInt64.ofNat_add, List.drop_drop]
    · rw [dif_neg hdone, dif_pos (by rw [List.length_drop]; omega)]
      rfl

theorem store_eq (bus : Bus ω) (guard : Guard ω) (linear : UInt64) (src : List UInt8) :
    store bus guard linear src = lift (Exec.store bus guard linear src) := by
  unfold store Exec.store
  rw [storePieces_eq bus linear src (Nat.zero_le _)]
  simp only [lift_bind, lift_ite]
  simp

theorem loadWord_eq (bus : Bus ω) (linear : UInt64) (w : Width) :
    loadWord bus linear w.bytes = lift (Exec.loadWord bus linear w) := by
  unfold loadWord Exec.loadWord
  rw [within_of_le (Nat.zero_le _) w.bytes_le, check_ok, pure_bind, fill_eq bus linear (Nat.zero_le _)]
  simp only [lift_bind, lift_pure, Word.ofBytes_append_zeros]
  simp

theorem storeWord_eq (bus : Bus ω) (guard : Guard ω) (linear : UInt64) (w : Width) (value : UInt64) :
    storeWord bus guard linear w.bytes value = lift (Exec.storeWord bus guard linear w value) := by
  have hinside : w.bytes ≤ (Word.toBytes 8 value).length := by rw [Word.length_toBytes]; exact w.bytes_le
  unfold storeWord Exec.storeWord
  rw [slice_of_le (Nat.zero_le _) hinside, check_ok, pure_bind, store_eq]
  rw [List.drop_zero, Nat.sub_zero, Word.take_toBytes w.bytes_le]

/-! ## Instructions -/

/-- The width of a register access of so many bits. What is no narrower width is all of the register. -/
def widthOf (bits : Nat) : Width :=
  match bits with
  | 8 => .w8
  | 16 => .w16
  | 32 => .w32
  | _ => .w64

/-- The register with a number, of which four bits count. -/
def regOf (r : RawReg) : Reg := { Reg.ofIndex r.index with high := r.high }

@[simp] theorem widthOf_bits (w : Width) : widthOf w.bits = w := by cases w <;> rfl

@[simp] theorem regOf_raw (r : Reg) : regOf r.raw = r := by
  obtain ⟨index, high⟩ := r
  exact congrArg (Reg.mk · high) (Fin.ofNat_val_eq_self index)

/-- One element of a string operation. -/
def element (bus : Bus ω) (guard : Guard ω) (i : RawInstr) (op : StringOp) (width : Nat) : Checked ω Unit := do
  let c ← lift Exec.cpu
  let addrMask ← check (mask i.addrSize.bits)
  let si := c.read .rsi .w64 &&& addrMask
  let di := c.read .rdi .w64 &&& addrMask
  let src := c.linear c.ds.base si
  let dst := c.linear c.es.base di
  let size := UInt64.ofNat width
  let step := if c.backwards then 0 - size else size
  let advanceSrc := lift (Exec.modifyCpu (·.write .rsi i.addrSize.width (si + step)))
  let advanceDst := lift (Exec.modifyCpu (·.write .rdi i.addrSize.width (di + step)))
  match op with
  | .move =>
    storeWord bus guard dst width (← loadWord bus src width)
    advanceSrc
    advanceDst
  | .store =>
    storeWord bus guard dst width (c.read .rax .w64)
    advanceDst
  | .compare =>
    let lhs ← loadWord bus src width
    let rhs ← loadWord bus dst width
    update (compare · lhs rhs (8 * width))
    advanceSrc
    advanceDst
  | .scan =>
    let low ← check (mask (8 * width))
    let rhs ← loadWord bus dst width
    update (compare · (c.read .rax .w64 &&& low) rhs (8 * width))
    advanceDst

/-- Replaces a register by its successor or predecessor, with the flags of the result. -/
def stepReg (r : RawReg) (bits : Nat) (delta : UInt64) : Checked ω Unit :=
  update fun c =>
    let value := c.read (regOf r) (widthOf bits) + delta
    withResult (c.write (regOf r) (widthOf bits) value) value bits

/-- Up to `n` iterations, of which `since` ran since the last check for events. -/
def iterate (line : EventLine ω) (frame : Frame) (i : RawInstr) (body : Checked ω Unit) :
    (n since : Nat) → Checked ω Flow
  | 0, _ => return .next
  | n + 1, since => do
    body
    lift (Exec.modifyCpu (·.setCount i.addrSize (UInt64.ofNat n)))
    if n = 0 || i.rep.endsOn (← lift Exec.cpu).zero then return .next
    lift Exec.retire
    if since + 1 < max frame.interval 1 then
      iterate line frame i body n (since + 1)
    else if ← lift (Exec.mustGiveWay line frame) then
      lift (Exec.modifyCpu ({ · with rip := frame.rip }))
      return .giveWay
    else
      iterate line frame i body n 0

/-- Runs `body` as often as the instruction asks for. -/
def repeated (line : EventLine ω) (frame : Frame) (i : RawInstr) (body : Checked ω Unit) : Checked ω Flow := do
  if i.rep = .once then
    body
    return .next
  else
    let addrMask ← check (mask i.addrSize.bits)
    iterate line frame i body ((← lift Exec.cpu).read .rcx .w64 &&& addrMask).toNat 0

/-- Runs one instruction. -/
def instr (s : Socket ω) (frame : Frame) (i : RawInstr) : Checked ω Flow := do
  match i.op with
  | .nop => return .next
  | .halt =>
    if (← lift Exec.cpu).cpl = 0 then
      lift (Exec.modifyCpu ({ · with halted := true }))
      return .halt
    else lift (throw (.semantic (.generalProtection 0)))
  | .breakpoint => lift (throw (.semantic .breakpoint))
  | .undefined => lift (throw (.semantic .invalidOpcode))
  | .inc r =>
    stepReg r i.opBits 1
    return .next
  | .dec r =>
    stepReg r i.opBits (0 - 1)
    return .next
  | .moveImm r imm =>
    lift (Exec.modifyCpu (·.write (regOf r) (widthOf i.opBits) imm))
    return .next
  | .storeImm disp imm relative =>
    let c ← lift Exec.cpu
    let addrMask ← check (mask i.addrSize.bits)
    let offset := if relative then c.rip + disp else disp &&& addrMask
    store s.bus s.guard (c.linear c.ds.base offset) [imm]
    return .next
  | .storeAl offset =>
    let c ← lift Exec.cpu
    store s.bus s.guard (c.linear c.ds.base offset) [(c.read .rax .w8).toUInt8]
    return .next
  | .compareAl imm =>
    update fun c => compare c (c.read .rax .w8) imm.toUInt64 8
    return .next
  | .jump cond rel =>
    let c ← lift Exec.cpu
    let taken := match cond with
      | .always => true
      | .zero => c.zero
      | .notZero => !c.zero
    if taken then
      let target := c.rip + rel.toUInt64
      lift (Exec.modifyCpu (·.setRip (if i.opBits = 16 then target &&& 0xFFFF else target)))
    return .branch taken
  | .string op width => repeated s.line frame i (element s.bus s.guard i op width)

theorem element_eq (bus : Bus ω) (guard : Guard ω) (i : Instr) (op : StringOp) (w : Width) :
    element bus guard i.raw op w.bytes = lift (Exec.element bus guard i op w) := by
  unfold element Exec.element
  rw [show mask i.raw.addrSize.bits = .ok i.addrSize.mask from mask_eq _]
  simp only [lift_bind, check_ok, pure_bind]
  congr 1; funext c
  cases op with
  | move =>
    dsimp only
    rw [loadWord_eq]
    simp only [lift_bind, storeWord_eq]
    rfl
  | store =>
    dsimp only
    rw [storeWord_eq]
    simp only [lift_bind]
    rfl
  | compare =>
    dsimp only
    rw [loadWord_eq, loadWord_eq]
    simp only [lift_bind]
    congr 1; funext lhs
    congr 1; funext rhs
    rw [update_compare]
    rfl
  | scan =>
    -- the register is masked here, and read by its width there
    dsimp only
    rw [show mask (8 * w.bytes) = .ok w.mask from mask_eq _, check_ok, pure_bind, loadWord_eq]
    simp only [lift_bind]
    congr 1; funext rhs
    have hlhs : c.read .rax .w64 &&& w.mask = c.read .rax w := by
      unfold Cpu.read
      rw [show Reg.rax.high = false from rfl, Width.select_low, Width.select_low, and_mask_w64]
    rw [hlhs, update_compare]
    rfl

theorem stepReg_eq (r : Reg) (w : Width) (delta : UInt64) :
    stepReg r.raw w.bits delta = lift (Exec.stepReg r w delta : Exec ω Unit) := by
  refine update_eq fun c => ?_
  dsimp only
  rw [regOf_raw, widthOf_bits, withResult_bits]

theorem iterate_eq (line : EventLine ω) (frame : Frame) (i : Instr) (body : Exec ω Unit) (n since : Nat) :
    iterate line frame i.raw (lift body) n since = lift (Exec.iterate line frame i body n since) := by
  induction n generalizing since with
  | zero => rfl
  | succ n ih =>
    unfold iterate Exec.iterate
    simp only [lift_bind, lift_ite, lift_pure, ih]
    rfl

theorem repeated_eq (line : EventLine ω) (frame : Frame) (i : Instr) (body : Exec ω Unit) :
    repeated line frame i.raw (lift body) = lift (Exec.repeated line frame i body) := by
  unfold repeated Exec.repeated
  rw [show mask i.raw.addrSize.bits = .ok i.addrSize.mask from mask_eq _]
  simp only [lift_bind, lift_ite, lift_pure, check_ok, pure_bind, iterate_eq]
  rfl

theorem instr_eq (s : Socket ω) (frame : Frame) (i : Instr) :
    instr s frame i.raw = lift (Exec.instr s frame i) := by
  obtain ⟨op, len, width, addrSize, repetition, ends⟩ := i
  unfold instr Exec.instr Instr.raw
  cases op with
  | nop => rfl
  | halt =>
    simp only [Op.raw, lift_bind, lift_ite, lift_pure]
  | breakpoint => rfl
  | undefined => rfl
  | inc r => simp only [Op.raw, lift_bind, lift_pure, stepReg_eq]
  | dec r => simp only [Op.raw, lift_bind, lift_pure, stepReg_eq]
  | moveImm r imm => simp only [Op.raw, lift_bind, lift_pure, regOf_raw, widthOf_bits]
  | storeImm disp imm relative =>
    simp only [Op.raw, lift_bind, lift_pure, mask_eq, check_ok, pure_bind, store_eq]
    rfl
  | storeAl offset => simp only [Op.raw, lift_bind, lift_pure, store_eq]
  | compareAl imm =>
    have hupdate := update_eq (ω := ω) (f := fun c => compare c (c.read .rax .w8) imm.toUInt64 8)
      fun c => compare_bits c _ _ .w8
    simp only [Op.raw, lift_bind, lift_pure, hupdate]
  | jump cond rel =>
    simp only [Op.raw, lift_bind, lift_ite]
    cases width <;> rfl
  | string op w =>
    let i : Instr := ⟨.string op w, len, width, addrSize, repetition, ends⟩
    show repeated s.line frame i.raw (element s.bus s.guard i.raw op w.bytes) =
      lift (Exec.repeated s.line frame i (Exec.element s.bus s.guard i op w))
    rw [element_eq, repeated_eq]

end Checked

/-- In any state the raw instruction runs as the instruction does, and does not slip. -/
def RawInstr.RunsAs (raw : RawInstr) (i : Instr) : Prop :=
  ∀ (ω : Type) (s : Socket ω) (frame : Frame) (r : Running ω),
    Exec.eval (Checked.instr s frame raw).run r =
      ((Exec.eval (Exec.instr s frame i) r).1.map .ok, (Exec.eval (Exec.instr s frame i) r).2)

theorem Instr.runsAs_raw (i : Instr) : i.raw.RunsAs i := by
  intro ω s frame r
  rw [Checked.instr_eq]
  show Exec.eval ((Except.ok : Flow → Except Slip Flow) <$> Exec.instr s frame i) r = _
  rw [map_eq_pure_bind, Exec.eval_bind]
  rcases Exec.eval (Exec.instr s frame i) r with ⟨_ | _, r'⟩
  · rfl
  · rfl

/-- Well-formed numbers are enough not to slip. -/
theorem RawInstr.WellFormed.runsAs {code : CodeSize} {raw : RawInstr} (h : raw.WellFormed code) :
    ∃ i : Instr, i.raw = raw ∧ raw.RunsAs i := by
  obtain ⟨i, rfl⟩ := h.exists_raw
  exact ⟨i, rfl, i.runsAs_raw⟩

/-- Other numbers are not: a register of no bits has no sign to shift out. -/
example (s : Socket Unit) (frame : Frame) (r : Running Unit) :
    Exec.eval (Checked.instr s frame ⟨.inc ⟨0, false⟩, 0, .b32, .once⟩).run r = (.ok (.error .shift), r) := rfl

/-- An instruction that is decoded is one that code of the mode's size can mean. So it does not slip in any state. -/
theorem decodeInstr_wellFormed {bytes : List UInt8} {mode : FetchMode} {i : Instr}
    (h : decodeInstr bytes mode = .complete i) : i.raw.WellFormed mode.code ∧ i.raw.RunsAs i := by
  obtain ⟨j, rest, hi, -, -, hread⟩ := decodeInstr_eq_complete h
  have hj : j.raw.WellFormed mode.code := wellFormed_readInstr mode.code _ _ _ hread
  have hi : i.raw = j.raw := by rw [hi]; rfl
  exact ⟨hi ▸ hj, i.runsAs_raw⟩

/-- A repeated move of words in 32-bit code. -/
theorem decodeInstr_wellFormed_move :
    let i : Instr := { op := .string .move .w16, len := 3, width := .w16, rep := .rep }
    decodeInstr [0xF3, 0x66, 0xA5] ⟨.b32, 0⟩ = .complete i ∧ i.raw.WellFormed .b32 ∧ i.raw.RunsAs i := by
  intro i
  have h : decodeInstr [0xF3, 0x66, 0xA5] ⟨.b32, 0⟩ = .complete i := by decide +kernel
  exact ⟨h, decodeInstr_wellFormed h⟩

end TraceCore
