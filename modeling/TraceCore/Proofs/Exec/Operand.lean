/-
Instructions part by part. An instruction reaches memory only by loading and storing operands in its two data segments.
What relates its parts in one world to the same parts in another, and goes through where one part follows another, relates
all of the instruction if it relates these loads and stores. With one world it is a property of an instruction.
-/
import TraceCore.Exec.Semantics
import TraceCore.Proofs.Cpu.Context
import TraceCore.Proofs.Cpu.Register
import TraceCore.Proofs.Exec.Access

namespace TraceCore

/-- Bytes of a memory operand. -/
def Instr.operandBytes (i : Instr) : Nat :=
  match i.op with
  | .string _ w => w.bytes
  | _ => 1

theorem Instr.operandBytes_ne_zero (i : Instr) : i.operandBytes ≠ 0 := by
  unfold operandBytes
  split
  case h_1 w _ => cases w <;> decide
  case h_2 => decide

theorem Instr.operandBytes_le (i : Instr) : i.operandBytes ≤ 8 := by
  unfold operandBytes
  split
  case h_1 w _ => cases w <;> decide
  case h_2 => decide

theorem Instr.operandBytes_le_pageSize (i : Instr) : i.operandBytes ≤ pageSize :=
  Nat.le_trans i.operandBytes_le (by decide)

/-- The segments and offsets that an instruction can form for its operands. -/
inductive Instr.Forms (i : Instr) : DataSegment → UInt64 → Prop
  /-- By an index register. -/
  | index (op : StringOp) (w : Width) (hop : i.op = .string op w) (segment : DataSegment) (v : UInt64) :
      i.Forms segment (v &&& i.addrSize.mask)
  | absolute (disp : UInt64) (imm : UInt8) (hop : i.op = .storeImm disp imm false) : i.Forms .ds (disp &&& i.addrSize.mask)
  /-- From the next instruction, at `rip`. -/
  | relative (disp : UInt64) (imm : UInt8) (hop : i.op = .storeImm disp imm true) (rip : UInt64) :
      i.Forms .ds (rip + disp)
  | fixed (offset : UInt64) (hop : i.op = .storeAl offset) : i.Forms .ds offset

namespace Exec

/-- A change of registers and flags. -/
def OnlyRegs (f : Cpu → Cpu) : Prop := ∀ c, f c = { c with regs := (f c).regs, flags := (f c).flags }

theorem onlyRegs_write (r : Reg) (w : Width) (value : Cpu → UInt64) : OnlyRegs fun c => c.write r w (value c) :=
  fun _ => rfl

theorem onlyRegs_compare (lhs rhs : Cpu → UInt64) (w : Width) : OnlyRegs fun c => c.compare (lhs c) (rhs c) w :=
  fun _ => rfl

theorem onlyRegs_setCount (size : CodeSize) (n : UInt64) : OnlyRegs fun c => c.setCount size n := by
  intro c
  cases size <;> rfl

theorem OnlyRegs.sameContext {f : Cpu → Cpu} (hf : OnlyRegs f) (c : Cpu) : c.SameContext (f c) := by
  rw [hf c]
  exact ⟨rfl, rfl, rfl, rfl, rfl⟩

variable {ω ω' : Type} {s : Socket ω} {s' : Socket ω'} {C : Cpu → Prop} {i : Instr}
  {P : {α : Type} → Exec ω α → Exec ω' α → Prop}

/-! ## Elements of string operations -/

/-- A relation between parts of an element that runs in the contexts of `C`, where loads and stores are at the offsets
that the instruction can form. -/
structure Elementwise (s : Socket ω) (s' : Socket ω') (C : Cpu → Prop) (i : Instr)
    (P : {α : Type} → Exec ω α → Exec ω' α → Prop) : Prop extends Composes P where
  cpu : ∀ {α : Type} {f : Cpu → Exec ω α} {f' : Cpu → Exec ω' α}, (∀ c, C c → P (f c) (f' c)) →
    P (Exec.cpu >>= f) (Exec.cpu >>= f')
  /-- The index registers move, and flags are set. -/
  calm : ∀ {f : Cpu → Cpu}, OnlyRegs f → (∀ c, (f c).read .rcx .w64 = c.read .rcx .w64) →
    P (Exec.modifyCpu f) (Exec.modifyCpu f)
  load : ∀ c segment offset, C c → i.Forms segment offset →
    P (load s.bus (c.dataAddress segment offset) i.operandBytes) (load s'.bus (c.dataAddress segment offset) i.operandBytes)
  store : ∀ c segment offset src, C c → i.Forms segment offset → src.length = i.operandBytes →
    P (store s.bus s.guard (c.dataAddress segment offset) src) (store s'.bus s'.guard (c.dataAddress segment offset) src)

theorem Elementwise.element (h : Elementwise s s' C i P) {op : StringOp} {w : Width} (hop : i.op = .string op w) :
    P (element s.bus s.guard i op w) (element s'.bus s'.guard i op w) := by
  have hw : w.bytes = i.operandBytes := by unfold Instr.operandBytes; rw [hop]
  unfold Exec.element
  refine h.cpu fun c hc => ?_
  have hload : ∀ (segment : DataSegment) (v : UInt64),
      P (loadWord s.bus (c.linear (c.base segment) (v &&& i.addrSize.mask)) w)
        (loadWord s'.bus (c.linear (c.base segment) (v &&& i.addrSize.mask)) w) := by
    intro segment v
    unfold loadWord
    rw [c.linear_base, hw]
    exact h.bind (h.load c segment _ hc (.index op w hop segment v)) fun _ => h.pure _
  have hstore : ∀ v value : UInt64,
      P (storeWord s.bus s.guard (c.linear (c.base .es) (v &&& i.addrSize.mask)) w value)
        (storeWord s'.bus s'.guard (c.linear (c.base .es) (v &&& i.addrSize.mask)) w value) := by
    intro v value
    unfold storeWord
    rw [c.linear_base]
    exact h.store c .es _ _ hc (.index op w hop .es v) (by rw [Word.length_toBytes, hw])
  have hwrite : ∀ (r : Reg) (value : UInt64), r.index ≠ Reg.rcx.index →
      P (Exec.modifyCpu (·.write r i.addrSize.width value)) (Exec.modifyCpu (·.write r i.addrSize.width value)) :=
    fun r value hr => h.calm (onlyRegs_write r _ fun _ => value) fun c => c.read_write_of_ne hr _ .w64 value
  have hsi (value : UInt64) := hwrite .rsi value (by decide)
  have hdi (value : UInt64) := hwrite .rdi value (by decide)
  have hcompare : ∀ lhs rhs : UInt64, P (Exec.modifyCpu (·.compare lhs rhs w)) (Exec.modifyCpu (·.compare lhs rhs w)) :=
    fun lhs rhs => h.calm (onlyRegs_compare (fun _ => lhs) (fun _ => rhs) w) fun _ => rfl
  cases op with
  | move =>
    refine h.bind (hload .ds _) fun value => h.bind (hstore _ _) fun _ => ?_
    exact h.bind (hsi _) fun _ => hdi _
  | store => exact h.bind (hstore _ _) fun _ => hdi _
  | compare =>
    refine h.bind (hload .ds _) fun lhs => h.bind (hload .es _) fun rhs => ?_
    exact h.bind (hcompare _ _) fun _ => h.bind (hsi _) fun _ => hdi _
  | scan =>
    refine h.bind (hload .es _) fun rhs => ?_
    exact h.bind (hcompare _ _) fun _ => hdi _

/-! ## Whole instructions -/

theorem instr_string {op : StringOp} {w : Width} (hop : i.op = .string op w) (s : Socket ω) (frame : Frame) :
    instr s frame i = repeated s.line frame i (element s.bus s.guard i op w) := by
  unfold instr
  rw [hop]

/-- A relation between parts of an instruction that counts nothing itself. -/
structure Oncewise (s : Socket ω) (s' : Socket ω') (C : Cpu → Prop) (i : Instr)
    (P : {α : Type} → Exec ω α → Exec ω' α → Prop) : Prop extends Elementwise s s' C i P where
  throw : ∀ {α : Type} (e : Fault), P (throw e : Exec ω α) (throw e)
  modifyCpu : ∀ {f : Cpu → Cpu}, (∀ c : Cpu, c.SameContext (f c)) → P (Exec.modifyCpu f) (Exec.modifyCpu f)

namespace Oncewise

variable (h : Oncewise s s' C i P) (frame : Frame)
include h

theorem instr_of_string (hstring : ∀ op w, i.op = .string op w → P (repeated s.line frame i (element s.bus s.guard i op w))
      (repeated s'.line frame i (element s'.bus s'.guard i op w))) :
    P (instr s frame i) (instr s' frame i) := by
  -- both one-byte stores are at an offset of the first data segment
  have hstore : ∀ {c : Cpu} {offset : UInt64} (b : UInt8), C c → i.operandBytes = 1 → i.Forms .ds offset →
      P (do Exec.store s.bus s.guard (c.linear c.ds.base offset) [b]; return Flow.next)
        (do Exec.store s'.bus s'.guard (c.linear c.ds.base offset) [b]; return Flow.next) := by
    intro c offset b hc hbytes hat
    rw [show c.linear c.ds.base offset = c.dataAddress .ds offset from c.linear_base .ds _]
    exact h.bind (h.store c .ds offset [b] hc hat hbytes.symm) fun _ => h.pure _
  have hnext : ∀ {f : Cpu → Cpu}, (∀ c : Cpu, c.SameContext (f c)) →
      P (do Exec.modifyCpu f; return Flow.next) (do Exec.modifyCpu f; return Flow.next) :=
    fun hf => h.bind (h.modifyCpu hf) fun _ => h.pure _
  unfold Exec.instr
  split
  case h_1 => exact h.pure _
  case h_2 =>
    refine h.cpu fun c _ => h.ite ?_ (h.throw _)
    exact h.bind (h.modifyCpu fun _ => ⟨rfl, rfl, rfl, rfl, rfl⟩) fun _ => h.pure _
  case h_3 => exact h.throw _
  case h_4 => exact h.throw _
  case h_5 => exact hnext fun _ => ⟨rfl, rfl, rfl, rfl, rfl⟩
  case h_6 => exact hnext fun _ => ⟨rfl, rfl, rfl, rfl, rfl⟩
  case h_7 => exact hnext fun _ => ⟨rfl, rfl, rfl, rfl, rfl⟩
  case h_8 disp imm relative hop =>
    have hbytes : i.operandBytes = 1 := by unfold Instr.operandBytes; rw [hop]
    refine h.cpu fun c hc => hstore imm hc hbytes ?_
    cases relative with
    | true => exact .relative disp imm hop c.rip
    | false => exact .absolute disp imm hop
  case h_9 offset hop =>
    have hbytes : i.operandBytes = 1 := by unfold Instr.operandBytes; rw [hop]
    exact h.cpu fun c hc => hstore _ hc hbytes (.fixed offset hop)
  case h_10 => exact hnext fun _ => ⟨rfl, rfl, rfl, rfl, rfl⟩
  case h_11 =>
    refine h.cpu fun c _ => ?_
    dsimp only
    refine h.ite ?_ (h.pure _)
    exact h.bind (h.modifyCpu fun _ => ⟨rfl, rfl, rfl, rfl, rfl⟩) fun _ => h.pure _
  case h_12 op w hop => exact hstring op w hop

theorem instr (honce : ∀ op w, i.op = .string op w → i.rep = .once) : P (instr s frame i) (instr s' frame i) := by
  refine h.instr_of_string frame fun op w hop => ?_
  unfold repeated
  rw [if_pos (honce op w hop), if_pos (honce op w hop)]
  exact h.bind (h.element hop) fun _ => h.pure _

end Oncewise

/-- A relation between all parts of an instruction. -/
structure Partwise (s : Socket ω) (s' : Socket ω') (C : Cpu → Prop) (i : Instr)
    (P : {α : Type} → Exec ω α → Exec ω' α → Prop) : Prop extends Oncewise s s' C i P where
  retire : P Exec.retire Exec.retire
  mustGiveWay : ∀ frame, P (Exec.mustGiveWay s.line frame) (Exec.mustGiveWay s'.line frame)

namespace Partwise

theorem iterate (h : Partwise s s' C i P) (frame : Frame) {body : Exec ω Unit} {body' : Exec ω' Unit}
    (hbody : P body body') (n since : Nat) :
    P (iterate s.line frame i body n since) (iterate s'.line frame i body' n since) := by
  induction n generalizing since with
  | zero => exact h.pure _
  | succ n ih =>
    unfold Exec.iterate
    refine h.bind hbody fun _ => h.bind (h.modifyCpu (onlyRegs_setCount _ _).sameContext) fun _ => h.cpu fun c _ => ?_
    refine h.ite (h.pure _) (h.bind h.retire fun _ => h.ite (ih _) ?_)
    refine h.bind (h.mustGiveWay frame) fun giveWay => h.ite ?_ (ih _)
    exact h.bind (h.modifyCpu fun _ => ⟨rfl, rfl, rfl, rfl, rfl⟩) fun _ => h.pure _

/-- What relates the parts of an instruction relates the instruction. -/
theorem instr (h : Partwise s s' C i P) (frame : Frame) : P (instr s frame i) (instr s' frame i) := by
  refine h.instr_of_string frame fun op w hop => ?_
  unfold repeated
  refine h.ite ?_ (h.cpu fun c _ => h.iterate frame (h.element hop) _ _)
  exact h.bind (h.element hop) fun _ => h.pure _

end Partwise

/-! ## What may fault comes first -/

/-- Of the parts of an instruction those of `looks` come first, then one that may fault, and behind it those of `after`. -/
structure Phased (s : Socket ω) (looks after P : {α : Type} → Exec ω α → Prop) : Prop where
  pure : ∀ {α : Type} (a : α), after (pure a)
  modifyCpu : ∀ f : Cpu → Cpu, after (Exec.modifyCpu f)
  bind : ∀ {α β : Type} {m : Exec ω α} {f : α → Exec ω β}, after m → (∀ a, after (f a)) → after (m >>= f)
  of_after : ∀ {α : Type} {m : Exec ω α}, after m → P m
  throw : ∀ {α : Type} (e : Fault), P (throw e : Exec ω α)
  look : ∀ {α β : Type} {m : Exec ω α} {f : α → Exec ω β}, looks m → (∀ a, P (f a)) → P (m >>= f)
  behind : ∀ {α β : Type} {m : Exec ω α} {f : α → Exec ω β}, P m → (∀ a, after (f a)) → P (m >>= f)
  cpu : looks Exec.cpu
  load : ∀ linear w, looks (loadWord s.bus linear w)
  store : ∀ linear src, src.length ≤ 8 → P (store s.bus s.guard linear src)

namespace Phased

variable {looks after P : {α : Type} → Exec ω α → Prop}

theorem ite (_ : Phased s looks after P) {α : Type} {p : Prop} [Decidable p] {m n : Exec ω α} (hm : P m) (hn : P n) :
    P (if p then m else n) := by
  split
  · exact hm
  · exact hn

theorem element (h : Phased s looks after P) (i : Instr) (op : StringOp) (w : Width) :
    P (element s.bus s.guard i op w) := by
  have hstore (linear value : UInt64) : P (storeWord s.bus s.guard linear w value) := by
    refine h.store linear _ ?_
    rw [Word.length_toBytes]
    cases w <;> decide
  unfold Exec.element
  refine h.look h.cpu fun c => ?_
  cases op with
  | move =>
    refine h.look (h.load _ w) fun value => h.behind (hstore _ value) fun _ => ?_
    exact h.bind (h.modifyCpu _) fun _ => h.modifyCpu _
  | store => exact h.behind (hstore _ _) fun _ => h.modifyCpu _
  | compare =>
    refine h.look (h.load _ w) fun lhs => h.look (h.load _ w) fun rhs => h.of_after ?_
    exact h.bind (h.modifyCpu _) fun _ => h.bind (h.modifyCpu _) fun _ => h.modifyCpu _
  | scan =>
    refine h.look (h.load _ w) fun rhs => h.of_after ?_
    exact h.bind (h.modifyCpu _) fun _ => h.modifyCpu _

/-- An instruction has the property if the iterations of a repeated one do. -/
theorem instr_of_string (h : Phased s looks after P) (frame : Frame)
    (hstring : ∀ op w, i.op = .string op w → i.rep ≠ .once →
      P (repeated s.line frame i (Exec.element s.bus s.guard i op w))) : P (instr s frame i) := by
  have hnext {f : Cpu → Cpu} {flow : Flow} : after (do Exec.modifyCpu f; return flow) :=
    h.bind (h.modifyCpu f) fun _ => h.pure flow
  have hstore (linear : UInt64) (b : UInt8) : P (do Exec.store s.bus s.guard linear [b]; return Flow.next) :=
    h.behind (h.store linear [b] (show [b].length ≤ 8 from (by decide : 1 ≤ 8))) fun _ => h.pure _
  unfold Exec.instr
  split
  case h_1 => exact h.of_after (h.pure _)
  case h_2 => exact h.look h.cpu fun c => h.ite (h.of_after hnext) (h.throw _)
  case h_3 => exact h.throw _
  case h_4 => exact h.throw _
  case h_5 => exact h.of_after hnext
  case h_6 => exact h.of_after hnext
  case h_7 => exact h.of_after hnext
  case h_8 => exact h.look h.cpu fun c => hstore _ _
  case h_9 => exact h.look h.cpu fun c => hstore _ _
  case h_10 => exact h.of_after hnext
  case h_11 =>
    refine h.look h.cpu fun c => ?_
    dsimp only
    exact h.ite (h.of_after hnext) (h.of_after (h.pure _))
  case h_12 op w hop =>
    by_cases hrep : i.rep = .once
    case pos =>
      unfold repeated
      rw [if_pos hrep]
      exact h.behind (h.element i op w) fun _ => h.pure _
    case neg => exact hstring op w hop hrep

end Phased

/-! ## Properties of one instruction -/

section

variable {c₀ : Cpu} {P : {α : Type} → Exec ω α → Prop}

/-- A property of the parts of an instruction that runs in the context of `c₀`, where loads and stores are at the offsets
that the instruction can form. -/
structure Offsetwise (s : Socket ω) (c₀ : Cpu) (i : Instr) (P : {α : Type} → Exec ω α → Prop) : Prop where
  pure : ∀ {α : Type} (a : α), P (pure a)
  throw : ∀ {α : Type} (e : Fault), P (throw e : Exec ω α)
  bind : ∀ {α β : Type} {m : Exec ω α} {f : α → Exec ω β}, P m → (∀ a, P (f a)) → P (m >>= f)
  cpu : ∀ {α : Type} {f : Cpu → Exec ω α}, (∀ c, c₀.SameContext c → P (f c)) → P (Exec.cpu >>= f)
  modifyCpu : ∀ {f : Cpu → Cpu}, (∀ c : Cpu, c.SameContext (f c)) → P (Exec.modifyCpu f)
  retire : P Exec.retire
  mustGiveWay : ∀ frame, P (Exec.mustGiveWay s.line frame)
  load : ∀ segment offset, i.Forms segment offset → P (load s.bus (c₀.dataAddress segment offset) i.operandBytes)
  store : ∀ segment offset src, i.Forms segment offset → src.length = i.operandBytes →
    P (store s.bus s.guard (c₀.dataAddress segment offset) src)

/-- Beside an instruction in the same world nothing is asked of the second one. -/
theorem Offsetwise.partwise (h : Offsetwise s c₀ i P) : Partwise s s c₀.SameContext i fun m _ => P m where
  pure := h.pure
  throw := h.throw
  bind := h.bind
  cpu := h.cpu
  calm hf _ := h.modifyCpu hf.sameContext
  modifyCpu := h.modifyCpu
  retire := h.retire
  mustGiveWay := h.mustGiveWay
  load c segment offset hc hat := by
    rw [hc.dataAddress]
    exact h.load segment offset hat
  store c segment offset src hc hat hlen := by
    rw [hc.dataAddress]
    exact h.store segment offset src hat hlen

/-- What holds of the loads and stores of its operands holds of an instruction. -/
theorem Offsetwise.instr (h : Offsetwise s c₀ i P) (frame : Frame) : P (instr s frame i) := h.partwise.instr frame

/-- A property of the parts of an instruction that runs in the context of `c₀`. -/
structure Operandwise (s : Socket ω) (c₀ : Cpu) (i : Instr) (P : {α : Type} → Exec ω α → Prop) : Prop where
  pure : ∀ {α : Type} (a : α), P (pure a)
  throw : ∀ {α : Type} (e : Fault), P (throw e : Exec ω α)
  bind : ∀ {α β : Type} {m : Exec ω α} {f : α → Exec ω β}, P m → (∀ a, P (f a)) → P (m >>= f)
  cpu : ∀ {α : Type} {f : Cpu → Exec ω α}, (∀ c, c₀.SameContext c → P (f c)) → P (Exec.cpu >>= f)
  modifyCpu : ∀ {f : Cpu → Cpu}, (∀ c : Cpu, c.SameContext (f c)) → P (Exec.modifyCpu f)
  retire : P Exec.retire
  mustGiveWay : ∀ frame, P (Exec.mustGiveWay s.line frame)
  load : ∀ linear, c₀.HasOperandAt linear → P (load s.bus linear i.operandBytes)
  store : ∀ linear src, c₀.HasOperandAt linear → src.length = i.operandBytes → P (store s.bus s.guard linear src)

/-- What holds of loads and stores anywhere in the data segments holds of those of an instruction. -/
theorem Operandwise.instr (h : Operandwise s c₀ i P) (frame : Frame) : P (instr s frame i) := by
  have hoffset : Offsetwise s c₀ i P :=
    { pure := h.pure, throw := h.throw, bind := h.bind, cpu := h.cpu, modifyCpu := h.modifyCpu, retire := h.retire
      mustGiveWay := h.mustGiveWay
      load := fun segment offset _ => h.load _ (c₀.hasOperandAt_dataAddress segment offset)
      store := fun segment offset src _ => h.store _ src (c₀.hasOperandAt_dataAddress segment offset) }
  exact hoffset.instr frame

end

end Exec

end TraceCore
