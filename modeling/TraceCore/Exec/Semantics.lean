/-
What each instruction does.
-/
import TraceCore.Exec.Access
import TraceCore.Exec.Repeat

namespace TraceCore.Exec

variable {ω : Type}

/-- One element of a string operation. The index registers wrap at the address size. -/
def element (bus : Bus ω) (guard : Guard ω) (i : Instr) (op : StringOp) (w : Width) :
    Exec ω Unit := do
  let c ← cpu
  let mask := i.addrSize.mask
  let si := c.read .rsi .w64 &&& mask
  let di := c.read .rdi .w64 &&& mask
  let src := c.linear c.ds.base si
  let dst := c.linear c.es.base di
  let size := UInt64.ofNat w.bytes
  let step := if c.backwards then 0 - size else size
  let advanceSrc := modifyCpu (·.write .rsi i.addrSize.width (si + step))
  let advanceDst := modifyCpu (·.write .rdi i.addrSize.width (di + step))
  match op with
  | .move =>
    storeWord bus guard dst w (← loadWord bus src w)
    advanceSrc
    advanceDst
  | .store =>
    storeWord bus guard dst w (c.read .rax .w64)
    advanceDst
  | .compare =>
    let lhs ← loadWord bus src w
    let rhs ← loadWord bus dst w
    modifyCpu (·.compare lhs rhs w)
    advanceSrc
    advanceDst
  | .scan =>
    let rhs ← loadWord bus dst w
    modifyCpu (·.compare (c.read .rax w) rhs w)
    advanceDst

/-- Replaces a register by its successor or predecessor, with the flags of the result. -/
def stepReg (r : Reg) (w : Width) (delta : UInt64) : Exec ω Unit :=
  modifyCpu fun c =>
    let value := c.read r w + delta
    (c.write r w value).withResult value w.bits

/-- Runs one instruction. -/
def instr (s : Socket ω) (frame : Frame) (i : Instr) : Exec ω Flow := do
  match i.op with
  | .nop => return .next
  | .halt =>
    if (← cpu).cpl = 0 then
      modifyCpu ({ · with halted := true })
      return .halt
    else throw (.semantic (.generalProtection 0))
  | .breakpoint => throw (.semantic .breakpoint)
  | .undefined => throw (.semantic .invalidOpcode)
  | .inc r =>
    stepReg r i.width 1
    return .next
  | .dec r =>
    stepReg r i.width (0 - 1)
    return .next
  | .moveImm r imm =>
    modifyCpu (·.write r i.width imm)
    return .next
  | .storeImm disp imm relative =>
    let c ← cpu
    let offset := if relative then c.rip + disp else disp &&& i.addrSize.mask
    store s.bus s.guard (c.linear c.ds.base offset) [imm]
    return .next
  | .storeAl offset =>
    let c ← cpu
    store s.bus s.guard (c.linear c.ds.base offset) [(c.read .rax .w8).toUInt8]
    return .next
  | .compareAl imm =>
    modifyCpu fun c => c.compare (c.read .rax .w8) imm.toUInt64 .w8
    return .next
  | .jump cond rel =>
    let c ← cpu
    let taken := match cond with
      | .always => true
      | .zero => c.zero
      | .notZero => !c.zero
    if taken then
      let target := c.rip + rel.toUInt64
      modifyCpu (·.setRip (if i.width = .w16 then target &&& 0xFFFF else target))
    return .branch taken
  | .string op w => repeated s.line frame i (element s.bus s.guard i op w)

end TraceCore.Exec
