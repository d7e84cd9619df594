import MaramOS.Lib.SaveArea
import MaramOS.Spec.Slab

/-! How a task leaves the processor and gets it back: the timer handler of
`scheduling/mod.rs`, the frame that `scheduling/task.rs` prepares for a new task, and the
entry of `syscalls/mod.rs`. All stack accesses are to whole words. -/

namespace MaramOS

open SaveArea

inductive Reg
  | rax | rbx | rcx | rdx | rsi | rdi | rbp | r8 | r9 | r10 | r11 | r12 | r13 | r14 | r15
  | rip | cs | rflags | rsp | ss
  deriving DecidableEq, Repr

abbrev Context := Reg → ℕ

namespace Trap

/-- What the processor pushes before the handler runs. -/
def interruptPushes : List Reg := [.ss, .rsp, .rflags, .cs, .rip]

def handlerPushes : List Reg :=
  [.rax, .rbx, .rcx, .rdx, .rsi, .rdi, .rbp, .r8, .r9, .r10, .r11, .r12, .r13, .r14, .r15]

def timerPushes : List Reg := interruptPushes ++ handlerPushes

/-- What the handler pops, and `iretq`. -/
def timerPops : List Reg :=
  [.r15, .r14, .r13, .r12, .r11, .r10, .r9, .r8, .rbp, .rdi, .rsi, .rdx, .rcx, .rbx, .rax] ++
  [.rip, .cs, .rflags, .rsp, .ss]

/-- `timer_handler` up to `sched_logic`, which gets the stack pointer. -/
def timerSave (context : Context) (top : ℕ) (mem : Memory) : ℕ × Memory := pushRegs context timerPushes (top, mem)

/-- `timer_handler` from the stack pointer that `sched_logic` returns; `context` is what is in the registers then. -/
def timerRestore (mem : Memory) (sp : ℕ) (context : Context) : Context := (popRegs mem timerPops (context, sp)).1

/-- `write_data` of a `u64` to the pages at `base`; `write_stack` ignores a refusal. -/
def storeWord (base count offset val : ℕ) (mem : Memory) : Memory :=
  if wmul count PAGE_SIZE < wadd offset 8 ∨ ¬8 ∣ offset then mem else Function.update mem (base + offset) val

def writeStack (base count entry rsp cs ds : ℕ) (mem : Memory) : ℕ × Memory :=
  let m := [ds, rsp, 0x202, cs, entry].foldl (fun m val =>
    (wsub m.1 8, storeWord base count (wsub m.1 8) val m.2)) (wmul count PAGE_SIZE, mem)
  (wsub m.1 (8 * 15), m.2)

def syscallPushes : List Reg :=
  [.rcx, .r11, .rbx, .rdx, .rsi, .rdi, .rbp, .r8, .r9, .r10, .r12, .r13, .r14, .r15]

def syscallPops : List Reg :=
  [.r15, .r14, .r13, .r12, .r10, .r9, .r8, .rbp, .rdi, .rsi, .rdx, .rbx, .r11, .rcx]

/-- `entry` up to the call of `dispatch`. The first and last `xchg` exchange `rsp` and `slot`, the `syscall_stack` of
the processor. -/
def syscallEnter (context : Context) (slot : ℕ) (mem : Memory) : Context × ℕ × Memory :=
  let m := pushRegs context syscallPushes (slot, mem)
  let regs := Function.update (Function.update context .rsp m.1) .rdi (context .rax)
  (Function.update regs .rsi (context .rbx), context .rsp, m.2)

/-- `entry` after the call. -/
def syscallLeave (context : Context) (slot : ℕ) (mem : Memory) : Context × ℕ :=
  let m := popRegs mem syscallPops (context, context .rsp)
  (Function.update m.1 .rsp slot, m.2)

end Trap

end MaramOS
