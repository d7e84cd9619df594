import MaramOS.Spec.Trap

/-! What a task finds when it gets the processor back. -/

namespace MaramOS.Trap

open SaveArea

theorem mem_timerPushes (r : Reg) : r ∈ timerPushes := by
  cases r <;> decide

/-- A task goes on with the registers it was interrupted with, as long as the words of its frame are kept. -/
theorem context_restored (context context' : Context) {top : ℕ} {mem mem' : Memory} (hroom : 160 ≤ top)
    (hkept : ∀ a, top - 160 ≤ a → a < top → mem' a = (timerSave context top mem).2 a) :
    timerRestore mem' (timerSave context top mem).1 context' = context := by
  have hlen : timerPushes.length = 20 := rfl
  have hback : popRegs mem' timerPushes.reverse (context', (timerSave context top mem).1) =
      (fun r => if r ∈ timerPushes then context r else context' r, top) :=
    popRegs_pushRegs (by rwa [hlen]) (by decide) (by rwa [hlen]) context'
  rw [timerRestore, show timerPops = timerPushes.reverse by decide, hback]
  funext r
  exact if_pos (mem_timerPushes r)

theorem context_restored_top :
    timerRestore (timerSave (fun _ => 7) 4096 fun _ => 0).2 (timerSave (fun _ => 7) 4096 fun _ => 0).1 (fun _ => 0) =
      fun _ => 7 :=
  context_restored (fun _ => 7) (fun _ => 0) (by decide) fun _ _ _ => rfl

def firstContext (entry rsp cs ds : ℕ) : Context
  | .rip => entry
  | .cs => cs
  | .rflags => 0x202
  | .rsp => rsp
  | .ss => ds
  | _ => 0

section NewTask

variable {base count : ℕ} {mem : Memory}

theorem foldl_storeWord (hsize : count * PAGE_SIZE < 2 ^ 64) (vals : List ℕ) {k : ℕ} (hroom : 8 * vals.length ≤ k)
    (hk : k ≤ count * PAGE_SIZE) (hwords : 8 ∣ k) :
    vals.foldl (fun m val => (wsub m.1 8, storeWord base count (wsub m.1 8) val m.2)) (k, mem) =
      (k - 8 * vals.length, (vals.foldl (fun m val => push val m) (base + k, mem)).2) := by
  induction vals generalizing k mem with
  | nil => rfl
  | cons val vals ih =>
    rw [List.length_cons] at hroom
    have hinside : ¬(wmul count PAGE_SIZE < wadd (k - 8) 8 ∨ ¬8 ∣ k - 8) := by
      rw [wmul_of_lt hsize, wadd_of_lt (by omega)]
      omega
    rw [List.foldl_cons, List.foldl_cons, wsub_of_le (by omega), storeWord, if_neg hinside,
      ih (by omega) (by omega) (by omega), push, Nat.add_sub_assoc (by omega), List.length_cons]
    congr 1
    omega

/-- A new task begins at its entry point with interrupts enabled and all other registers zero, and the frame for
that fills the top of its own stack. -/
theorem new_task_starts (entry rsp cs ds : ℕ) (context : Context) (hcount : 1 ≤ count)
    (hsize : count * PAGE_SIZE < 2 ^ 64) (hzero : ∀ a, base ≤ a → a < base + count * PAGE_SIZE → mem a = 0) :
    let m := writeStack base count entry rsp cs ds mem
    timerRestore m.2 (base + m.1) context = firstContext entry rsp cs ds ∧ m.1 + 160 = count * PAGE_SIZE := by
  intro m
  have hle : 4096 ≤ count * PAGE_SIZE := Nat.le_mul_of_pos_left _ hcount
  have hwords : 8 ∣ count * PAGE_SIZE := Dvd.dvd.mul_left (by decide) _
  let first := firstContext entry rsp cs ds
  let top := base + count * PAGE_SIZE
  have hm : m = (count * PAGE_SIZE - 40 - 120, (pushRegs first interruptPushes (top, mem)).2) := by
    have hlen : [ds, rsp, 0x202, cs, entry].length = 5 := rfl
    simp only [m, writeStack]
    rw [wmul_of_lt hsize, foldl_storeWord hsize _ (by omega) le_rfl hwords, wsub_of_le (by omega), hlen]
    rfl
  have hsave : (timerSave first top mem).2 = m.2 := by
    rw [timerSave, timerPushes, pushRegs_append, hm]
    have hsp := @pushRegs_sp _ _ first interruptPushes (top, mem)
    have hlow : ∀ a, a < top - 40 → (pushRegs first interruptPushes (top, mem)).2 a = mem a := fun a ha =>
      pushRegs_other (by change 40 ≤ base + _; omega) (.inl ha)
    generalize pushRegs first interruptPushes (top, mem) = pushed at hsp hlow ⊢
    -- the words of the other registers are not written, they are zero already
    have hsp : pushed.1 = base + count * PAGE_SIZE - 40 := hsp
    have hlen : handlerPushes.length = 15 := rfl
    refine pushRegs_same (fun a ha hlt r hr => ?_) (by omega)
    rw [hlow a (by rw [← hsp]; exact hlt), hzero a (by omega) (by omega)]
    cases r <;> first | rfl | exact absurd hr (by decide)
  have hlen : timerPushes.length = 20 := rfl
  have hback : popRegs m.2 timerPushes.reverse (context, (timerSave first top mem).1) =
      (fun r => if r ∈ timerPushes then first r else context r, top) :=
    popRegs_pushRegs (by change 8 * 20 ≤ base + _; omega) (by decide) (fun a _ _ => congrFun hsave.symm a) context
  have hsp : (timerSave first top mem).1 = base + m.1 := by
    rw [timerSave, pushRegs_sp, hm, hlen]
    change base + count * PAGE_SIZE - 160 = base + (count * PAGE_SIZE - 40 - 120)
    omega
  rw [hsp] at hback
  refine ⟨?_, by rw [hm]; change count * PAGE_SIZE - 40 - 120 + 160 = _; omega⟩
  rw [timerRestore, show timerPops = timerPushes.reverse by decide, hback]
  funext r
  exact if_pos (mem_timerPushes r)

/-- The stack of five pages of a kernel task. -/
theorem new_task_starts_kernel :
    let m := writeStack 0x10000 5 0x401000 0x15000 8 16 fun _ => 0
    timerRestore m.2 (0x10000 + m.1) (fun _ => 1) = firstContext 0x401000 0x15000 8 16 ∧ m.1 + 160 = 5 * PAGE_SIZE :=
  new_task_starts 0x401000 0x15000 8 16 _ (by decide) (by decide) fun _ _ _ => rfl

end NewTask

/-- A system call returns on the caller's stack with all its registers except `rax`, and leaves the stack for the next
call, whatever `dispatch` does below the saved words. -/
theorem syscall_returns (context context' : Context) {slot : ℕ} {mem mem' : Memory} (hroom : 112 ≤ slot)
    (hrsp : context' .rsp = (syscallEnter context slot mem).1 .rsp)
    (hkept : ∀ a, slot - 112 ≤ a → a < slot → mem' a = (syscallEnter context slot mem).2.2 a) :
    let back := syscallLeave context' (syscallEnter context slot mem).2.1 mem'
    (∀ r ∈ .rsp :: syscallPushes, back.1 r = context r) ∧ back.1 .rax = context' .rax ∧ back.2 = slot := by
  have hlen : syscallPushes.length = 14 := rfl
  have hsp : context' .rsp = (pushRegs context syscallPushes (slot, mem)).1 := hrsp
  have hback : popRegs mem' syscallPushes.reverse (context', (pushRegs context syscallPushes (slot, mem)).1) =
      (fun r => if r ∈ syscallPushes then context r else context' r, slot) :=
    popRegs_pushRegs (by rwa [hlen]) (by decide) (by rwa [hlen]) context'
  rw [syscallLeave, show syscallPops = syscallPushes.reverse by decide, hsp, hback]
  refine ⟨fun r hr => ?_, rfl, rfl⟩
  cases r <;> first | rfl | exact absurd hr (by decide)

/-- `dispatch` returns 0. -/
theorem syscall_returns_zero :
    let called := syscallEnter (fun _ => 5) 4096 fun _ => 0
    let back := syscallLeave (Function.update called.1 .rax 0) called.2.1 called.2.2
    (∀ r ∈ .rsp :: syscallPushes, back.1 r = 5) ∧ back.1 .rax = 0 ∧ back.2 = 4096 :=
  syscall_returns (fun _ => 5) _ (by decide) rfl fun _ _ _ => rfl

end MaramOS.Trap
