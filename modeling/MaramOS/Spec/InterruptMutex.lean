import Mathlib.Data.Nat.Notation
import MaramOS.Lib.Transition

/-! The mutex of `helpers/interrupt_mutex.rs`, as one processor uses it. Whether
another processor holds a mutex is part of the call. -/

namespace MaramOS

/-- `InterruptGuard`: the mutex it holds, and the interrupt flag that was seen when it was taken. -/
structure InterruptGuard (μ : Type) where
  mutex : μ
  intStatus : Bool
  deriving DecidableEq, Repr

/-- The interrupt flag of a processor, and the guards it holds with the latest one first. -/
structure Processor (μ : Type) where
  interrupts : Bool
  guards : List (InterruptGuard μ)
  deriving DecidableEq, Repr

namespace Processor

variable {μ : Type} [DecidableEq μ]

def disable (p : Processor μ) : Processor μ := { p with interrupts := false }

def enable (p : Processor μ) : Processor μ := { p with interrupts := true }

def holds (p : Processor μ) (m : μ) : Bool := p.guards.any fun g => g.mutex = m

/-- `lock` waits for a mutex that is held; if this processor holds it, that never ends. -/
def lock (m : μ) (p : Processor μ) : Option (Processor μ) :=
  let intStatus := p.interrupts
  let p := p.disable
  if p.holds m then none else some { p with guards := ⟨m, intStatus⟩ :: p.guards }

/-- `try_lock`; `elsewhere` says that another processor holds the mutex. -/
def tryLock (m : μ) (elsewhere : Bool) (p : Processor μ) : Processor μ :=
  let intStatus := p.interrupts
  let p := p.disable
  if elsewhere || p.holds m then if intStatus then p.enable else p
  else { p with guards := ⟨m, intStatus⟩ :: p.guards }

/-- `drop` of the guard at position `i`. -/
def drop (i : ℕ) (p : Processor μ) : Option (Processor μ) :=
  match p.guards[i]? with
  | none => none
  | some g =>
    let p := { p with guards := p.guards.eraseIdx i }
    some (if g.intStatus then p.enable else p)

end Processor

inductive MutexCall (μ : Type)
  | lock (m : μ)
  | tryLock (m : μ) (elsewhere : Bool)
  | drop (i : ℕ)

def MutexCall.step {μ : Type} [DecidableEq μ] (p : Processor μ) : MutexCall μ → Option (Processor μ)
  | .lock m => p.lock m
  | .tryLock m elsewhere => some (p.tryLock m elsewhere)
  | .drop i => p.drop i

end MaramOS
