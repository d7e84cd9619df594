import Mathlib.Data.List.Nodup
import Mathlib.Logic.Function.Basic

/-! Registers that are pushed on a stack of 8-byte words which grows downwards, and
popped again. The memory is known by the addresses of its words. -/

namespace SaveArea

open List

variable {ρ α : Type} {mem mem' : ℕ → α} {regs : ρ → α} {rs : List ρ} {sp : ℕ}

def push (v : α) (m : ℕ × (ℕ → α)) : ℕ × (ℕ → α) := (m.1 - 8, Function.update m.2 (m.1 - 8) v)

def pushRegs (regs : ρ → α) (rs : List ρ) (m : ℕ × (ℕ → α)) : ℕ × (ℕ → α) := rs.foldl (fun m r => push (regs r) m) m

theorem pushRegs_append (rs rs' : List ρ) (m : ℕ × (ℕ → α)) :
    pushRegs regs (rs ++ rs') m = pushRegs regs rs' (pushRegs regs rs m) := foldl_append

theorem pushRegs_sp (rs : List ρ) (m : ℕ × (ℕ → α)) : (pushRegs regs rs m).1 = m.1 - 8 * rs.length := by
  induction rs generalizing m with
  | nil => rfl
  | cons r rs ih =>
    rw [pushRegs, foldl_cons, ← pushRegs, ih, push, length_cons]
    omega

theorem pushRegs_other (hroom : 8 * rs.length ≤ sp) {a : ℕ} (ha : a < sp - 8 * rs.length ∨ sp ≤ a) :
    (pushRegs regs rs (sp, mem)).2 a = mem a := by
  induction rs generalizing sp mem with
  | nil => rfl
  | cons r rs ih =>
    rw [length_cons] at hroom ha
    rw [pushRegs, foldl_cons, ← pushRegs, push, ih (by omega) (by omega)]
    exact Function.update_of_ne (by omega) _ _

theorem pushRegs_same (hsame : ∀ a, sp - 8 * rs.length ≤ a → a < sp → ∀ r ∈ rs, mem a = regs r)
    (hroom : 8 * rs.length ≤ sp) : (pushRegs regs rs (sp, mem)).2 = mem := by
  induction rs generalizing sp with
  | nil => rfl
  | cons r rs ih =>
    rw [length_cons] at hsame hroom
    have hword : Function.update mem (sp - 8) (regs r) = mem := by
      rw [Function.update_eq_self_iff]
      exact (hsame (sp - 8) (by omega) (by omega) r mem_cons_self).symm
    rw [pushRegs, foldl_cons, ← pushRegs, push, hword]
    exact ih (fun a h h' x hx => hsame a (by omega) (by omega) x (mem_cons_of_mem r hx)) (by omega)

variable [DecidableEq ρ]

def pop (mem : ℕ → α) (m : (ρ → α) × ℕ) (r : ρ) : (ρ → α) × ℕ := (Function.update m.1 r (mem m.2), m.2 + 8)

def popRegs (mem : ℕ → α) (rs : List ρ) (m : (ρ → α) × ℕ) : (ρ → α) × ℕ := rs.foldl (pop mem) m

/-- Popping in the opposite order gives the registers back, from any memory that still has the pushed words. -/
theorem popRegs_pushRegs (hroom : 8 * rs.length ≤ sp) (hnodup : rs.Nodup)
    (hkept : ∀ a, sp - 8 * rs.length ≤ a → a < sp → mem' a = (pushRegs regs rs (sp, mem)).2 a) (regs' : ρ → α) :
    popRegs mem' rs.reverse (regs', (pushRegs regs rs (sp, mem)).1) =
      (fun r => if r ∈ rs then regs r else regs' r, sp) := by
  induction rs generalizing sp mem with
  | nil => simp [popRegs, pushRegs]
  | cons r rs ih =>
    rw [length_cons] at hroom hkept
    rw [nodup_cons] at hnodup
    have hnext : pushRegs regs (r :: rs) (sp, mem) =
        pushRegs regs rs (sp - 8, Function.update mem (sp - 8) (regs r)) := rfl
    have hword : mem' (sp - 8) = regs r := by
      rw [hkept _ (by omega) (by omega), hnext, pushRegs_other (by omega) (.inr (Nat.le_refl _)), Function.update_self]
    rw [hnext] at hkept ⊢
    have hrest := ih (by omega) hnodup.2 fun a h h' => hkept a (by omega) (by omega)
    rw [popRegs] at hrest
    rw [reverse_cons, popRegs, foldl_append, hrest, foldl_cons, foldl_nil, pop, hword]
    refine Prod.ext (funext fun x => ?_) (Nat.sub_add_cancel (by omega))
    by_cases hx : x = r
    · simp [hx]
    · simp only [Function.update_of_ne hx, mem_cons, hx, false_or]

end SaveArea
