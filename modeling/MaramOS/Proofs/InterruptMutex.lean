import Mathlib.Data.List.Basic
import MaramOS.Spec.InterruptMutex

/-! When interrupts stay off under the interrupt-safe mutexes. Only the guard that
was taken first can have seen interrupts enabled, so all depends on when that one
is dropped. -/

namespace MaramOS.Processor

open List Transition

variable {μ : Type} {initial : Bool} {p p' : Processor μ}

/-- Interrupts are off while a guard is held, and as they were in the beginning otherwise. -/
def Safe (initial : Bool) (p : Processor μ) : Prop :=
  (p.guards ≠ [] → p.interrupts = false) ∧ (p.guards = [] → p.interrupts = initial)

/-- A guard that saw interrupts enabled is dropped as the last one. -/
def Nested (p : Processor μ) : MutexCall μ → Prop
  | .drop i => ∀ g, p.guards[i]? = some g → g.intStatus = true → p.guards = [g]
  | _ => True

/-- The first guard has seen the flag of the beginning, and the others have seen interrupts disabled. -/
inductive Stacked (initial : Bool) : Processor μ → Prop
  | free : Stacked initial ⟨initial, []⟩
  | held (inner : List (InterruptGuard μ)) (m : μ) : (∀ g ∈ inner, g.intStatus = false) →
      Stacked initial ⟨false, inner ++ [⟨m, initial⟩]⟩

theorem Stacked.safe (h : Stacked initial p) : Safe initial p := by
  cases h with
  | free => exact ⟨fun h => absurd rfl h, fun _ => rfl⟩
  | held inner m _ => exact ⟨fun _ => rfl, fun h => absurd h (append_ne_nil_of_right_ne_nil _ (cons_ne_nil _ _))⟩

theorem Stacked.take (h : Stacked initial p) (m : μ) :
    Stacked initial ⟨false, ⟨m, p.interrupts⟩ :: p.guards⟩ := by
  cases h with
  | free => exact .held [] m fun g hg => absurd hg not_mem_nil
  | held inner m' hinner =>
    refine .held (⟨m, false⟩ :: inner) m' fun g hg => ?_
    rcases mem_cons.1 hg with rfl | hg
    · rfl
    · exact hinner g hg

theorem Stacked.of_forall {guards : List (InterruptGuard μ)} (h : ∀ g ∈ guards, g.intStatus = false) :
    Stacked false ⟨false, guards⟩ := by
  rcases eq_nil_or_concat' guards with rfl | ⟨inner, ⟨m, intStatus⟩, rfl⟩
  · exact .free
  · obtain rfl : intStatus = false := h _ (mem_append_right _ mem_cons_self)
    exact .held inner m fun g hg => h g (mem_append_left _ hg)

theorem Stacked.drop (h : Stacked initial p) {i : ℕ} (hnested : p.Nested (.drop i)) (hrun : p.drop i = some p') :
    Stacked initial p' := by
  rw [Processor.drop] at hrun
  cases h with
  | free => cases hrun
  | held inner m hinner =>
    rcases Nat.lt_trichotomy i inner.length with hlt | heq | hgt
    · -- an inner guard leaves the flag alone
      rw [List.getElem?_append_left hlt, List.getElem?_eq_getElem hlt] at hrun
      simp only [hinner _ (getElem_mem hlt), Bool.false_eq_true, if_false, Option.some.injEq] at hrun
      rw [← hrun, eraseIdx_append_of_lt_length hlt]
      exact .held _ m fun g hg => hinner g (mem_of_mem_eraseIdx hg)
    · subst heq
      have hlast : (inner ++ [⟨m, initial⟩])[inner.length]? = some (⟨m, initial⟩ : InterruptGuard μ) :=
        List.getElem?_concat_length
      rw [hlast] at hrun
      have herase : (inner ++ [(⟨m, initial⟩ : InterruptGuard μ)]).eraseIdx inner.length = inner := by
        rw [eraseIdx_append_of_length_le (Nat.le_refl _), Nat.sub_self]
        exact append_nil inner
      simp only [herase, Option.some.injEq] at hrun
      cases initial with
      | true =>
        have hsingle : inner ++ [(⟨m, true⟩ : InterruptGuard μ)] = [⟨m, true⟩] := hnested _ hlast rfl
        obtain rfl : inner = [] := append_left_eq_self.1 hsingle
        rw [← hrun]
        exact .free
      | false =>
        rw [← hrun]
        exact .of_forall hinner
    · rw [List.getElem?_eq_none (by rw [length_append, length_singleton]; omega)] at hrun
      cases hrun

variable [DecidableEq μ]

theorem Stacked.tryLock (h : Stacked initial p) (m : μ) (elsewhere : Bool) : Stacked initial (p.tryLock m elsewhere) := by
  rw [Processor.tryLock]
  by_cases hheld : elsewhere || p.disable.holds m
  · rw [if_pos hheld]
    have hsame : (if p.interrupts then p.disable.enable else p.disable) = p := by
      rcases p with ⟨interrupts, guards⟩
      cases interrupts <;> rfl
    rw [hsame]
    exact h
  · rw [if_neg hheld]
    exact h.take m

theorem Stacked.step (h : Stacked initial p) {c : MutexCall μ} (hnested : p.Nested c) (hrun : c.step p = some p') :
    Stacked initial p' := by
  cases c with
  | lock m =>
    rw [MutexCall.step, Processor.lock] at hrun
    split_ifs at hrun
    cases hrun
    exact h.take m
  | tryLock m elsewhere =>
    cases hrun
    exact h.tryLock m elsewhere
  | drop i => exact h.drop hnested hrun

/-- A guard that saw interrupts enabled switches them on although others are held. -/
theorem not_safe_of_not_nested {c : MutexCall μ} (hnested : ¬p.Nested c) (hrun : c.step p = some p') : ¬Safe initial p' := by
  cases c with
  | lock m => exact absurd trivial hnested
  | tryLock m elsewhere => exact absurd trivial hnested
  | drop i =>
    simp only [Nested, not_forall] at hnested
    obtain ⟨g, hg, hstatus, hne⟩ := hnested
    rw [MutexCall.step, Processor.drop, hg] at hrun
    simp only [hstatus, if_true, Option.some.injEq] at hrun
    have hi := (List.getElem?_eq_some_iff.1 hg).1
    have hrest : p.guards.eraseIdx i ≠ [] := by
      intro hnil
      have hlen : (p.guards.eraseIdx i).length = 0 := by rw [hnil]; rfl
      rw [length_eraseIdx_of_lt hi] at hlen
      obtain ⟨g', hg'⟩ := length_eq_one_iff.1 (by omega : p.guards.length = 1)
      obtain rfl : i = 0 := by omega
      rw [hg'] at hg hne
      exact hne (congrArg (fun x => [x]) (Option.some.inj hg))
    intro hsafe
    rw [← hrun] at hsafe
    exact absurd (hsafe.1 hrest) Bool.true_eq_false.mp

/-- Interrupts stay off under any guard as long as no guard that saw them enabled is dropped before others,
and the first such drop breaks that. -/
theorem interrupts_off_while_held (initial : Bool) (h : Reaches MutexCall.step Nested ⟨initial, []⟩ p) :
    Safe initial p ∧ ∀ c p', c.step p = some p' → (Safe initial p' ↔ p.Nested c) := by
  have hstacked : Stacked initial p :=
    h.invariant _ .free fun s c s' hs hok hrun => hs.step hok hrun
  refine ⟨hstacked.safe, fun c p' hrun => ⟨fun hsafe => ?_, fun hok => (hstacked.step hok hrun).safe⟩⟩
  by_contra hnested
  exact not_safe_of_not_nested hnested hrun hsafe

theorem interrupts_off_while_held_two :
    Safe true (⟨false, [⟨1, false⟩, ⟨0, true⟩]⟩ : Processor ℕ) ∧
    ¬Safe true (⟨true, [⟨1, false⟩]⟩ : Processor ℕ) := by
  have hreach : Reaches MutexCall.step Nested (⟨true, []⟩ : Processor ℕ) ⟨false, [⟨1, false⟩, ⟨0, true⟩]⟩ :=
    (Reaches.start.step (a := .lock 0) trivial rfl).step (a := .lock 1) trivial rfl
  obtain ⟨hsafe, hexact⟩ := interrupts_off_while_held true hreach
  refine ⟨hsafe, fun hbad => ?_⟩
  have hnested := (hexact (.drop 1) _ rfl).1 hbad
  exact absurd (hnested ⟨0, true⟩ rfl rfl) (by decide)

/-- Two mutexes are locked with interrupts enabled, and the first one is released first. -/
theorem crossed_drop_enables :
    Transition.run MutexCall.step (⟨true, []⟩ : Processor ℕ) [.lock 0, .lock 1, .drop 1] = some ⟨true, [⟨1, false⟩]⟩ := by
  decide

end MaramOS.Processor
