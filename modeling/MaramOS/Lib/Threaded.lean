import Mathlib.Data.List.Nodup
import Mathlib.Logic.Function.Basic

/-! Singly linked lists that are threaded through the cells they list. A cell
holds the next one and `null` ends the list. A walk that wants to change the
list remembers the link through which it came to a cell, which is the head of
the list or a cell before it. -/

namespace MaramOS

variable {α : Type}

/-- From `a` on the cells of the list are met one after the other. -/
inductive Thread (next : α → α) (null : α) : α → List α → Prop
  | nil : Thread next null null []
  | cons {a : α} {l : List α} : a ≠ null → Thread next null (next a) l → Thread next null a (a :: l)

/-- A list gets a new head, or the link in a cell is redirected. -/
def relink [DecidableEq α] (prev : Option α) (target head : α) (next : α → α) : α × (α → α) :=
  match prev with
  | none => (target, next)
  | some p => (head, Function.update next p target)

namespace Thread

variable {next next' : α → α} {null head : α} {l l1 l2 : List α}

theorem congr (h : Thread next null head l) (hn : ∀ a ∈ l, next' a = next a) : Thread next' null head l := by
  induction h with
  | nil => exact .nil
  | @cons a l ha _ ih =>
    refine .cons ha ?_
    rw [hn a List.mem_cons_self]
    exact ih fun b hb => hn b (List.mem_cons_of_mem _ hb)

theorem unique (h1 : Thread next null head l1) (h2 : Thread next null head l2) : l1 = l2 := by
  induction h1 generalizing l2 with
  | nil =>
    cases h2 with
    | nil => rfl
    | cons ha _ => exact absurd rfl ha
  | cons ha _ ih =>
    cases h2 with
    | nil => exact absurd rfl ha
    | cons _ h2 => rw [ih h2]

theorem null_notMem (h : Thread next null head l) : null ∉ l := by
  induction h with
  | nil => exact List.not_mem_nil
  | cons ha _ ih =>
    intro hmem
    rcases List.mem_cons.1 hmem with rfl | hmem
    · exact ha rfl
    · exact ih hmem

theorem after {a : α} (h : Thread next null head (l1 ++ a :: l2)) : Thread next null (next a) l2 := by
  induction l1 generalizing head with
  | nil =>
    cases h with
    | cons _ h => exact h
  | cons b l ih =>
    cases h with
    | cons _ h => exact ih h

theorem eq_nil_iff (h : Thread next null head l) : l = [] ↔ head = null := by
  cases h with
  | nil => simp
  | cons ha _ => simp [ha]

variable [DecidableEq α]

theorem push (h : Thread next null head l) {a : α} (ha : a ≠ null) (hnew : a ∉ l) :
    Thread (Function.update next a head) null a (a :: l) := by
  refine .cons ha ?_
  rw [Function.update_self]
  refine h.congr fun b hb => Function.update_of_ne ?_ _ _
  rintro rfl
  exact hnew hb

theorem relink (h : Thread next null head (l1 ++ l2)) (hnodup : l1.Nodup) {target : α} {l3 : List α}
    (htarget : Thread next null target l3) (hdisj : ∀ a ∈ l1, a ∉ l3) :
    Thread (MaramOS.relink l1.getLast? target head next).2 null (MaramOS.relink l1.getLast? target head next).1
      (l1 ++ l3) := by
  induction l1 generalizing head with
  | nil => exact htarget
  | cons a l ih =>
    obtain ⟨hal, hl⟩ := List.nodup_cons.1 hnodup
    cases h with
    | cons ha hrest =>
      cases l with
      | nil =>
        have hlast : Thread (Function.update next a target) null a (a :: l3) := by
          refine .cons ha ?_
          rw [Function.update_self]
          refine htarget.congr fun b hb => Function.update_of_ne ?_ _ _
          rintro rfl
          exact hdisj _ List.mem_cons_self hb
        exact hlast
      | cons b l =>
        have hkept := ih hrest hl fun c hc => hdisj c (List.mem_cons_of_mem _ hc)
        rw [List.getLast?_cons_cons]
        cases hlast : (b :: l).getLast? with
        | none => simp at hlast
        | some p =>
          rw [hlast] at hkept
          refine .cons ha ?_
          have hp : a ≠ p := by
            rintro rfl
            exact hal (List.mem_of_getLast? hlast)
          have hsame : Function.update next p target a = next a := Function.update_of_ne hp _ _
          simp only [MaramOS.relink] at hkept ⊢
          rw [hsame]
          exact hkept

end Thread

end MaramOS
