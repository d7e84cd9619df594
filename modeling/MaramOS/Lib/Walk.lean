import Mathlib.Data.Fintype.Pigeonhole

/-! Walks along pointers. A walk goes on as long as there is a next place; where the
next place depends only on a number below `n`, a walk that ends has ended after `n`
steps, and one that goes on longer goes on for ever. -/

namespace Walk

variable {α : Type} (next : α → Option α)

/-- Where `n` steps lead from `a`, if the walk is not over before. -/
def after : ℕ → α → Option α
  | 0, a => some a
  | n + 1, a => (next a).bind (after n)

def Ends (a : α) : Prop := ∃ n, after next n a = none

variable {next} {a : α}

theorem after_succ_of_some {b : α} (h : next a = some b) (n : ℕ) : after next (n + 1) a = after next n b := by
  rw [after, h, Option.bind_some]

theorem after_add (m n : ℕ) (a : α) : after next (m + n) a = (after next m a).bind (after next n) := by
  induction m generalizing a with
  | zero => rw [Nat.zero_add, after, Option.bind_some]
  | succ m ih =>
    rw [Nat.add_right_comm, after, after]
    cases next a with
    | none => rfl
    | some b => exact ih b

theorem after_mono {m n : ℕ} (hmn : m ≤ n) (h : after next m a = none) : after next n a = none := by
  obtain ⟨k, rfl⟩ := Nat.exists_eq_add_of_le hmn
  rw [after_add, h, Option.bind_none]

theorem next_of_after {m : ℕ} {b : α} (h : after next m a = some b) (hlong : after next (m + 1) a ≠ none) :
    ∃ c, next b = some c ∧ after next (m + 1) a = some c := by
  rw [after_add, h, Option.bind_some] at hlong ⊢
  cases hnext : next b with
  | none =>
    rw [after, hnext] at hlong
    exact absurd rfl hlong
  | some c => exact ⟨c, rfl, by rw [after, hnext, Option.bind_some]; rfl⟩

theorem not_ends_of_repeat {i j : ℕ} {b : α} (hij : i < j) (hi : after next i a = some b)
    (hj : after next j a = some b) : ¬ Ends next a := by
  rintro ⟨n, hn⟩
  obtain ⟨p, hp⟩ := Nat.exists_eq_add_of_lt hij
  have hloop : after next (p + 1) b = some b := by
    have hsplit : after next (i + (p + 1)) a = (after next i a).bind (after next (p + 1)) := after_add i (p + 1) a
    rw [show i + (p + 1) = j by omega, hj, hi, Option.bind_some] at hsplit
    exact hsplit.symm
  have hround : ∀ k, after next (k * (p + 1)) b = some b := by
    intro k
    induction k with
    | zero => rw [Nat.zero_mul]; rfl
    | succ k ih => rw [Nat.succ_mul, after_add, ih, Option.bind_some, hloop]
  have halive : after next (i + n * (p + 1)) a = some b := by rw [after_add, hi, Option.bind_some, hround]
  have hlate : n ≤ i + n * (p + 1) := (Nat.le_mul_of_pos_right n (Nat.succ_pos p)).trans (Nat.le_add_left _ _)
  rw [after_mono hlate hn] at halive
  cases halive

theorem ends_within {N : ℕ} (key : α → ℕ) (hkey : ∀ b c, next b = some c → key b < N)
    (hnext : ∀ b b' c c', next b = some c → next b' = some c' → key b = key b' → c = c')
    (h : Ends next a) : after next (N + 1) a = none := by
  by_contra hlong
  have hat : ∀ i : Fin (N + 1), ∃ b c, after next i.val a = some b ∧ next b = some c ∧
      after next (i.val + 1) a = some c := by
    intro i
    have hi := i.isLt
    cases hb : after next i.val a with
    | none => exact absurd (after_mono (by omega) hb) hlong
    | some b =>
      obtain ⟨c, hc, hc'⟩ := next_of_after hb fun hnone => hlong (after_mono (by omega) hnone)
      exact ⟨b, c, rfl, hc, hc'⟩
  choose place follow hplace hfollow hreach using hat
  obtain ⟨i, j, hne, heq⟩ := Fintype.exists_ne_map_eq_of_card_lt
    (fun i : Fin (N + 1) => (⟨key (place i), hkey _ _ (hfollow i)⟩ : Fin N)) (by simp)
  have hsame : follow i = follow j := hnext _ _ _ _ (hfollow i) (hfollow j) (by simpa using heq)
  rcases lt_or_gt_of_ne (Fin.val_ne_of_ne hne) with hlt | hlt
  · exact not_ends_of_repeat (Nat.succ_lt_succ hlt) (hreach i) (hsame ▸ hreach j) h
  · exact not_ends_of_repeat (Nat.succ_lt_succ hlt) (hreach j) (hsame ▸ hreach i) h

end Walk
