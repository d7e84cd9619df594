import Mathlib.Algebra.BigOperators.Fin
import Mathlib.Data.Multiset.Basic
import MaramOS.Lib.Family

/-! Radix trees with leaves at every level. A tree of level `n + 1` is empty, a
leaf, or a labelled table of `b` trees of level `n`, and an address has one digit
for each level. -/

inductive RadixTree (b : ℕ) (α β : Type) : ℕ → Type
  | empty {n : ℕ} : RadixTree b α β n
  | leaf {n : ℕ} (x : β) : RadixTree b α β n
  | table {n : ℕ} (a : α) (es : Fin b → RadixTree b α β n) : RadixTree b α β (n + 1)

namespace RadixTree

variable {b n k : ℕ} {α β : Type} {a : α} {x : β} {es : Fin b → RadixTree b α β n} {d d' : ℕ → Fin b}
  {t : RadixTree b α β n}

def isEmpty : RadixTree b α β n → Bool
  | empty => true
  | _ => false

/-- The leaf that an address leads to, with its level. -/
def find (d : ℕ → Fin b) : {n : ℕ} → RadixTree b α β n → Option (ℕ × β)
  | _, empty => none
  | n, leaf x => some (n, x)
  | n + 1, table _ es => find d (es (d n))

/-- Two addresses that have the same digits from level `k` up to level `n`. -/
def Agree (k n : ℕ) (d d' : ℕ → Fin b) : Prop := ∀ j, k ≤ j → j < n → d j = d' j

/-- The place of an address at level `k` is not taken: nothing stands there, and no leaf on the way. -/
def Vacant (k : ℕ) (d : ℕ → Fin b) : {n : ℕ} → RadixTree b α β n → Prop
  | _, empty => True
  | _, leaf _ => False
  | n + 1, table _ es => k ≤ n ∧ Vacant k d (es (d n))

def labels : {n : ℕ} → RadixTree b α β n → Multiset α
  | _, empty => 0
  | _, leaf _ => 0
  | _, table a es => a ::ₘ ∑ i, labels (es i)

theorem isEmpty_iff : t.isEmpty = true ↔ t = empty := by
  cases t <;> simp [isEmpty]

theorem find_empty : find d (empty : RadixTree b α β n) = none := by
  cases n <;> rfl

theorem find_leaf : find d (leaf x : RadixTree b α β n) = some (n, x) := by
  cases n <;> rfl

theorem find_table : find d (table a es) = find d (es (d n)) := rfl

theorem find_update {i : Fin b} :
    find d (table a (Function.update es i t)) = if d n = i then find d t else find d (table a es) := by
  rw [find_table, find_table]
  split_ifs with h
  · rw [h, Function.update_self]
  · rw [Function.update_of_ne h]

theorem find_level (h : find d t = some (k, x)) : k ≤ n := by
  induction t with
  | empty =>
    rw [find_empty] at h
    cases h
  | leaf y =>
    rw [find_leaf] at h
    cases h
    exact le_rfl
  | table a es ih => exact (ih _ h).trans (Nat.le_succ _)

theorem find_agree (h : find d t = some (k, x)) (hd : Agree k n d' d) :
    find d' t = some (k, x) := by
  induction t with
  | empty =>
    rw [find_empty] at h
    cases h
  | leaf y =>
    rw [find_leaf] at h ⊢
    exact h
  | @table m a es ih =>
    rw [find_table] at h ⊢
    rw [hd m (find_level h) (Nat.lt_succ_self m)]
    exact ih _ h fun j hk hj => hd j hk (Nat.lt_succ_of_lt hj)

theorem agree_self : Agree n n d d' := fun _ h h' => absurd h (Nat.not_le.2 h')

theorem agree_succ (h : k ≤ n) : Agree k (n + 1) d d' ↔ d n = d' n ∧ Agree k n d d' := by
  constructor
  · exact fun hd => ⟨hd n h (Nat.lt_succ_self n), fun j hk hj => hd j hk (Nat.lt_succ_of_lt hj)⟩
  · rintro ⟨hn, hd⟩ j hk hj
    rcases Nat.lt_succ_iff_lt_or_eq.1 hj with hj | rfl
    · exact hd j hk hj
    · exact hn

theorem vacant_empty : Vacant k d (empty : RadixTree b α β n) := by
  cases n <;> exact trivial

theorem vacant_table : Vacant k d (table a es) ↔ k ≤ n ∧ Vacant k d (es (d n)) := Iff.rfl

theorem agree_of_le (h : n ≤ k) : Agree k n d d' := fun _ hk hj => absurd hj (Nat.not_lt.2 (h.trans hk))

theorem labels_table : labels (table a es) = a ::ₘ ∑ i, labels (es i) := rfl

theorem labels_update (i : Fin b) (t : RadixTree b α β n) :
    labels (table a (Function.update es i t)) + labels (es i) = labels (table a es) + labels t := by
  rw [labels_table, labels_table, Multiset.cons_add, Multiset.cons_add, sum_update_add (Finset.mem_univ i)]

theorem labels_zero (t : RadixTree b α β 0) : labels t = 0 := by
  cases t <;> rfl

end RadixTree
