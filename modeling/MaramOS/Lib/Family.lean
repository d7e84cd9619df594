import Mathlib.Algebra.BigOperators.Fin
import Mathlib.Tactic.Abel

/-! Sums over a family in which one member is exchanged, and lists from which the
members at some indices are taken out. -/

section Sums

variable {ι β M : Type*} [DecidableEq ι] [AddCommMonoid M]

theorem sum_update_add {S : Finset ι} {i : ι} (hi : i ∈ S) (f : ι → β) (x : β) (g : β → M) :
    ∑ j ∈ S, g (Function.update f i x j) + g (f i) = ∑ j ∈ S, g (f j) + g x := by
  have hsplit : ∀ f : ι → β, ∑ j ∈ S, g (f j) = g (f i) + ∑ j ∈ S.erase i, g (f j) := fun f =>
    (Finset.add_sum_erase S (fun j => g (f j)) hi).symm
  have hsame : ∑ j ∈ S.erase i, g (Function.update f i x j) = ∑ j ∈ S.erase i, g (f j) :=
    Finset.sum_congr rfl fun j hj => by rw [Function.update_of_ne (Finset.ne_of_mem_erase hj)]
  rw [hsplit, hsplit f, hsame, Function.update_self]
  abel

theorem count_ofFn [DecidableEq β] {n : ℕ} (f : Fin n → β) (x : β) :
    (List.ofFn f).count x = ∑ i, [f i].count x := by
  induction n with
  | zero => rfl
  | succ n ih =>
    rw [List.ofFn_succ, Fin.sum_univ_succ, ← ih, ← List.count_append]
    rfl

theorem coe_flatMap_finRange {n : ℕ} (f : Fin n → List β) :
    (((List.finRange n).flatMap f : List β) : Multiset β) = ∑ i, (f i : Multiset β) := by
  rw [← Multiset.coe_bind]
  rfl

end Sums

section Extraction

variable {α : Type*} {is : List ℕ} {l : List α}

/-- The members at the given indices, which are taken out one after the other, and what is left. -/
def extract : List ℕ → List α → Option (List α × List α)
  | [], l => some ([], l)
  | i :: is, l =>
    match l[i]? with
    | none => none
    | some x => (extract is (l.eraseIdx i)).map fun r => (x :: r.1, r.2)

theorem extract_spec (hlt : ∀ i ∈ is, i < l.length) (hdec : is.Pairwise fun i j => j < i) :
    ∃ xs rest, extract is l = some (xs, rest) ∧ (xs ++ rest).Perm l ∧
      ∀ x ∈ xs, ∃ i ∈ is, l[i]? = some x := by
  induction is generalizing l with
  | nil => exact ⟨[], l, rfl, .refl _, fun x hx => absurd hx List.not_mem_nil⟩
  | cons i is ih =>
    rw [List.pairwise_cons] at hdec
    have hi := hlt i List.mem_cons_self
    have hget : l[i]? = some l[i] := List.getElem?_eq_getElem hi
    have hlt' : ∀ j ∈ is, j < (l.eraseIdx i).length := by
      intro j hj
      have := hdec.1 j hj
      rw [List.length_eraseIdx_of_lt hi]
      omega
    obtain ⟨xs, rest, hrun, hperm, hmem⟩ := ih hlt' hdec.2
    refine ⟨l[i] :: xs, rest, ?_, ?_, ?_⟩
    · rw [extract, hget]
      simp only [hrun, Option.map_some]
    · exact (hperm.cons _).trans (List.getElem_cons_eraseIdx_perm hi)
    · intro x hx
      rcases List.mem_cons.1 hx with rfl | hx
      · exact ⟨i, List.mem_cons_self, hget⟩
      · obtain ⟨j, hj, hx⟩ := hmem x hx
        refine ⟨j, List.mem_cons_of_mem _ hj, ?_⟩
        rwa [List.getElem?_eraseIdx_of_lt (hdec.1 j hj)] at hx

end Extraction
