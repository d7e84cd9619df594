import Mathlib.Algebra.BigOperators.Group.Finset.Piecewise
import Mathlib.Algebra.Order.Group.Multiset
import Mathlib.Tactic.Abel
import MaramOS.Lib.Dyadic

/-! Pools of free blocks, one for each order up to `top`; a block of order `k`
has `2 ^ (k + base)` cells. A block is taken from the lowest pool that has one
and cut down to the order that is wanted, and a block that is given back is
joined with its buddy as long as that is free. No cell is lost or duplicated by
either, and pools without buddies stay so. -/

namespace MaramOS

open List

namespace BuddySystem

open DyadicBlock
open Function (update update_of_ne update_self)

abbrev Pools : Type := ℕ → List ℕ

def pool (base k : ℕ) (l : List ℕ) : Multiset ℕ := (l.map fun a => run a (2 ^ (k + base))).sum

def cells (base top : ℕ) (free : Pools) : Multiset ℕ := ∑ k ∈ Finset.range (top + 1), pool base k (free k)

def Aligned (base : ℕ) (free : Pools) : Prop := ∀ k, ∀ a ∈ free k, 2 ^ (k + base) ∣ a

/-- Below the highest order no block is free together with its buddy. -/
def NoBuddies (base top : ℕ) (free : Pools) : Prop := ∀ k < top, ∀ a ∈ free k, buddy (k + base) a ∉ free k

/-- The upper halves of a block of order `k + n`, cut down to order `k`, become free. -/
def split (base : ℕ) : ℕ → Pools → ℕ → ℕ → Pools
  | 0, free, _, _ => free
  | n + 1, free, a, k =>
    split base n (update free (k + n) ((a + 2 ^ (k + n + base)) :: free (k + n))) a k

def take (base top : ℕ) (free : Pools) (k : ℕ) : Option (ℕ × Pools) :=
  match (List.range' k (top + 1 - k)).find? fun j => !(free j).isEmpty with
  | none => none
  | some j =>
    match free j with
    | [] => none
    | a :: rest => some (a, split base (j - k) (update free j rest) a k)

def give (base : ℕ) : ℕ → Pools → ℕ → ℕ → Pools
  | 0, free, a, k => update free k (a :: free k)
  | n + 1, free, a, k =>
    if buddy (k + base) a ∈ free k then
      give base n (update free k ((free k).erase (buddy (k + base) a))) (min a (buddy (k + base) a)) (k + 1)
    else update free k (a :: free k)

variable {base top : ℕ} {free : Pools}

section Cells

theorem pool_cons (k a : ℕ) (l : List ℕ) : pool base k (a :: l) = run a (2 ^ (k + base)) + pool base k l := by
  rw [pool, map_cons, sum_cons]
  rfl

theorem pool_erase {k a : ℕ} {l : List ℕ} (h : a ∈ l) :
    pool base k l = run a (2 ^ (k + base)) + pool base k (l.erase a) := by
  rw [← pool_cons]
  exact ((perm_cons_erase h).map _).sum_eq

theorem mem_pool {k x : ℕ} {l : List ℕ} : x ∈ pool base k l ↔ ∃ a ∈ l, x ∈ run a (2 ^ (k + base)) := by
  induction l with
  | nil => simp [pool]
  | cons a l ih => rw [pool_cons, Multiset.mem_add, ih, exists_mem_cons_iff]

theorem mem_cells {x : ℕ} : x ∈ cells base top free ↔ ∃ k ≤ top, ∃ a ∈ free k, x ∈ run a (2 ^ (k + base)) := by
  rw [cells, Multiset.mem_sum]
  simp only [Finset.mem_range, Nat.lt_succ_iff, mem_pool]

theorem cells_update {k : ℕ} (hk : k ≤ top) (l : List ℕ) :
    cells base top (update free k l) + pool base k (free k) = cells base top free + pool base k l := by
  have hmem : k ∈ Finset.range (top + 1) := Finset.mem_range.2 (by omega)
  have hnew : ∀ j, pool base j (update free k l j) =
      update (fun j => pool base j (free j)) k (pool base k l) j := by
    intro j
    by_cases hj : j = k
    · subst hj
      rw [update_self, update_self]
    · rw [update_of_ne hj, update_of_ne hj]
  rw [cells, cells, Finset.sum_congr rfl fun j _ => hnew j, Finset.sum_update_of_mem hmem,
    Finset.sum_eq_add_sum_sdiff_singleton_of_mem hmem fun j => pool base j (free j)]
  abel

theorem cells_push {k : ℕ} (hk : k ≤ top) (a : ℕ) :
    cells base top (update free k (a :: free k)) = cells base top free + run a (2 ^ (k + base)) := by
  have h := @cells_update base top free k hk (a :: free k)
  rw [pool_cons, ← add_assoc] at h
  exact add_right_cancel h

theorem cells_erase {k a : ℕ} (hk : k ≤ top) (ha : a ∈ free k) :
    cells base top free = cells base top (update free k ((free k).erase a)) + run a (2 ^ (k + base)) := by
  have h := @cells_update base top free k hk ((free k).erase a)
  rw [pool_erase ha, ← add_assoc] at h
  exact (add_right_cancel h).symm

end Cells

section Apart

theorem run_le_cells {k a : ℕ} (hk : k ≤ top) (ha : a ∈ free k) : ∀ x ∈ run a (2 ^ (k + base)), x ∈ cells base top free :=
  fun _ hx => mem_cells.2 ⟨k, hk, a, ha, hx⟩

theorem apart (hnodup : (cells base top free).Nodup) {k j a b x : ℕ} (hk : k ≤ top) (hj : j ≤ top) (ha : a ∈ free k)
    (hb : b ∈ free j) (hxa : x ∈ run a (2 ^ (k + base))) (hxb : x ∈ run b (2 ^ (j + base))) : k = j ∧ a = b := by
  by_contra hne
  rw [cells_erase hk ha] at hnodup
  have hdisj := (Multiset.nodup_add.1 hnodup).2.2
  have hmem : b ∈ update free k ((free k).erase a) j := by
    by_cases hjk : j = k
    · subst hjk
      rw [update_self]
      exact (mem_erase_of_ne fun h => hne ⟨rfl, h.symm⟩).2 hb
    · rwa [update_of_ne hjk]
  exact Multiset.disjoint_left.1 hdisj (run_le_cells hj hmem x hxb) hxa

theorem nodup_pool (hnodup : (cells base top free).Nodup) {k : ℕ} (hk : k ≤ top) : (free k).Nodup := by
  rw [nodup_iff_count_le_one]
  intro a
  by_contra hcount
  have ha : a ∈ free k := count_pos_iff.1 (by omega)
  have herase : a ∈ (free k).erase a := by
    rw [← count_pos_iff, count_erase_self]
    omega
  rw [cells_erase hk ha] at hnodup
  have hdisj := (Multiset.nodup_add.1 hnodup).2.2
  have hx : a ∈ run a (2 ^ (k + base)) := mem_run.2 ⟨le_rfl, Nat.lt_add_of_pos_right (Nat.two_pow_pos _)⟩
  refine Multiset.disjoint_left.1 hdisj (run_le_cells hk ?_ a hx) hx
  rwa [update_self]

end Apart

section Split

variable {n a k : ℕ}

theorem cells_split (hk : k + n ≤ top + 1) :
    cells base top (split base n free a k) + run a (2 ^ (k + base)) = cells base top free + run a (2 ^ (k + n + base)) := by
  induction n generalizing free with
  | zero => rfl
  | succ n ih =>
    have hpow : 2 ^ (k + (n + 1) + base) = 2 ^ (k + n + base) + 2 ^ (k + n + base) := by ring
    rw [split, ih (by omega), cells_push (by omega), hpow, run_add]
    abel

theorem aligned_split (h : Aligned base free) (ha : 2 ^ (k + n + base) ∣ a) : Aligned base (split base n free a k) := by
  induction n generalizing free with
  | zero => exact h
  | succ n ih =>
    have ha' : 2 ^ (k + n + base) ∣ a := (pow_dvd_pow 2 (by omega)).trans ha
    refine ih ?_ ha'
    intro j b hb
    by_cases hj : j = k + n
    · subst hj
      rw [update_self, mem_cons] at hb
      rcases hb with rfl | hb
      · exact Nat.dvd_add ha' dvd_rfl
      · exact h _ b hb
    · rw [update_of_ne hj] at hb
      exact h _ b hb

theorem noBuddies_split (h : NoBuddies base top free) (hempty : ∀ j, k ≤ j → j < k + n → free j = []) :
    NoBuddies base top (split base n free a k) := by
  induction n generalizing free with
  | zero => exact h
  | succ n ih =>
    refine ih ?_ fun j hkj hj => ?_
    · intro j hj b hb hbuddy
      by_cases hjk : j = k + n
      · subst hjk
        rw [update_self, hempty (k + n) (by omega) (by omega), mem_singleton] at hb hbuddy
        rw [hb] at hbuddy
        exact buddy_ne _ _ hbuddy
      · rw [update_of_ne hjk] at hb hbuddy
        exact h j hj b hb hbuddy
    · rw [update_of_ne (by omega)]
      exact hempty j hkj (by omega)

end Split

section Take

variable {k a : ℕ} {free' : Pools}

theorem take_some (h : take base top free k = some (a, free')) :
    ∃ j rest, (range' k (top + 1 - k)).find? (fun i => !(free i).isEmpty) = some j ∧ k ≤ j ∧ j ≤ top ∧
      free j = a :: rest ∧ (∀ i, k ≤ i → i < j → free i = []) ∧
      free' = split base (j - k) (update free j rest) a k := by
  unfold take at h
  cases hfind : (range' k (top + 1 - k)).find? fun j => !(free j).isEmpty with
  | none =>
    rw [hfind] at h
    cases h
  | some j =>
    rw [hfind] at h
    obtain ⟨-, l1, l2, hsplit, hbefore⟩ := List.find?_eq_some_iff_append.1 hfind
    cases hj : free j with
    | nil =>
      simp only [hj] at h
      cases h
    | cons b rest =>
      simp only [hj, Option.some.injEq, Prod.mk.injEq] at h
      obtain ⟨rfl, rfl⟩ := h
      have hmem : j ∈ range' k (top + 1 - k) := List.mem_of_find?_eq_some hfind
      rw [mem_range'_1] at hmem
      refine ⟨j, rest, rfl, hmem.1, by omega, hj, fun i hki hij => ?_, rfl⟩
      have hi : i ∈ l1 := by
        have hin : i ∈ l1 ++ j :: l2 := by
          rw [← hsplit, mem_range'_1]
          omega
        have hsorted : (l1 ++ j :: l2).Pairwise (· < ·) := by
          rw [← hsplit]
          exact pairwise_lt_range'
        rcases mem_append.1 hin with hin | hin
        · exact hin
        · rcases mem_cons.1 hin with rfl | hin
          · omega
          · have := (pairwise_cons.1 (pairwise_append.1 hsorted).2.1).1 i hin
            omega
      simpa using hbefore i hi

theorem take_none (h : take base top free k = none) : ∀ j, k ≤ j → j ≤ top → free j = [] := by
  unfold take at h
  cases hfind : (range' k (top + 1 - k)).find? fun j => !(free j).isEmpty with
  | none =>
    rw [List.find?_eq_none] at hfind
    intro j hkj hj
    simpa using hfind j (mem_range'_1.2 (by omega))
  | some j =>
    have hsome := List.find?_some hfind
    rw [hfind] at h
    cases hj : free j with
    | nil => simp [hj] at hsome
    | cons b rest =>
      simp only [hj] at h
      cases h

section

variable (h : take base top free k = some (a, free'))
include h

theorem cells_take :
    cells base top free = cells base top free' + run a (2 ^ (k + base)) := by
  obtain ⟨j, rest, -, hkj, hj, hfree, -, rfl⟩ := take_some h
  have hmem : a ∈ free j := by rw [hfree]; exact mem_cons_self
  have hrest : (free j).erase a = rest := by rw [hfree, erase_cons_head]
  rw [cells_split (by omega), cells_erase hj hmem, hrest, Nat.add_sub_cancel' hkj]

theorem aligned_take (hal : Aligned base free) :
    2 ^ (k + base) ∣ a ∧ Aligned base free' := by
  obtain ⟨j, rest, -, hkj, hj, hfree, -, rfl⟩ := take_some h
  have ha : 2 ^ (j + base) ∣ a := hal j a (by rw [hfree]; exact mem_cons_self)
  refine ⟨(pow_dvd_pow 2 (by omega)).trans ha, aligned_split ?_ (by rwa [Nat.add_sub_cancel' hkj])⟩
  intro i b hb
  by_cases hij : i = j
  · subst hij
    rw [update_self] at hb
    exact hal i b (by rw [hfree]; exact mem_cons_of_mem _ hb)
  · rw [update_of_ne hij] at hb
    exact hal i b hb

theorem noBuddies_take (hno : NoBuddies base top free) :
    NoBuddies base top free' := by
  obtain ⟨j, rest, -, hkj, hj, hfree, hempty, rfl⟩ := take_some h
  refine noBuddies_split ?_ fun i hki hij => ?_
  · intro i hi b hb hbuddy
    by_cases hij : i = j
    · subst hij
      rw [update_self] at hb hbuddy
      refine hno i hi b ?_ ?_ <;> rw [hfree]
      · exact mem_cons_of_mem _ hb
      · exact mem_cons_of_mem _ hbuddy
    · rw [update_of_ne hij] at hb hbuddy
      exact hno i hi b hb hbuddy
  · rw [update_of_ne (by omega)]
    exact hempty i hki (by omega)

end

end Take

section Give

variable {n a k : ℕ}

theorem cells_give (hk : k + n = top) (ha : 2 ^ (k + base) ∣ a) :
    cells base top (give base n free a k) = cells base top free + run a (2 ^ (k + base)) := by
  induction n generalizing free a k with
  | zero => exact cells_push (by omega) a
  | succ n ih =>
    rw [give]
    split_ifs with hbuddy
    · have hup : 2 ^ (k + 1 + base) ∣ min a (buddy (k + base) a) := by
        rw [Nat.add_right_comm]
        exact (halves ha).1
      rw [ih (by omega) hup, Nat.add_right_comm, run_join ha, cells_erase (by omega : k ≤ top) hbuddy]
      abel
    · exact cells_push (by omega) a

theorem aligned_update {l : List ℕ} (h : Aligned base free) (hl : ∀ b ∈ l, 2 ^ (k + base) ∣ b) :
    Aligned base (update free k l) := by
  intro j b hb
  by_cases hj : j = k
  · subst hj
    rw [update_self] at hb
    exact hl b hb
  · rw [update_of_ne hj] at hb
    exact h j b hb

theorem aligned_push (h : Aligned base free) (ha : 2 ^ (k + base) ∣ a) :
    Aligned base (update free k (a :: free k)) := by
  refine aligned_update h fun b hb => ?_
  rcases mem_cons.1 hb with rfl | hb
  · exact ha
  · exact h k b hb

theorem aligned_give (h : Aligned base free) (ha : 2 ^ (k + base) ∣ a) : Aligned base (give base n free a k) := by
  induction n generalizing free a k with
  | zero => exact aligned_push h ha
  | succ n ih =>
    rw [give]
    split_ifs with hbuddy
    · refine ih (aligned_update h fun b hb => h k b (mem_of_mem_erase hb)) ?_
      rw [Nat.add_right_comm]
      exact (halves ha).1
    · exact aligned_push h ha

theorem noBuddies_push (h : NoBuddies base top free) (hk : k = top ∨ buddy (k + base) a ∉ free k) :
    NoBuddies base top (update free k (a :: free k)) := by
  intro j hj b hb hbuddy
  by_cases hjk : j = k
  · subst hjk
    have hnew := hk.resolve_left (by omega)
    rw [update_self, mem_cons] at hb hbuddy
    rcases hb with rfl | hb
    · rcases hbuddy with hbuddy | hbuddy
      · exact buddy_ne _ _ hbuddy
      · exact hnew hbuddy
    · rcases hbuddy with hbuddy | hbuddy
      · rw [← hbuddy, buddy_buddy] at hnew
        exact hnew hb
      · exact h j hj b hb hbuddy
  · rw [update_of_ne hjk] at hb hbuddy
    exact h j hj b hb hbuddy

theorem noBuddies_give (h : NoBuddies base top free) (hk : k + n = top) : NoBuddies base top (give base n free a k) := by
  induction n generalizing free a k with
  | zero => exact noBuddies_push h (.inl (by omega))
  | succ n ih =>
    rw [give]
    split_ifs with hbuddy
    · refine ih ?_ (by omega)
      intro j hj b hb hb'
      by_cases hjk : j = k
      · subst hjk
        rw [update_self] at hb hb'
        exact h j hj b (mem_of_mem_erase hb) (mem_of_mem_erase hb')
      · rw [update_of_ne hjk] at hb hb'
        exact h j hj b hb hb'
    · exact noBuddies_push h (.inr hbuddy)

end Give

theorem canonical (hal : Aligned base free) (hnodup : (cells base top free).Nodup) (hno : NoBuddies base top free) :
    Canonical (top + base) (fun j => {a | base ≤ j ∧ j ≤ top + base ∧ a ∈ free (j - base)})
      {x | x ∈ cells base top free} where
  aligned := by
    rintro k a ⟨hle, -, ha⟩
    have h := hal _ a ha
    rwa [Nat.sub_add_cancel hle] at h
  covers := by
    intro x
    simp only [Set.mem_ofPred_eq, mem_cells]
    constructor
    · rintro ⟨k, hk, a, ha, hx⟩
      rw [mem_block (hal k a ha)] at hx
      exact ⟨k + base, by omega, by omega, by omega, by rwa [hx, Nat.add_sub_cancel]⟩
    · rintro ⟨k, hk, hle, -, ha⟩
      refine ⟨k - base, by omega, _, ha, ?_⟩
      rw [Nat.sub_add_cancel hle]
      exact (mem_block (floor_dvd k x)).2 rfl
  apart := by
    rintro x k j ⟨hbk, hk, ha⟩ ⟨hbj, hj, hb⟩
    have hx : ∀ i, base ≤ i → x ∈ run (floor i x) (2 ^ (i - base + base)) := by
      intro i hi
      rw [Nat.sub_add_cancel hi]
      exact (mem_block (floor_dvd i x)).2 rfl
    have := (apart hnodup (by omega) (by omega) ha hb (hx k hbk) (hx j hbj)).1
    omega
  apartBuddies := by
    rintro k hk a ⟨hle, -, ha⟩ ⟨-, -, hb⟩
    have h := hno (k - base) (by omega) a ha
    rw [Nat.sub_add_cancel hle] at h
    exact h hb

theorem pools_unique {free' : Pools} (hal : Aligned base free) (hno : NoBuddies base top free)
    (hnodup : (cells base top free).Nodup) (hal' : Aligned base free') (hno' : NoBuddies base top free')
    (heq : cells base top free = cells base top free') {k : ℕ} (hk : k ≤ top) (a : ℕ) : a ∈ free k ↔ a ∈ free' k := by
  have h := canonical hal hnodup hno
  rw [heq] at hnodup h
  have h' := canonical hal' hnodup hno'
  have huniq := h.unique h' (show k + base ≤ top + base by omega) a
  simp only [Set.mem_ofPred_eq, Nat.add_sub_cancel] at huniq
  constructor
  · intro ha
    exact (huniq.1 ⟨by omega, by omega, ha⟩).2.2
  · intro ha
    exact (huniq.2 ⟨by omega, by omega, ha⟩).2.2

end BuddySystem

end MaramOS
