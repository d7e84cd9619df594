import Mathlib.Data.Nat.Bitwise
import Mathlib.Data.Multiset.AddSub
import Mathlib.Data.Set.Basic
import Mathlib.Tactic.Ring

/-! Runs of consecutive numbers, and the runs of length `2 ^ k` that start at a
multiple of their length. Each number lies in one such block of every order, a
block and its buddy make up a block of the next order, and a set is cut into
blocks in one way only, if no block stands beside its buddy. -/

namespace MaramOS

def run (a n : ℕ) : Multiset ℕ := (List.range' a n : Multiset ℕ)

theorem mem_run {a n x : ℕ} : x ∈ run a n ↔ a ≤ x ∧ x < a + n := by
  rw [run, Multiset.mem_coe, List.mem_range'_1]

theorem run_add (a m n : ℕ) : run a (m + n) = run a m + run (a + m) n := by
  rw [run, run, run, Multiset.coe_add, ← List.range'_append_1]

theorem nodup_run (a n : ℕ) : (run a n).Nodup :=
  Multiset.coe_nodup.2 List.nodup_range'

namespace DyadicBlock

/-- The start of the block of order `k` that `x` lies in. -/
def floor (k x : ℕ) : ℕ := x / 2 ^ k * 2 ^ k

/-- The block of the same order with which a block makes up the one of the next order. -/
def buddy (k a : ℕ) : ℕ := a ^^^ 2 ^ k

theorem floor_dvd (k x : ℕ) : 2 ^ k ∣ floor k x := Dvd.intro_left _ rfl

variable {k a x j q : ℕ}

theorem floor_of_dvd (h : 2 ^ k ∣ a) : floor k a = a := Nat.div_mul_cancel h

theorem mem_block (h : 2 ^ k ∣ a) : x ∈ run a (2 ^ k) ↔ floor k x = a := by
  obtain ⟨q, rfl⟩ := h
  have hpos : 0 < 2 ^ k := Nat.two_pow_pos k
  rw [mem_run, floor, Nat.mul_comm (2 ^ k) q, Nat.mul_left_inj hpos.ne', Nat.div_eq_iff hpos, Nat.mul_comm q]
  omega

theorem floor_floor (h : k ≤ j) (x : ℕ) : floor j (floor k x) = floor j x := by
  obtain ⟨d, rfl⟩ := Nat.exists_eq_add_of_le h
  rw [floor, floor, floor, Nat.pow_add, ← Nat.div_div_eq_div_mul, Nat.mul_div_cancel _ (Nat.two_pow_pos k),
    Nat.div_div_eq_div_mul]

theorem floor_eq_of_le {y : ℕ} (h : k ≤ j) (hxy : floor k x = floor k y) : floor j x = floor j y := by
  rw [← floor_floor h x, hxy, floor_floor h y]

theorem buddy_of_even (h : Even q) : buddy k (2 ^ k * q) = 2 ^ k * q + 2 ^ k := by
  have hshift : (q ^^^ 1) <<< k = q <<< k ^^^ 1 <<< k := Nat.shiftLeft_xor_distrib
  simp only [Nat.shiftLeft_eq, Nat.one_mul] at hshift
  rw [buddy, Nat.mul_comm, ← hshift, Nat.xor_one_of_even h]
  ring

theorem buddy_of_odd (h : Odd q) : buddy k (2 ^ k * q) + 2 ^ k = 2 ^ k * q := by
  have hshift : (q ^^^ 1) <<< k = q <<< k ^^^ 1 <<< k := Nat.shiftLeft_xor_distrib
  simp only [Nat.shiftLeft_eq, Nat.one_mul] at hshift
  obtain ⟨m, rfl⟩ := h
  rw [buddy, Nat.mul_comm, ← hshift, Nat.xor_one_of_odd ⟨m, rfl⟩, Nat.add_sub_cancel]
  ring

theorem halves (h : 2 ^ k ∣ a) : 2 ^ (k + 1) ∣ min a (buddy k a) ∧
    (a = min a (buddy k a) ∧ buddy k a = min a (buddy k a) + 2 ^ k ∨
      buddy k a = min a (buddy k a) ∧ a = min a (buddy k a) + 2 ^ k) := by
  have hpos : 0 < 2 ^ k := Nat.two_pow_pos k
  obtain ⟨q, rfl⟩ := h
  rcases Nat.even_or_odd q with hq | hq
  · have hb := buddy_of_even (k := k) hq
    rw [hb, Nat.min_eq_left (by omega)]
    obtain ⟨m, rfl⟩ := hq
    exact ⟨⟨m, by ring⟩, .inl ⟨rfl, rfl⟩⟩
  · have hb := buddy_of_odd (k := k) hq
    rw [Nat.min_eq_right (by omega)]
    refine ⟨?_, .inr ⟨rfl, hb.symm⟩⟩
    obtain ⟨m, rfl⟩ := hq
    have hsplit : 2 ^ k * (2 * m + 1) = 2 ^ (k + 1) * m + 2 ^ k := by ring
    exact ⟨m, by omega⟩

theorem buddy_buddy (k a : ℕ) : buddy k (buddy k a) = a := by
  rw [buddy, buddy, Nat.xor_assoc, Nat.xor_self, Nat.xor_zero]

theorem buddy_ne (k a : ℕ) : buddy k a ≠ a := by
  intro h
  have hzero : 2 ^ k = 0 := by
    rw [← Nat.xor_zero (2 ^ k), ← Nat.xor_self a, ← Nat.xor_assoc, Nat.xor_comm (2 ^ k), ← buddy, h, Nat.xor_self]
  exact (Nat.two_pow_pos k).ne' hzero

theorem run_join (h : 2 ^ k ∣ a) :
    run (min a (buddy k a)) (2 ^ (k + 1)) = run a (2 ^ k) + run (buddy k a) (2 ^ k) := by
  have hsum : 2 ^ (k + 1) = 2 ^ k + 2 ^ k := by ring
  rw [hsum, run_add]
  rcases (halves h).2 with ⟨ha, hb⟩ | ⟨hb, ha⟩
  · rw [← hb, ← ha]
  · rw [← ha, ← hb]
    exact Multiset.add_comm _ _

/-- A set cut into blocks of order up to `top`, in which no block below that order
stands beside its buddy. -/
structure Canonical (top : ℕ) (blocks : ℕ → Set ℕ) (s : Set ℕ) : Prop where
  aligned : ∀ k a, a ∈ blocks k → 2 ^ k ∣ a
  covers : ∀ x, x ∈ s ↔ ∃ k ≤ top, floor k x ∈ blocks k
  apart : ∀ x k j, floor k x ∈ blocks k → floor j x ∈ blocks j → k = j
  apartBuddies : ∀ k < top, ∀ a ∈ blocks k, buddy k a ∉ blocks k

namespace Canonical

variable {top : ℕ} {blocks blocks' : ℕ → Set ℕ} {s : Set ℕ} {k : ℕ}

theorem contains (h : Canonical top blocks s) (k : ℕ) : k ≤ top → ∀ x, (∀ y, floor k y = floor k x → y ∈ s) →
    ∃ j ≤ top, k ≤ j ∧ floor j x ∈ blocks j := by
  induction k with
  | zero =>
    intro _ x hx
    obtain ⟨j, hj, hmem⟩ := (h.covers x).1 (hx x rfl)
    exact ⟨j, hj, Nat.zero_le j, hmem⟩
  | succ k ih =>
    intro hk x hx
    have hpow : 2 ^ (k + 1) = 2 ^ k + 2 ^ k := by ring
    have hpos : 0 < 2 ^ k := Nat.two_pow_pos k
    have hd := floor_dvd (k + 1) x
    have hdk : 2 ^ k ∣ floor (k + 1) x := (pow_dvd_pow 2 (Nat.le_succ k)).trans hd
    -- both halves of the block are parts of blocks of the cut
    have hhalf : ∀ u, floor (k + 1) u = floor (k + 1) x → ∃ j ≤ top, k ≤ j ∧ floor j u ∈ blocks j := by
      intro u hu
      refine ih (by omega) u fun y hy => hx y ?_
      rw [floor_eq_of_le (Nat.le_succ k) hy, hu]
    have hlow : floor (k + 1) (floor (k + 1) x) = floor (k + 1) x := floor_of_dvd hd
    have hhigh : floor (k + 1) (floor (k + 1) x + 2 ^ k) = floor (k + 1) x := by
      rw [← mem_block hd, mem_run]
      omega
    obtain ⟨j1, hj1, hle1, hmem1⟩ := hhalf _ hlow
    obtain ⟨j2, hj2, hle2, hmem2⟩ := hhalf _ hhigh
    rcases Nat.lt_or_eq_of_le hle1 with hlt1 | rfl
    · exact ⟨j1, hj1, hlt1, by rwa [← floor_eq_of_le hlt1 hlow]⟩
    · rcases Nat.lt_or_eq_of_le hle2 with hlt2 | rfl
      · exact ⟨j2, hj2, hlt2, by rwa [← floor_eq_of_le hlt2 hhigh]⟩
      · rw [floor_of_dvd hdk] at hmem1
        rw [floor_of_dvd (Nat.dvd_add hdk dvd_rfl)] at hmem2
        refine absurd hmem2 ?_
        obtain ⟨q, hq⟩ := hd
        have hbuddy : buddy k (floor (k + 1) x) = floor (k + 1) x + 2 ^ k := by
          rw [hq, show 2 ^ (k + 1) * q = 2 ^ k * (2 * q) by ring, buddy_of_even (even_two_mul q)]
        rw [← hbuddy]
        exact h.apartBuddies k hk _ hmem1

theorem subset (h : Canonical top blocks s) (h' : Canonical top blocks' s) {a : ℕ} (hk : k ≤ top) (ha : a ∈ blocks k) :
    a ∈ blocks' k := by
  have hfloor : floor k a = a := floor_of_dvd (h.aligned k a ha)
  have hinside : ∀ y, floor k y = floor k a → y ∈ s := by
    intro y hy
    rw [h.covers]
    exact ⟨k, hk, by rwa [hy, hfloor]⟩
  obtain ⟨j, hj, hle, hmem⟩ := h'.contains k hk a hinside
  rcases Nat.lt_or_eq_of_le hle with hlt | rfl
  · -- the larger block of the other cut lies in the set, so this cut has a block around it
    have hlarge : ∀ y, floor j y = floor j a → y ∈ s := by
      intro y hy
      rw [h'.covers]
      exact ⟨j, hj, by rwa [hy]⟩
    obtain ⟨i, -, hji, hmem'⟩ := h.contains j hj a hlarge
    have hki := h.apart a k i (by rwa [hfloor]) hmem'
    omega
  · rwa [hfloor] at hmem

theorem unique (h : Canonical top blocks s) (h' : Canonical top blocks' s) (hk : k ≤ top) (a : ℕ) :
    a ∈ blocks k ↔ a ∈ blocks' k :=
  ⟨h.subset h' hk, h'.subset h hk⟩

end Canonical

end DyadicBlock

end MaramOS
