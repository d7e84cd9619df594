import MaramOS.Sanity.Available

/-! Which runs `find_first_fit` finds. The run of clear bits is compared with the
requested length only at the end of each block of 4096 bits, so the answer is the
run that ends the first block with enough clear bits before its end. It is the
least one exactly if that run goes on to the end of the block it ends in. -/

namespace MaramOS

namespace BitmapAllocator

variable {b : BitmapAllocator} {count : ℕ}

def FitAt (b : BitmapAllocator) (count s : ℕ) : Prop := ∀ i < count, b.bit (s + i) = false

/-- The answer of a first fit: the least place with enough clear bits, and none only if there is none. -/
def FirstFit (b : BitmapAllocator) (count : ℕ) : Option ℕ → Prop
  | some s => IsLeast {s | b.FitAt count s} s
  | none => ∀ s, ¬ b.FitAt count s

/-- The `count` bits before the end of the first `k` blocks are clear. -/
def EndsFree (b : BitmapAllocator) (count k : ℕ) : Prop :=
  count ≤ k * 4096 ∧ ∀ i, k * 4096 - count ≤ i → i < k * 4096 → b.bit i = false

theorem TailRun.endsFree_iff {k : ℕ} {acc : Option ℕ × ℕ} (hcount : 1 ≤ count) (h : b.TailRun 0 (k * 4096) acc) :
    count ≤ acc.2 ↔ b.EndsFree count k := by
  obtain ⟨_ | start, run⟩ := acc
  · obtain ⟨rfl, hused⟩ := h
    refine ⟨fun hle => by simp only at hle; omega, fun ⟨hle, hfree⟩ => ?_⟩
    have hlast := hfree (k * 4096 - 1) (by omega) (by omega)
    rw [hused (by omega)] at hlast
    cases hlast
  · obtain ⟨-, hpos, hend, hclear, hused⟩ := h
    refine ⟨fun hle => ⟨by simp only at hle; omega, fun i h1 h2 => hclear i (by simp only at hle; omega) h2⟩, ?_⟩
    rintro ⟨hle, hfree⟩
    by_contra hlt
    simp only at hlt
    have hbefore := hfree (start - 1) (by omega) (by omega)
    rw [hused (by omega)] at hbefore
    cases hbefore

/-- From block `k` on, the scan answers at the first block end with enough clear bits before it, with
the whole run that ends there. -/
theorem scanBlocks_first (hcount : 1 ≤ count) (rest : List BlockState) (k : ℕ) (acc : Option ℕ × ℕ)
    (hrest : b.blocks.drop k = rest) (hacc : b.TailRun 0 (k * 4096) acc) (hbefore : ∀ j ≤ k, ¬ b.EndsFree count j) :
    match scanBlocks count k acc rest with
    | some start => ∃ j, (∀ i < j, ¬ b.EndsFree count i) ∧ start + count ≤ j * 4096 ∧
        (∀ i, start ≤ i → i < j * 4096 → b.bit i = false) ∧ (0 < start → b.bit (start - 1) = true)
    | none => ∀ j ≤ b.blocks.length, ¬ b.EndsFree count j := by
  induction rest generalizing k acc with
  | nil =>
    intro j hj
    have := List.drop_eq_nil_iff.1 hrest
    exact hbefore j (by omega)
  | cons s rest ih =>
    obtain ⟨hk, hnext⟩ := of_drop_eq_cons hrest
    have hrun := tailRun_scanBlock hk (Nat.zero_le _) hacc
    rw [← Nat.succ_mul] at hrun
    have hends := hrun.endsFree_iff hcount
    rw [scanBlocks]
    generalize scanBlock k acc s = acc' at hrun hends ⊢
    by_cases hle : count ≤ acc'.2
    · rw [if_pos hle]
      obtain ⟨_ | start, run⟩ := acc'
      · obtain ⟨rfl, -⟩ := hrun
        simp only at hle
        omega
      · obtain ⟨-, -, hend, hclear, hused⟩ := hrun
        exact ⟨k + 1, fun i hi => hbefore i (by omega), by simp only at hle; omega, hclear, hused⟩
    · rw [if_neg hle]
      refine ih (k + 1) acc' hnext hrun fun j hj => ?_
      rcases Nat.le_succ_iff.1 hj with hj | rfl
      · exact hbefore j hj
      · exact fun h => hle (hends.2 h)

theorem findFirstFit_first (hcount : 1 ≤ count) :
    match b.findFirstFit count with
    | some start => ∃ j, (∀ i < j, ¬ b.EndsFree count i) ∧ start + count ≤ j * 4096 ∧
        (∀ i, start ≤ i → i < j * 4096 → b.bit i = false) ∧ (0 < start → b.bit (start - 1) = true)
    | none => ∀ j ≤ b.blocks.length, ¬ b.EndsFree count j := by
  rw [findFirstFit, if_neg (by omega)]
  refine scanBlocks_first hcount b.blocks 0 (none, 0) rfl (TailRun.start b 0) fun j hj h => ?_
  have := h.1
  omega

theorem FitAt.endsFree {s : ℕ} (hcount : 1 ≤ count) (h : b.FitAt count s)
    (htail : ∀ i, s + count ≤ i → i / 4096 = (s + count - 1) / 4096 → b.bit i = false) :
    b.EndsFree count ((s + count - 1) / 4096 + 1) ∧ (s + count - 1) / 4096 + 1 ≤ b.blocks.length := by
  have hlast := lt_of_bit_false (h (count - 1) (by omega))
  refine ⟨⟨by omega, fun i h1 h2 => ?_⟩, by omega⟩
  by_cases hi : i < s + count
  · have := h (i - s) (by omega)
    rwa [Nat.add_sub_cancel' (by omega)] at this
  · exact htail i (by omega) (by omega)

/-- `find_first_fit` is a first fit exactly if the least run, when there is one, is followed by clear
bits up to the end of the block it ends in. -/
theorem first_fit_iff (hcount : 1 ≤ count) :
    b.FirstFit count (b.findFirstFit count) ↔
      ∀ s, IsLeast {s | b.FitAt count s} s →
        ∀ i, s + count ≤ i → i / 4096 = (s + count - 1) / 4096 → b.bit i = false := by
  have hfirst := @findFirstFit_first b count hcount
  generalize b.findFirstFit count = found at hfirst ⊢
  cases found with
  | none =>
    constructor
    · intro hnone s hs
      exact absurd hs.1 (hnone s)
    · intro htail s hs
      classical
      have hex : ∃ s, b.FitAt count s := ⟨s, hs⟩
      have hleast : IsLeast {s | b.FitAt count s} (Nat.find hex) :=
        ⟨Nat.find_spec hex, fun t ht => Nat.find_min' hex ht⟩
      obtain ⟨hends, hlen⟩ := hleast.1.endsFree hcount (htail _ hleast)
      exact hfirst _ hlen hends
  | some start =>
    obtain ⟨j, hbefore, hend, hclear, hused⟩ := hfirst
    constructor
    · intro hleast s hs i h1 h2
      obtain rfl := hleast.unique hs
      exact hclear i (by omega) (by omega)
    · intro htail
      have hfit : b.FitAt count start := fun i hi => hclear _ (by omega) (by omega)
      refine ⟨hfit, fun t ht => ?_⟩
      classical
      have hex : ∃ s, b.FitAt count s := ⟨t, ht⟩
      have hleast : IsLeast {s | b.FitAt count s} (Nat.find hex) :=
        ⟨Nat.find_spec hex, fun t ht => Nat.find_min' hex ht⟩
      refine le_trans ?_ (hleast.2 ht)
      generalize Nat.find hex = s at hleast
      -- a run before `start` would have ended an earlier block, as the bit before `start` is used
      by_contra hlt
      obtain ⟨hends, -⟩ := hleast.1.endsFree hcount (htail s hleast)
      have hj : j ≤ (s + count - 1) / 4096 + 1 := not_lt.1 fun h => hbefore _ h hends
      have hbit := hused (by omega)
      have hgap : s + count ≤ start - 1 := by
        by_contra hin
        have := hleast.1 (start - 1 - s) (by omega)
        rw [Nat.add_sub_cancel' (by omega), hbit] at this
        cases this
      have := htail s hleast (start - 1) hgap (by omega)
      rw [hbit] at this
      cases this

def lowUsed : BitmapAllocator := ⟨[.mixed fun i => if i.val = 0 then 0xFF else 0], 0⟩

theorem first_fit_mixed_block : lowUsed.FirstFit 3 (some 8) := by
  have hfound : lowUsed.findFirstFit 3 = some 8 := by decide +kernel
  have hfirst := @first_fit_iff lowUsed 3 (by norm_num)
  rw [hfound] at hfirst
  refine hfirst.2 fun s hs i h1 h2 => ?_
  have hlt := lt_of_bit_false (hs.1 2 (by norm_num))
  rw [show lowUsed.blocks.length = 1 from rfl] at hlt
  have hge : 8 ≤ s := by
    by_contra hlow
    have hused := hs.1 0 (by norm_num)
    have hs : s < 8 := by omega
    interval_cases s <;> revert hused <;> decide
  have hbit := bit_block (b := lowUsed) (k := 0) rfl (show i < 4096 by omega)
  rw [Nat.zero_mul, Nat.zero_add] at hbit
  have hbyte : i / 8 ≠ 0 := by omega
  rw [hbit]
  simp [BlockState.bit, BitmapBlock.get, Sector.byte, hbyte]

/-- One block in which only the last bit is used: nothing is found. -/
theorem first_fit_misses :
    ¬ (BitmapAllocator.mk [.mixed fun i => if i.val = 511 then 0x80 else 0] 0).FirstFit 1
      (BitmapAllocator.mk [.mixed fun i => if i.val = 511 then 0x80 else 0] 0 |>.findFirstFit 1) := by
  have hnone : (BitmapAllocator.mk [.mixed fun i => if i.val = 511 then 0x80 else 0] 0).findFirstFit 1 = none := by
    decide +kernel
  rw [hnone]
  intro h
  refine h 0 fun i hi => ?_
  obtain rfl : i = 0 := by omega
  decide +kernel

end BitmapAllocator

end MaramOS
