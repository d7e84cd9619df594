import MaramOS.Sanity.Bitmap

/-! Which sectors `alloc(1)` hands out. `find_first_fit` looks at its run of
clear bits only at the end of each block, so a clear bit is found only when all
bits after it in its block are clear too. Those sectors are handed out in
increasing order, one for each call, until none is left. -/

namespace MaramOS

open List

namespace BitmapAllocator

/-- Every bit from `j` to the end of its block is clear, or would be once the
sectors in `released` are given back. -/
def tailFree (b : BitmapAllocator) (released : List ℕ) (j : ℕ) : Bool :=
  (List.range' j (4096 - j % 4096)).all fun i => !b.bit i || decide (i + b.dataStart ∈ released)

/-- The sectors that `alloc(1)` finds, in its order, after `released` is given back. -/
def available (b : BitmapAllocator) (released : List ℕ) : List ℕ :=
  ((List.range (4096 * b.blocks.length)).filter (b.tailFree released)).map (· + b.dataStart)

variable {b : BitmapAllocator} {j lo base n : ℕ} {acc : Option ℕ × ℕ}

theorem tailFree_iff {released : List ℕ} :
    b.tailFree released j = true ↔
      ∀ i, j ≤ i → i / 4096 = j / 4096 → b.bit i = false ∨ i + b.dataStart ∈ released := by
  simp only [tailFree, all_eq_true, mem_range'_1, Bool.or_eq_true, Bool.not_eq_true',
    decide_eq_true_eq]
  constructor
  · intro h i hi hdiv
    exact h i ⟨hi, by omega⟩
  · intro h i hi
    exact h i hi.1 (by omega)

theorem tailFree_nil :
    b.tailFree [] j = true ↔ ∀ i, j ≤ i → i / 4096 = j / 4096 → b.bit i = false := by
  simp [tailFree_iff]

/-- What a scan that began with no run at bit `base` has found at bit `pos`: the
longest run of clear bits that ends there. -/
def TailRun (b : BitmapAllocator) (base pos : ℕ) : Option ℕ × ℕ → Prop
  | (none, run) => run = 0 ∧ (base < pos → b.bit (pos - 1) = true)
  | (some start, run) => base ≤ start ∧ 0 < run ∧ start + run = pos ∧
      (∀ i, start ≤ i → i < pos → b.bit i = false) ∧ (base < start → b.bit (start - 1) = true)

theorem TailRun.start (b : BitmapAllocator) (base : ℕ) : b.TailRun base base (none, 0) :=
  ⟨rfl, fun h => absurd h (lt_irrefl _)⟩

theorem TailRun.step {b : BitmapAllocator} {m : BitmapBlock} {lo base n : ℕ} {acc : Option ℕ × ℕ} (hlo : lo ≤ base)
    (hbit : b.bit (base + n) = m.get n) (h : b.TailRun lo (base + n) acc) :
    b.TailRun lo (base + n + 1) (scanBit m base acc n) := by
  unfold scanBit
  split_ifs with hm
  · exact ⟨rfl, fun _ => by rw [Nat.add_sub_cancel, hbit, hm]⟩
  · have hfree : b.bit (base + n) = false := by simpa [hm] using hbit
    obtain ⟨_ | start, run⟩ := acc
    · obtain ⟨rfl, hused⟩ := h
      refine ⟨by simp only [Option.getD_none]; omega, by simp, rfl, fun i h1 h2 => ?_, hused⟩
      simp only [Option.getD_none] at h1
      obtain rfl : i = base + n := by omega
      exact hfree
    · obtain ⟨hbase, hrun, hend, hclear, hused⟩ := h
      refine ⟨hbase, by simp, by simp only [Option.getD_some]; omega, fun i h1 h2 => ?_, hused⟩
      by_cases hi : i < base + n
      · exact hclear i h1 hi
      · obtain rfl : i = base + n := by omega
        exact hfree

theorem tailRun_scan {m : BitmapBlock} (hlo : lo ≤ base) (hbits : ∀ i < n, b.bit (base + i) = m.get i)
    (h : b.TailRun lo base acc) :
    b.TailRun lo (base + n) ((List.range n).foldl (scanBit m base) acc) := by
  induction n with
  | zero => exact h
  | succ n ih =>
    rw [range_succ, foldl_append, foldl_cons, foldl_nil]
    exact (ih fun i hi => hbits i (by omega)).step hlo (hbits n (by omega))

theorem TailRun.extend (hlo : lo ≤ base) (hn : 0 < n) (hfree : ∀ i < n, b.bit (base + i) = false)
    (h : b.TailRun lo base acc) :
    b.TailRun lo (base + n) (some (acc.1.getD base), acc.2 + n) := by
  obtain ⟨_ | start, run⟩ := acc
  · obtain ⟨rfl, hused⟩ := h
    refine ⟨hlo, by omega, by simp, fun i h1 h2 => ?_, hused⟩
    simp only [Option.getD_none] at h1
    have := hfree (i - base) (by omega)
    rwa [Nat.add_sub_cancel' h1] at this
  · obtain ⟨hbase, hrun, hend, hclear, hused⟩ := h
    refine ⟨hbase, by omega, by simp only [Option.getD_some]; omega, fun i h1 h2 => ?_, hused⟩
    by_cases hi : i < base
    · exact hclear i h1 hi
    · have := hfree (i - base) (by omega)
      rwa [Nat.add_sub_cancel' (not_lt.1 hi)] at this

theorem tailRun_scanBlock {k : ℕ} {s : BlockState} (hk : b.blocks[k]? = some s) (hlo : lo ≤ k * 4096)
    (h : b.TailRun lo (k * 4096) acc) :
    b.TailRun lo (k * 4096 + 4096) (scanBlock k acc s) := by
  have hbits : ∀ i < BITS_PER_BLOCK, b.bit (k * BITS_PER_BLOCK + i) = s.bit i := fun i hi =>
    bit_block hk hi
  change b.TailRun lo (k * BITS_PER_BLOCK) acc at h
  change lo ≤ k * BITS_PER_BLOCK at hlo
  change b.TailRun lo (k * BITS_PER_BLOCK + BITS_PER_BLOCK) _
  cases s with
  | free =>
    refine h.extend hlo (by decide) fun i hi => ?_
    rw [hbits i hi]
    rfl
  | full =>
    refine ⟨rfl, fun _ => ?_⟩
    rw [Nat.add_sub_assoc (by decide)]
    exact bit_block hk (by decide)
  | mixed m =>
    have hget : ∀ i < BITS_PER_BLOCK, b.bit (k * BITS_PER_BLOCK + i) = m.get i := hbits
    rw [scanBlock]
    clear hbits
    generalize BITS_PER_BLOCK = size at h hlo hget ⊢
    exact tailRun_scan hlo hget h

theorem scanBlocks_one (rest : List BlockState) (k : ℕ) (hrest : b.blocks.drop k = rest) :
    match scanBlocks 1 k (none, 0) rest with
    | some start => k * 4096 ≤ start ∧ b.tailFree [] start = true ∧
        ∀ j, k * 4096 ≤ j → j < start → b.tailFree [] j = false
    | none => ∀ j, k * 4096 ≤ j → j < 4096 * b.blocks.length → b.tailFree [] j = false := by
  induction rest generalizing k with
  | nil =>
    intro j h1 h2
    have := drop_eq_nil_iff.1 hrest
    omega
  | cons s rest ih =>
    obtain ⟨hk, hnext⟩ := of_drop_eq_cons hrest
    have hrun := tailRun_scanBlock hk le_rfl (TailRun.start b _)
    rw [scanBlocks]
    generalize scanBlock k (none, 0) s = acc at hrun ⊢
    obtain ⟨_ | start, run⟩ := acc
    · -- the last bit of this block is used, so no bit of it is found
      obtain ⟨rfl, hused⟩ := hrun
      have hskip : ∀ j, k * 4096 ≤ j → j < (k + 1) * 4096 → b.tailFree [] j = false := by
        intro j h1 h2
        rw [Bool.eq_false_iff]
        intro hfree
        have hlast := tailFree_nil.1 hfree (k * 4096 + 4096 - 1) (by omega) (by omega)
        rw [hused (by omega)] at hlast
        cases hlast
      have ih := ih (k + 1) hnext
      rw [if_neg (by decide)]
      generalize scanBlocks 1 (k + 1) (none, 0) rest = found at ih ⊢
      cases found with
      | none =>
        intro j h1 h2
        by_cases hj : j < (k + 1) * 4096
        · exact hskip j h1 hj
        · exact ih j (not_lt.1 hj) h2
      | some start =>
        refine ⟨le_trans (Nat.mul_le_mul_right _ (Nat.le_succ k)) ih.1, ih.2.1, fun j h1 h2 => ?_⟩
        by_cases hj : j < (k + 1) * 4096
        · exact hskip j h1 hj
        · exact ih.2.2 j (not_lt.1 hj) h2
    · obtain ⟨hbase, hpos, hend, hclear, hused⟩ := hrun
      rw [if_pos (show 1 ≤ run from hpos)]
      refine ⟨hbase, tailFree_nil.2 fun i h1 h2 => hclear i h1 (by omega), fun j h1 h2 => ?_⟩
      rw [Bool.eq_false_iff]
      intro hfree
      have hprev := tailFree_nil.1 hfree (start - 1) (by omega) (by omega)
      rw [hused (by omega)] at hprev
      cases hprev

theorem tailFree_take {b' : BitmapAllocator} {start : ℕ} (hc : Changes [start] true b b')
    (hfirst : ∀ j < start, b.tailFree [] j = false) (j : ℕ) :
    b'.tailFree [] j = true ↔ b.tailFree [] j = true ∧ j ≠ start := by
  have hbit : ∀ i, b'.bit i = false ↔ i ≠ start ∧ b.bit i = false := by
    intro i
    rw [hc.bit]
    by_cases hi : i = start <;> simp [hi]
  constructor
  · intro h
    have h' := tailFree_nil.1 h
    refine ⟨tailFree_nil.2 fun i h1 h2 => ((hbit i).1 (h' i h1 h2)).2, ?_⟩
    exact ((hbit j).1 (h' j le_rfl rfl)).1
  · rintro ⟨h, hne⟩
    have hle : start ≤ j := by
      by_contra hlt
      rw [hfirst j (by omega)] at h
      cases h
    exact tailFree_nil.2 fun i h1 h2 => (hbit i).2 ⟨by omega, tailFree_nil.1 h i h1 h2⟩

theorem filter_range_first {p q : ℕ → Bool} {start : ℕ} (hlt : start < n) (hp : p start = true)
    (hfirst : ∀ j < start, p j = false) (hq : ∀ j, q j = true ↔ p j = true ∧ j ≠ start) :
    (List.range n).filter p = start :: (List.range n).filter q := by
  have hsplit : List.range n = List.range start ++ start :: range' (start + 1) (n - start - 1) := by
    have happend := @List.range'_append_1 0 start (n - start - 1 + 1)
    rw [Nat.zero_add] at happend
    rw [range_eq_range', range_eq_range', ← range'_succ, happend]
    congr 1
    omega
  have hp0 : (List.range start).filter p = [] :=
    filter_eq_nil_iff.2 fun j hj => by simp [hfirst j (mem_range.1 hj)]
  have hq0 : (List.range start).filter q = [] :=
    filter_eq_nil_iff.2 fun j hj => by simp [hq, hfirst j (mem_range.1 hj)]
  have hq1 : q start = false := by
    rw [Bool.eq_false_iff]
    exact fun h => ((hq start).1 h).2 rfl
  have htail : (range' (start + 1) (n - start - 1)).filter p =
      (range' (start + 1) (n - start - 1)).filter q := by
    refine filter_congr fun j hj => ?_
    have hne : j ≠ start := by
      have := (mem_range'_1.1 hj).1
      omega
    rw [Bool.eq_iff_iff, hq, and_iff_left hne]
  rw [hsplit, filter_append, filter_append, hp0, hq0, filter_cons_of_pos hp,
    filter_cons_of_neg (by simp [hq1]), htail, nil_append, nil_append]

/-- `alloc(1)` answers with the first available sector, and takes just that one. A number of 64 bits is answered. -/
theorem alloc_one (b : BitmapAllocator) :
    (b.available [] = [] ∧ b.alloc 1 = .ok (none, b)) ∨
    ∃ lba b', b.available [] = lba :: b'.available [] ∧ b.alloc 1 = .ok (some (lba % 2 ^ 64), b') ∧
      b.dataStart ≤ lba ∧ b.bit (lba - b.dataStart) = false ∧ Changes [lba - b.dataStart] true b b' := by
  have hscan := scanBlocks_one b.blocks 0 rfl
  cases hfit : b.findFirstFit 1 with
  | none =>
    rw [findFirstFit, if_neg one_ne_zero] at hfit
    rw [hfit] at hscan
    refine Or.inl ⟨?_, by rw [alloc, findFirstFit, if_neg one_ne_zero, hfit]⟩
    rw [available, map_eq_nil_iff, filter_eq_nil_iff]
    intro j hj
    simp [hscan j (by omega) (mem_range.1 hj)]
  | some start =>
    obtain ⟨b', hb', hc⟩ := alloc_of_fit hfit
    have hlt := lt_of_bit_false ((findFirstFit_sound hfit).2 0 (by norm_num))
    rw [findFirstFit, if_neg one_ne_zero] at hfit
    rw [hfit] at hscan
    obtain ⟨-, hstart, hfirst⟩ := hscan
    have hspan : span start 1 = [start] := by simp [span]
    rw [hspan] at hc
    refine Or.inr ⟨start + b.dataStart, b', ?_, hb', by omega, ?_, ?_⟩
    · rw [available, available, hc.length, hc.dataStart,
        filter_range_first hlt hstart (fun j hj => hfirst j (by omega) hj)
          (tailFree_take hc fun j hj => hfirst j (by omega) hj)]
      rfl
    · rw [Nat.add_sub_cancel]
      exact tailFree_nil.1 hstart start le_rfl rfl
    · rwa [Nat.add_sub_cancel]

end BitmapAllocator

end MaramOS
