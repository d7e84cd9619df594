import MaramOS.Lib.ByteBits
import MaramOS.Spec.Bitmap

/-! The bits an allocator stands for, and what each of its functions does to
them. Bits past the last block count as used, so a clear bit is in range. -/

namespace MaramOS

open List

namespace BitmapBlock

variable {i j : ℕ}

theorem get_eq (b : BitmapBlock) (hi : i < 4096) :
    b.get i = (b ⟨i / 8, by omega⟩).toNat.testBit (i % 8) := by
  rw [get, Sector.byte, dif_pos (by omega : i / 8 < 512), ByteBits.get_eq_testBit _ (by omega)]

theorem get_set (b : BitmapBlock) (hi : i < 4096) (hj : j < 4096) :
    (b.set j).get i = if i = j then true else b.get i := by
  rw [get_eq _ hi, get_eq b hi]
  simp only [set]
  by_cases hb : i / 8 = j / 8
  · rw [if_pos hb, ByteBits.testBit_set _ (by omega) (by omega)]
    by_cases hij : i = j
    · simp [hij]
    · have hmod : i % 8 ≠ j % 8 := by omega
      simp [hij, hmod]
  · rw [if_neg hb, if_neg (by rintro rfl; exact hb rfl)]

theorem get_clear (b : BitmapBlock) (hi : i < 4096) (hj : j < 4096) :
    (b.clear j).get i = if i = j then false else b.get i := by
  rw [get_eq _ hi, get_eq b hi]
  simp only [clear]
  by_cases hb : i / 8 = j / 8
  · rw [if_pos hb, ByteBits.testBit_clear _ (by omega) (by omega)]
    by_cases hij : i = j
    · simp [hij]
    · have hmod : i % 8 ≠ j % 8 := by omega
      simp [hij, hmod]
  · rw [if_neg hb, if_neg (by rintro rfl; exact hb rfl)]

theorem get_ext {b b' : BitmapBlock} (h : ∀ i < 4096, b.get i = b'.get i) : b = b' := by
  funext k
  have hk := k.isLt
  apply ByteBits.ext
  intro j hj
  have hbit := h (8 * k.val + j) (by omega)
  have hdiv : (8 * k.val + j) / 8 = k.val := by omega
  have hmod : (8 * k.val + j) % 8 = j := by omega
  rw [get_eq _ (by omega), get_eq _ (by omega)] at hbit
  simpa [hdiv, hmod] using hbit

theorem get_zero (hi : i < 4096) : get (fun _ => 0) i = false := by
  rw [get_eq _ hi]
  exact Nat.zero_testBit _

theorem get_ones (hi : i < 4096) : get (fun _ => 0xFF) i = true := by
  rw [get_eq _ hi]
  exact ByteBits.testBit_ones (by omega)

end BitmapBlock

namespace BlockState

def bit : BlockState → ℕ → Bool
  | .free, _ => false
  | .full, _ => true
  | .mixed b, i => b.get i

/-- A stored mixed block is neither all zero nor all ones. -/
def Canonical : BlockState → Prop
  | .mixed b => b ≠ (fun _ => 0) ∧ b ≠ (fun _ => 0xFF)
  | _ => True

theorem all_iff (b : BitmapBlock) (c : UInt8) : b.all c = true ↔ b = fun _ => c := by
  unfold BitmapBlock.all
  rw [all_eq_true, forall_mem_ofFn_iff, funext_iff]
  simp only [beq_iff_eq]

theorem bit_collapse (s : BlockState) {i : ℕ} (hi : i < 4096) : s.collapse.bit i = s.bit i := by
  cases s with
  | free => rfl
  | full => rfl
  | mixed b =>
    simp only [collapse]
    split_ifs with h0 h1
    · rw [all_iff] at h0
      subst h0
      exact (BitmapBlock.get_zero hi).symm
    · rw [all_iff] at h1
      subst h1
      exact (BitmapBlock.get_ones hi).symm
    · rfl

theorem canonical_collapse (s : BlockState) : s.collapse.Canonical := by
  cases s with
  | free => trivial
  | full => trivial
  | mixed b =>
    simp only [collapse]
    split_ifs with h0 h1
    · trivial
    · trivial
    · rw [all_iff] at h0 h1
      exact ⟨h0, h1⟩

theorem canonical_ext {s s' : BlockState} (hs : s.Canonical) (hs' : s'.Canonical)
    (h : ∀ i < 4096, s.bit i = s'.bit i) : s = s' := by
  have zero : ∀ b : BitmapBlock, (∀ i < 4096, b.get i = false) → b = fun _ => 0 := fun b hb =>
    BitmapBlock.get_ext fun i hi => by rw [hb i hi, BitmapBlock.get_zero hi]
  have ones : ∀ b : BitmapBlock, (∀ i < 4096, b.get i = true) → b = fun _ => 0xFF := fun b hb =>
    BitmapBlock.get_ext fun i hi => by rw [hb i hi, BitmapBlock.get_ones hi]
  cases s with
  | free =>
    cases s' with
    | free => rfl
    | full => exact absurd (h 0 (by norm_num)) (by simp [bit])
    | mixed b => exact absurd (zero b fun i hi => (h i hi).symm) hs'.1
  | full =>
    cases s' with
    | free => exact absurd (h 0 (by norm_num)) (by simp [bit])
    | full => rfl
    | mixed b => exact absurd (ones b fun i hi => (h i hi).symm) hs'.2
  | mixed b =>
    cases s' with
    | free => exact absurd (zero b h) hs.1
    | full => exact absurd (ones b h) hs.2
    | mixed b' => rw [BitmapBlock.get_ext h]

end BlockState

namespace BitmapAllocator

def bit (b : BitmapAllocator) (i : ℕ) : Bool :=
  match b.blocks[i / 4096]? with
  | some s => s.bit (i % 4096)
  | none => true

def Canonical (b : BitmapAllocator) : Prop := ∀ s ∈ b.blocks, s.Canonical

variable {b b' : BitmapAllocator} {i k n base count start : ℕ} {s : BlockState} {v : Bool} {α : Type}

theorem lt_of_bit_false (h : b.bit i = false) :
    i < 4096 * b.blocks.length := by
  unfold bit at h
  split at h
  · rename_i s hs
    have := (List.getElem?_eq_some_iff.1 hs).1
    omega
  · cases h

theorem bit_block (hs : b.blocks[k]? = some s) (hi : i < 4096) : b.bit (k * 4096 + i) = s.bit i := by
  have hdiv : (k * 4096 + i) / 4096 = k := by omega
  have hmod : (k * 4096 + i) % 4096 = i := by omega
  simp [bit, hdiv, hmod, hs]

theorem canonical_ext (hb : b.Canonical) (hb' : b'.Canonical) (hd : b.dataStart = b'.dataStart)
    (hl : b.blocks.length = b'.blocks.length) (h : ∀ i, b.bit i = b'.bit i) : b = b' := by
  obtain ⟨blocks, start⟩ := b
  obtain ⟨blocks', start'⟩ := b'
  obtain rfl : start = start' := hd
  congr 1
  apply ext_getElem hl
  intro k hk hk'
  refine BlockState.canonical_ext (hb _ (getElem_mem hk)) (hb' _ (getElem_mem hk')) ?_
  intro i hi
  have hbit := h (k * 4096 + i)
  rwa [bit_block (List.getElem?_eq_getElem hk) hi, bit_block (List.getElem?_eq_getElem hk') hi] at hbit

/-- `b'` is `b` with the bits listed in `l` made `v`, and nothing else changed. -/
structure Changes (l : List ℕ) (v : Bool) (b b' : BitmapAllocator) : Prop where
  dataStart : b'.dataStart = b.dataStart
  length : b'.blocks.length = b.blocks.length
  bit : ∀ j, b'.bit j = if j ∈ l then v else b.bit j
  canonical : b.Canonical → b'.Canonical

theorem Changes.nil (v : Bool) (b : BitmapAllocator) : Changes [] v b b :=
  ⟨rfl, rfl, fun _ => by simp, id⟩

theorem Changes.append {l l' : List ℕ} {b'' : BitmapAllocator} (h : Changes l v b b') (h' : Changes l' v b' b'') :
    Changes (l ++ l') v b b'' := by
  refine ⟨h'.dataStart.trans h.dataStart, h'.length.trans h.length, fun j => ?_,
    h'.canonical ∘ h.canonical⟩
  rw [h'.bit, h.bit]
  by_cases hj : j ∈ l' <;> by_cases hj' : j ∈ l <;> simp [hj, hj']

theorem changes_set {s' : BlockState} (hi : i < 4096) (hk : b.blocks[k]? = some s) (hs : s'.Canonical)
    (hbit : ∀ j < 4096, s'.bit j = if j = i then v else s.bit j) :
    Changes [k * 4096 + i] v b { b with blocks := b.blocks.set k s' } := by
  have hlt := (List.getElem?_eq_some_iff.1 hk).1
  refine ⟨rfl, by simp, fun j => ?_, fun hb => ?_⟩
  · unfold bit
    by_cases hj : j / 4096 = k
    · subst hj
      simp only [List.getElem?_set_self hlt, hk]
      rw [hbit _ (Nat.mod_lt _ (by norm_num))]
      have hiff : j % 4096 = i ↔ j ∈ [j / 4096 * 4096 + i] := by
        rw [mem_singleton]
        omega
      simp only [hiff]
    · simp only [List.getElem?_set_ne (Ne.symm hj)]
      rw [if_neg]
      rw [mem_singleton]
      omega
  · intro t ht
    rcases mem_or_eq_of_mem_set ht with ht | rfl
    · exact hb t ht
    · exact hs

theorem blockOf_add (hi : i < 4096) : blockOf (k * 4096 + i) = k := by
  unfold blockOf BITS_PER_BLOCK
  omega

theorem bitIn_add (hi : i < 4096) : bitIn (k * 4096 + i) = i := by
  unfold bitIn BITS_PER_BLOCK
  omega

theorem exists_block {bit : ℕ} (h : bit < 4096 * b.blocks.length) :
    ∃ k i s, i < 4096 ∧ bit = k * 4096 + i ∧ b.blocks[k]? = some s :=
  ⟨bit / 4096, bit % 4096, _, by omega, by omega, List.getElem?_eq_getElem (by omega)⟩

theorem changeBit_spec {stop : BlockState → Bool} {change : BitmapBlock → ℕ → BitmapBlock}
    (hstop : ∀ s : BlockState, stop s = true → ∀ i, s.bit i = v)
    (hchange : ∀ (m : BitmapBlock) (j : ℕ), j < 4096 → ∀ i < 4096, (change m j).get i = if i = j then v else m.get i)
    (b : BitmapAllocator) (bit : ℕ) (h : bit < 4096 * b.blocks.length) :
    ∃ b', changeBit stop change b bit = .ok b' ∧ Changes [bit] v b b' := by
  obtain ⟨k, i, s, hi, rfl, hs⟩ := exists_block h
  have hlt := (List.getElem?_eq_some_iff.1 hs).1
  have hindex : b.index k = .ok s := by simp [index, hs]
  simp only [changeBit, blockOf_add hi, bitIn_add hi, hindex]
  by_cases hnone : stop s = true
  · refine ⟨b, if_pos hnone, rfl, rfl, fun j => ?_, id⟩
    split_ifs with hj
    · rw [mem_singleton] at hj
      rw [hj, bit_block hs hi, hstop s hnone]
    · rfl
  -- what is left to do once the block is materialized as `m`
  have key : ∀ m : BitmapBlock, (∀ j < 4096, s.bit j = m.get j) →
      Changes [k * 4096 + i] v b
        { b with blocks := b.blocks.set k (BlockState.mixed (change m i)).collapse } := by
    intro m hm
    refine changes_set hi hs (BlockState.canonical_collapse _) fun j hj => ?_
    rw [BlockState.bit_collapse _ hj, hm j hj]
    exact hchange m i hi j hj
  have hput : ∀ l : List BlockState, k < l.length → ∀ m : BitmapBlock, l[k]? = some (.mixed m) →
      (l.modify k (BlockState.mapMixed fun m => change m i)).modify k BlockState.collapse =
        l.set k (BlockState.mixed (change m i)).collapse := by
    intro l hl m hm
    have hget : (l.modify k (BlockState.mapMixed fun m => change m i))[k]? =
        some (.mixed (change m i)) := by
      rw [List.getElem?_modify_eq, hm]
      rfl
    rw [List.modify_eq_set_getElem?, hget]
    simp [List.modify_eq_set_getElem?, hm, BlockState.mapMixed]
  simp only [bind, Except.bind, if_neg hnone]
  cases s with
  | mixed m =>
    refine ⟨_, ?_, key m fun _ _ => rfl⟩
    simp only [BlockState.isMixed, if_true, pure, Except.pure, collapse]
    rw [hput b.blocks hlt m hs]
  | free =>
    refine ⟨_, ?_, key (fun _ => 0) fun _ hj => (BitmapBlock.get_zero hj).symm⟩
    simp only [BlockState.isMixed, materialize, hindex, bind, Except.bind, pure, Except.pure, collapse]
    rw [if_neg (by decide), hput _ (by simpa using hlt) _ (List.getElem?_set_self hlt), set_set]
  | full =>
    refine ⟨_, ?_, key (fun _ => 0xFF) fun _ hj => (BitmapBlock.get_ones hj).symm⟩
    simp only [BlockState.isMixed, materialize, hindex, bind, Except.bind, pure, Except.pure, collapse]
    rw [if_neg (by decide), hput _ (by simpa using hlt) _ (List.getElem?_set_self hlt), set_set]

theorem setBit_spec (b : BitmapAllocator) (bit : ℕ) (h : bit < 4096 * b.blocks.length) :
    ∃ b', b.setBit bit = .ok b' ∧ Changes [bit] true b b' :=
  changeBit_spec (fun s hs _ => by cases s <;> first | rfl | cases hs)
    (fun m _ hj _ hi => BitmapBlock.get_set m hi hj) b bit h

theorem clearBit_spec (b : BitmapAllocator) (bit : ℕ) (h : bit < 4096 * b.blocks.length) :
    ∃ b', b.clearBit bit = .ok b' ∧ Changes [bit] false b b' :=
  changeBit_spec (fun s hs _ => by cases s <;> first | rfl | cases hs)
    (fun m _ hj _ hi => BitmapBlock.get_clear m hi hj) b bit h

/-- A loop of single-bit changes over in-range bits does not panic and changes exactly those. -/
theorem foldlM_changes {f : BitmapAllocator → α → Except Fault BitmapAllocator} {g : α → ℕ}
    (hf : ∀ b x, g x < 4096 * b.blocks.length → ∃ b', f b x = .ok b' ∧ Changes [g x] v b b') (l : List α)
    (b : BitmapAllocator) (hl : ∀ x ∈ l, g x < 4096 * b.blocks.length) :
    ∃ b', l.foldlM f b = .ok b' ∧ Changes (l.map g) v b b' := by
  induction l generalizing b with
  | nil => exact ⟨b, rfl, Changes.nil v b⟩
  | cons x l ih =>
    obtain ⟨b1, h₁, hc1⟩ := hf b x (hl x (by simp))
    obtain ⟨b2, h2, hc2⟩ := ih b1 (fun y hy => by rw [hc1.length]; exact hl y (by simp [hy]))
    refine ⟨b2, ?_, by simpa using hc1.append hc2⟩
    rw [foldlM_cons, h₁]
    exact h2

/-- The accumulator of `find_first_fit` at bit `pos`: a run of clear bits that ends there. -/
def RunAt (b : BitmapAllocator) (pos : ℕ) : Option ℕ × ℕ → Prop
  | (none, run) => run = 0
  | (some start, run) => start + run = pos ∧ ∀ i < run, b.bit (start + i) = false

theorem RunAt.extend {pos : ℕ} {acc : Option ℕ × ℕ} (h : b.RunAt pos acc) (hfree : ∀ i < n, b.bit (pos + i) = false) :
    b.RunAt (pos + n) (some (acc.1.getD pos), acc.2 + n) := by
  obtain ⟨_ | start, run⟩ := acc
  · obtain rfl : run = 0 := h
    exact ⟨by simp, fun i hi => hfree i (by simpa using hi)⟩
  · obtain ⟨rfl, hrun⟩ := h
    refine ⟨by simp [add_assoc], fun i hi => ?_⟩
    by_cases hlt : i < run
    · exact hrun i hlt
    · have := hfree (i - run) (by simp only at hi; omega)
      rwa [show start + run + (i - run) = start + i by omega] at this

theorem scanBit_run {m : BitmapBlock} (hbits : ∀ i < n, b.bit (base + i) = m.get i) (acc : Option ℕ × ℕ)
    (h : b.RunAt base acc) :
    b.RunAt (base + n) ((List.range n).foldl (scanBit m base) acc) := by
  induction n with
  | zero => exact h
  | succ n ih =>
    have ih := ih fun i hi => hbits i (by omega)
    rw [range_succ, foldl_append, foldl_cons, foldl_nil]
    unfold scanBit
    split_ifs with hbit
    · rfl
    · refine ih.extend fun i hi => ?_
      obtain rfl : i = 0 := by omega
      rw [add_zero, hbits n (by omega)]
      simpa using hbit

theorem scanBlock_run (hk : b.blocks[k]? = some s) (acc : Option ℕ × ℕ) (h : b.RunAt (k * 4096) acc) :
    b.RunAt ((k + 1) * 4096) (scanBlock k acc s) := by
  have hbits : ∀ i < BITS_PER_BLOCK, b.bit (k * BITS_PER_BLOCK + i) = s.bit i := fun i hi =>
    bit_block hk hi
  rw [Nat.succ_mul]
  change b.RunAt (k * BITS_PER_BLOCK) acc at h
  change b.RunAt (k * BITS_PER_BLOCK + BITS_PER_BLOCK) _
  cases s with
  | free =>
    refine h.extend fun i hi => ?_
    rw [hbits i hi]
    rfl
  | full => rfl
  | mixed m =>
    have hget : ∀ i < BITS_PER_BLOCK, b.bit (k * BITS_PER_BLOCK + i) = m.get i := hbits
    rw [scanBlock]
    clear hbits
    -- with the size a variable, unification does not unfold it
    generalize BITS_PER_BLOCK = size at h hget ⊢
    exact scanBit_run hget acc h

theorem of_drop_eq_cons {l rest : List α} {a : α} (h : l.drop k = a :: rest) :
    l[k]? = some a ∧ l.drop (k + 1) = rest := by
  rw [← List.head?_drop, ← drop_drop, h]
  exact ⟨rfl, rfl⟩

theorem scanBlocks_sound (rest : List BlockState) (k : ℕ) (acc : Option ℕ × ℕ) (hrest : b.blocks.drop k = rest)
    (hacc : b.RunAt (k * 4096) acc) (h : scanBlocks count k acc rest = some start) :
    ∀ i < count, b.bit (start + i) = false := by
  induction rest generalizing k acc with
  | nil => cases h
  | cons s rest ih =>
    obtain ⟨hk, hnext⟩ := of_drop_eq_cons hrest
    have hrun := scanBlock_run hk acc hacc
    simp only [scanBlocks] at h
    split_ifs at h with hle
    · rw [show scanBlock k acc s = (some start, (scanBlock k acc s).2) from Prod.ext h rfl] at hrun
      exact fun i hi => hrun.2 i (lt_of_lt_of_le hi hle)
    · exact ih (k + 1) _ hnext hrun h

theorem findFirstFit_sound (h : b.findFirstFit count = some start) :
    0 < count ∧ ∀ i < count, b.bit (start + i) = false := by
  unfold findFirstFit at h
  split_ifs at h with hcount
  exact ⟨Nat.pos_of_ne_zero hcount, scanBlocks_sound b.blocks 0 (none, 0) rfl rfl h⟩

/-- The indices a loop from `base` over `count` bits visits. -/
def span (base count : ℕ) : List ℕ := (List.range count).map (· + base)

theorem mem_span {j : ℕ} : j ∈ span base count ↔ base ≤ j ∧ j < base + count := by
  simp only [span, mem_map, mem_range]
  constructor
  · rintro ⟨x, hx, rfl⟩
    omega
  · intro h
    exact ⟨j - base, by omega, by omega⟩

theorem alloc_of_fit (h : b.findFirstFit count = some start) :
    ∃ b', b.alloc count = .ok (some (wadd start b.dataStart), b') ∧ Changes (span start count) true b b' := by
  obtain ⟨-, hfree⟩ := findFirstFit_sound h
  obtain ⟨b', hb', hc⟩ := foldlM_changes (g := fun x => x + start)
    (fun b x hx => setBit_spec b _ hx) (List.range count) b (fun x hx => by
      have := lt_of_bit_false (hfree x (mem_range.1 hx))
      omega)
  refine ⟨b', ?_, hc⟩
  simp only [alloc, h, hb', bind, Except.bind, pure, Except.pure]

/-- `alloc` never panics; it takes a run of clear bits and sets exactly those, or changes nothing. -/
theorem alloc_spec (b : BitmapAllocator) (count : ℕ) :
    b.alloc count = .ok (none, b) ∨
    ∃ start b', b.alloc count = .ok (some (wadd start b.dataStart), b') ∧ 0 < count ∧
      (∀ i < count, b.bit (start + i) = false) ∧ Changes (span start count) true b b' := by
  cases h : b.findFirstFit count with
  | none => exact Or.inl (by rw [alloc, h])
  | some start =>
    obtain ⟨hpos, hfree⟩ := findFirstFit_sound h
    obtain ⟨b', hb', hc⟩ := alloc_of_fit h
    exact Or.inr ⟨start, b', hb', hpos, hfree, hc⟩

theorem free_wrapped (b : BitmapAllocator) (start count : ℕ)
    (hr : wsub start b.dataStart + count ≤ 4096 * b.blocks.length) :
    ∃ b', b.free start count = .ok b' ∧ Changes (span (wsub start b.dataStart) count) false b b' := by
  unfold free
  exact foldlM_changes (g := fun x => x + wsub start b.dataStart) (fun b x hx => clearBit_spec b _ hx)
    (List.range count) b (fun x hx => by have := mem_range.1 hx; omega)

theorem free_spec (b : BitmapAllocator) (start count : ℕ) (hs : b.dataStart ≤ start)
    (hr : start - b.dataStart + count ≤ 4096 * b.blocks.length) :
    ∃ b', b.free start count = .ok b' ∧ Changes (span (start - b.dataStart) count) false b b' := by
  rw [← wsub_of_le hs] at hr ⊢
  exact free_wrapped b start count hr

/-- The bits `reserve_from` sets, in `usize` arithmetic. -/
def reserved (b : BitmapAllocator) (lba : ℕ) : List ℕ :=
  if lba < b.dataStart then []
  else List.range' (wadd (lba - b.dataStart) 1) (wmul b.blocks.length BITS_PER_BLOCK - wadd (lba - b.dataStart) 1)

theorem reserveFrom_spec (b : BitmapAllocator) (lba : ℕ) :
    ∃ b', b.reserveFrom lba = .ok b' ∧ Changes (b.reserved lba) true b b' := by
  unfold reserveFrom reserved
  split_ifs with hlt
  · exact ⟨b, rfl, Changes.nil true b⟩
  · have := foldlM_changes (g := fun x => x) (fun b x hx => setBit_spec b x hx)
      (range' (wadd (lba - b.dataStart) 1) (wmul b.blocks.length BITS_PER_BLOCK - wadd (lba - b.dataStart) 1)) b
        (fun x hx => by
        have := mem_range'_1.1 hx
        have hmul : wmul b.blocks.length BITS_PER_BLOCK ≤ b.blocks.length * 4096 := Nat.mod_le _ _
        omega)
    rwa [map_id'] at this

theorem mem_reserved {b : BitmapAllocator} {lba j : ℕ} (hfit : b.blocks.length * 4096 < 2 ^ 64)
    (hlba : b.dataStart ≤ lba) (hword : lba - b.dataStart + 1 < 2 ^ 64) :
    j ∈ b.reserved lba ↔ lba - b.dataStart < j ∧ j < 4096 * b.blocks.length := by
  have hmul : wmul b.blocks.length BITS_PER_BLOCK = b.blocks.length * 4096 := Nat.mod_eq_of_lt hfit
  rw [reserved, if_neg (by omega), mem_range'_1, hmul, wadd_of_lt hword]
  omega

theorem blocks_addBlock (b : BitmapAllocator) (m : BitmapBlock) :
    (b.addBlock m).blocks = b.blocks ++ [(BlockState.mixed m).collapse] := by
  have hlt : b.blocks.length < (b.blocks ++ [BlockState.mixed m]).length := by simp
  simp only [addBlock, collapse]
  rw [modify_eq_take_cons_drop hlt]
  simp

theorem bit_addBlock (b : BitmapAllocator) (m : BitmapBlock) (j : ℕ) :
    (b.addBlock m).bit j = if j / 4096 = b.blocks.length then m.get (j % 4096) else b.bit j := by
  unfold bit
  rw [blocks_addBlock, List.getElem?_append]
  by_cases hlt : j / 4096 < b.blocks.length
  · rw [if_pos hlt, if_neg (by omega)]
  · rw [if_neg hlt, List.getElem?_eq_none (by omega : b.blocks.length ≤ j / 4096)]
    split_ifs with h
    · rw [h, Nat.sub_self]
      exact BlockState.bit_collapse _ (Nat.mod_lt _ (by norm_num))
    · rw [List.getElem?_eq_none (by simp; omega)]

theorem canonical_addBlock (hb : b.Canonical) (m : BitmapBlock) :
    (b.addBlock m).Canonical := by
  intro s hs
  rw [blocks_addBlock, mem_append, mem_singleton] at hs
  rcases hs with hs | rfl
  · exact hb s hs
  · exact BlockState.canonical_collapse _

end BitmapAllocator

end MaramOS
