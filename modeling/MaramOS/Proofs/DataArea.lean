import MaramOS.Sanity.Bitmap
import MaramOS.Spec.LemonFS
import Mathlib.Order.CompletePartialOrder

/-! The layout that `SuperBlock::new` chooses for a partition of `n` sectors, and
the sectors its allocator hands out. -/

namespace MaramOS

open BitmapAllocator

theorem superBlock_new {n : ℕ} {sb : SuperBlock} (h : SuperBlock.new n = some sb) :
    0x1000 ≤ n ∧ sb.bitmapStart = 1 ∧ sb.dataStart = wadd 1 (divCeil n 0x1000) ∧
      sb.dataEnd = wsub n 2 := by
  unfold SuperBlock.new at h
  split_ifs at h with hn
  cases h
  exact ⟨by omega, rfl, rfl, rfl⟩

/-- Each computation of `SuperBlock::new` and of the allocator set-up in `init`
has the value it has over the integers. -/
structure ExactLayout (n : ℕ) (sb : SuperBlock) (blocks : List BitmapBlock) : Prop where
  dataStart : sb.dataStart = 1 + divCeil n 0x1000
  dataEnd : (sb.dataEnd : ℤ) = n - 2
  reserveLba : (wsub sb.dataEnd 1 : ℤ) = sb.dataEnd - 1
  startBit : wsub sb.dataEnd 1 - sb.dataStart + 1 < 2 ^ 64
  bitCount : wmul blocks.length BITS_PER_BLOCK = blocks.length * BITS_PER_BLOCK

/-- The superblock, the bitmap, the data area, the root block and the backup. -/
def regions (n : ℕ) (sb : SuperBlock) : List (Set ℕ) :=
  [{0}, Set.Ico sb.bitmapStart sb.dataStart, Set.Ico sb.dataStart sb.dataEnd, {sb.dataEnd}, {n - 1}]

/-- The states reached by `alloc` and by those calls of `free` that `P` admits. -/
inductive AllocRun (P : ℕ → ℕ → Prop) (b₀ : BitmapAllocator) : BitmapAllocator → Prop
  | start : AllocRun P b₀ b₀
  | alloc {b b' : BitmapAllocator} {count : ℕ} {answer : Option ℕ} :
      AllocRun P b₀ b → b.alloc count = .ok (answer, b') → AllocRun P b₀ b'
  | free {b b' : BitmapAllocator} {start count : ℕ} :
      AllocRun P b₀ b → P start count → b.free start count = .ok b' → AllocRun P b₀ b'

def InData (sb : SuperBlock) (start count : ℕ) : Prop := sb.dataStart ≤ start ∧ start + count ≤ sb.dataEnd

/-- Bit `j` of the bitmap sectors as they are on disk. -/
def storedBit (blocks : List BitmapBlock) (j : ℕ) : Bool :=
  match blocks[j / 4096]? with
  | some m => m.get (j % 4096)
  | none => true

theorem addBlocks_spec (dataStart : ℕ) (blocks : List BitmapBlock) :
    let b := blocks.foldl addBlock (BitmapAllocator.new dataStart)
    b.dataStart = dataStart ∧ b.blocks.length = blocks.length ∧ b.Canonical ∧
      ∀ j, b.bit j = storedBit blocks j := by
  induction blocks using List.reverseRecOn with
  | nil => exact ⟨rfl, rfl, fun s hs => absurd hs (by simp [BitmapAllocator.new]), fun _ => rfl⟩
  | append_singleton blocks m ih =>
    obtain ⟨hstart, hlen, hcanon, hbit⟩ := ih
    simp only [List.foldl_append, List.foldl_cons, List.foldl_nil]
    refine ⟨hstart, by simp [blocks_addBlock, hlen], canonical_addBlock hcanon m, fun j => ?_⟩
    rw [bit_addBlock, hbit, hlen]
    unfold storedBit
    split_ifs with hj
    · rw [hj, List.getElem?_append_right le_rfl, Nat.sub_self]
      rfl
    · by_cases hlt : j / 4096 < blocks.length
      · rw [List.getElem?_append_left hlt]
      · rw [List.getElem?_eq_none (by omega), List.getElem?_eq_none (by simp; omega)]

/-- Whatever the bitmap sectors hold, mounting builds an allocator with those
bits, and with the bits from `dataEnd` on set unless their number overflows. -/
theorem loadBitmap_spec (sb : SuperBlock) (blocks : List BitmapBlock) :
    ∃ b, loadBitmap sb blocks = .ok b ∧ b.dataStart = sb.dataStart ∧
      b.blocks.length = blocks.length ∧ b.Canonical ∧
      (blocks.length * 4096 < 2 ^ 64 → sb.dataStart < sb.dataEnd → sb.dataEnd < 2 ^ 64 →
        ∀ j, b.bit j = (decide (sb.dataEnd - sb.dataStart ≤ j) || storedBit blocks j)) := by
  obtain ⟨hstart, hlen, hcanon, hbit⟩ := addBlocks_spec sb.dataStart blocks
  generalize hloaded : blocks.foldl addBlock (BitmapAllocator.new sb.dataStart) = b₀ at *
  obtain ⟨b, hb, hc⟩ := reserveFrom_spec b₀ (wsub sb.dataEnd 1)
  refine ⟨b, by rw [loadBitmap, hloaded, hb], hc.dataStart.trans hstart, hc.length.trans hlen,
    hc.canonical hcanon, fun hfit hlt hword j => ?_⟩
  have hsub : wsub sb.dataEnd 1 = sb.dataEnd - 1 := if_pos (by omega)
  have hmem := @mem_reserved b₀ (wsub sb.dataEnd 1) j (by rwa [hlen]) (by omega) (by omega)
  rw [hc.bit, ← hbit]
  split_ifs with hj
  · rw [hmem] at hj
    rw [decide_eq_true (by omega), Bool.true_or]
  · rw [hmem] at hj
    by_cases hend : sb.dataEnd - sb.dataStart ≤ j
    · cases hfree : b₀.bit j with
      | true => simp
      | false =>
        have := lt_of_bit_false hfree
        omega
    · simp [hend]

/-- What the allocator keeps: its shape, and every bit past the data area set. -/
structure DataInv (sb : SuperBlock) (b : BitmapAllocator) : Prop where
  dataStart : b.dataStart = sb.dataStart
  covers : sb.dataEnd - sb.dataStart ≤ 4096 * b.blocks.length
  reserved : ∀ j, sb.dataEnd - sb.dataStart ≤ j → b.bit j = true

theorem DataInv.change {sb : SuperBlock} {b b' : BitmapAllocator} {l : List ℕ} {v : Bool} (h : DataInv sb b)
    (hc : Changes l v b b') (hl : v = true ∨ ∀ j ∈ l, j < sb.dataEnd - sb.dataStart) : DataInv sb b' := by
  refine ⟨hc.dataStart.trans h.dataStart, by rw [hc.length]; exact h.covers, fun j hj => ?_⟩
  rw [hc.bit]
  split_ifs with hmem
  · exact hl.resolve_right fun hl => Nat.not_lt.2 hj (hl j hmem)
  · exact h.reserved j hj

/-- No run of allocations and frees of data sectors clears a bit past the data area. The number of blocks and
their canonical form stay. -/
theorem dataInv_of_run {sb : SuperBlock} {b₀ b : BitmapAllocator} (h₀ : DataInv sb b₀) (h : AllocRun (InData sb) b₀ b) :
    DataInv sb b ∧ b.blocks.length = b₀.blocks.length ∧ (b₀.Canonical → b.Canonical) := by
  induction h with
  | start => exact ⟨h₀, rfl, id⟩
  | @alloc b b' count answer _ hb ih =>
    obtain ⟨hinv, hlength, hcan⟩ := ih
    rcases alloc_spec b count with hnone | ⟨start, b1, hb1, -, -, hc⟩
    · rw [hnone] at hb
      cases hb
      exact ⟨hinv, hlength, hcan⟩
    · rw [hb1] at hb
      cases hb
      exact ⟨hinv.change hc (.inl rfl), hc.length.trans hlength, fun h => hc.canonical (hcan h)⟩
  | @free b b' start count _ hP hb ih =>
    obtain ⟨hs, he⟩ := hP
    obtain ⟨hinv, hlength, hcan⟩ := ih
    have hcovers := hinv.covers
    obtain ⟨b1, hb1, hc⟩ := free_spec b start count (by rwa [hinv.dataStart]) (by rw [hinv.dataStart]; omega)
    rw [hb1] at hb
    cases hb
    refine ⟨hinv.change hc (.inr fun j hj => ?_), hc.length.trans hlength, fun h => hc.canonical (hcan h)⟩
    rw [mem_span, hinv.dataStart] at hj
    omega

theorem DataInv.alloc_mem {sb : SuperBlock} {b b' : BitmapAllocator} {lba : ℕ} (h : DataInv sb b)
    (hword : sb.dataEnd < 2 ^ 64) (ha : b.alloc 1 = .ok (some lba, b')) : sb.dataStart ≤ lba ∧ lba < sb.dataEnd := by
  rcases alloc_spec b 1 with hnone | ⟨start, b1, hb1, -, hfree, -⟩
  · rw [hnone] at ha
    cases ha
  · rw [hb1] at ha
    cases ha
    have hin : start < sb.dataEnd - sb.dataStart := by
      by_contra hout
      have hused := h.reserved start (by omega)
      rw [show start = start + 0 by omega, hfree 0 (by omega)] at hused
      cases hused
    rw [h.dataStart, wadd_of_lt (by omega)]
    omega

theorem divCeil_le {n : ℕ} (h : n ≤ 2 ^ 64 - 4096) : divCeil n 0x1000 * 4096 < 2 ^ 64 := by
  unfold divCeil
  omega

theorem regions_apart {n : ℕ} {sb : SuperBlock} (h0 : 0 < sb.bitmapStart) (h1 : sb.bitmapStart ≤ sb.dataStart)
    (h2 : sb.dataStart ≤ sb.dataEnd) (h3 : sb.dataEnd + 1 < n) :
    (regions n sb).Pairwise Disjoint ∧ ∀ r ∈ regions n sb, r ⊆ Set.Iio n := by
  constructor
  · simp only [regions, List.pairwise_cons, List.mem_cons, List.not_mem_nil, or_false, Set.disjoint_left,
      forall_eq_or_imp, forall_eq, Set.mem_singleton_iff, Set.mem_Ico, List.Pairwise.nil, false_imp_iff,
      implies_true, and_true]
    refine ⟨⟨?_, ?_, ?_, ?_⟩, ⟨?_, ?_, ?_⟩, ⟨?_, ?_⟩, ?_⟩ <;> omega
  · simp only [regions, List.mem_cons, List.not_mem_nil, or_false, forall_eq_or_imp, forall_eq,
      Set.subset_def, Set.mem_singleton_iff, Set.mem_Ico, Set.mem_Iio]
    refine ⟨?_, ?_, ?_, ?_, ?_⟩ <;> omega

/-- For every partition of at least `0x1000` sectors whose bitmap has fewer than
`2^64` bits, and whatever the bitmap sectors hold: nothing wraps, the regions are
apart and inside the partition, and while only data sectors are freed, `alloc(1)`
answers with data sectors. -/
theorem alloc_stays_in_data_area (n : ℕ) (sb : SuperBlock) (blocks : List BitmapBlock)
    (hn : n ≤ 2 ^ 64 - 4096) (hsb : SuperBlock.new n = some sb)
    (hblocks : blocks.length = sb.dataStart - sb.bitmapStart) :
    ExactLayout n sb blocks ∧ (regions n sb).Pairwise Disjoint ∧ (∀ r ∈ regions n sb, r ⊆ Set.Iio n) ∧
    ∃ b₀, loadBitmap sb blocks = .ok b₀ ∧
      ∀ b, AllocRun (InData sb) b₀ b → ∀ lba b', b.alloc 1 = .ok (some lba, b') →
        sb.dataStart ≤ lba ∧ lba < sb.dataEnd := by
  obtain ⟨hmin, hbs, hds, hde⟩ := superBlock_new hsb
  have hceil := divCeil_le hn
  have hbounds : n ≤ divCeil n 0x1000 * 4096 ∧ divCeil n 0x1000 ≤ n - 4 := by
    unfold divCeil
    omega
  have hds' : sb.dataStart = 1 + divCeil n 0x1000 := by
    rw [hds, wadd_of_lt (by omega)]
  have hde' : sb.dataEnd = n - 2 := by rw [hde, wsub_of_le (by omega)]
  have hlen : blocks.length = divCeil n 0x1000 := by omega
  have hsub : wsub sb.dataEnd 1 = sb.dataEnd - 1 := by rw [wsub_of_le (by omega)]
  have hregions := @regions_apart n sb (by omega) (by omega) (by omega) (by omega)
  refine ⟨⟨hds', by omega, by omega, by omega, ?_⟩, hregions.1, hregions.2, ?_⟩
  · exact Nat.mod_eq_of_lt (by rw [hlen]; exact hceil)
  · obtain ⟨b₀, hb₀, hstart, hlength, -, hbit⟩ := loadBitmap_spec sb blocks
    refine ⟨b₀, hb₀, fun b hrun lba b' ha => ?_⟩
    have h₀ : DataInv sb b₀ := by
      refine ⟨hstart, by rw [hlength]; omega, fun j hj => ?_⟩
      rw [hbit (by rw [hlen]; exact hceil) (by omega) (by omega), decide_eq_true hj, Bool.true_or]
    exact (dataInv_of_run h₀ hrun).1.alloc_mem (by omega) ha

/-- The layout of a partition of 4101 sectors: two bitmap sectors, the first of
which covers the data area exactly. -/
def sb4101 : SuperBlock where
  magic := SuperBlock.LEMONFS_MAGIC
  version := 1
  reserved := fun _ => 0xBA
  flags := 0
  checksum := 0
  bitmapStart := 1
  dataStart := 3
  dataEnd := 4099
  padding := fun _ => 0xBA

theorem alloc_stays_in_data_area_4101 :
    ∃ b₀, loadBitmap sb4101 [fun _ => 0, fun _ => 0] = .ok b₀ ∧
      ∀ b, AllocRun (InData sb4101) b₀ b → ∀ lba b', b.alloc 1 = .ok (some lba, b') → 3 ≤ lba ∧ lba < 4099 :=
  (alloc_stays_in_data_area 4101 sb4101 [fun _ => 0, fun _ => 0] (by norm_num) rfl rfl).2.2.2

theorem free_reserved_4101 :
    ∃ b₀ b, loadBitmap sb4101 [fun _ => 0xFF, fun _ => 0] = .ok b₀ ∧
      b₀.free 4099 4096 = .ok b ∧ b = ⟨[.full, .free], 3⟩ := by
  obtain ⟨b₀, hb₀, hstart, hlen, hcanon, hbit⟩ := loadBitmap_spec sb4101 [fun _ => 0xFF, fun _ => 0]
  obtain ⟨b, hb, hc⟩ := free_spec b₀ 4099 4096 (by rw [hstart]; decide) (by rw [hstart, hlen]; decide)
  refine ⟨b₀, b, hb₀, hb, canonical_ext (hc.canonical hcanon) ?_ (hc.dataStart.trans hstart)
    (hc.length.trans hlen) fun j => ?_⟩
  · intro s hs
    simp only [List.mem_cons, List.not_mem_nil, or_false] at hs
    rcases hs with rfl | rfl <;> trivial
  · rw [hc.bit, hbit (by decide) (by decide) (by decide)]
    simp only [mem_span, hstart]
    obtain hj | hj | hj : j / 4096 = 0 ∨ j / 4096 = 1 ∨ 2 ≤ j / 4096 := by omega
    · have hget := BitmapBlock.get_ones (Nat.mod_lt j (show 4096 > 0 by norm_num))
      rw [if_neg (by simp only [sb4101]; omega)]
      simp [storedBit, BitmapAllocator.bit, hj, hget, BlockState.bit]
    · rw [if_pos (by simp only [sb4101]; omega)]
      simp [BitmapAllocator.bit, hj, BlockState.bit]
    · rw [if_neg (by simp only [sb4101]; omega)]
      simp [BitmapAllocator.bit, storedBit, List.getElem?_eq_none, hj]

/-- Past `2^64 - 4096` sectors the number of bits overflows and nothing is
reserved, and a free of the reserved sectors gets the root block handed out. -/
theorem alloc_leaves_data_area :
    (∃ sb, SuperBlock.new (2 ^ 64 - 1) = some sb ∧ ∀ blocks : List BitmapBlock,
      blocks.length = sb.dataStart - sb.bitmapStart → ¬ ExactLayout (2 ^ 64 - 1) sb blocks) ∧
    ∃ b₀ b b', SuperBlock.new 4101 = some sb4101 ∧
      loadBitmap sb4101 [fun _ => 0xFF, fun _ => 0] = .ok b₀ ∧
      AllocRun (fun _ _ => True) b₀ b ∧ b.alloc 1 = .ok (some sb4101.dataEnd, b') := by
  constructor
  · refine ⟨_, rfl, fun blocks hlen hexact => ?_⟩
    have hbits := hexact.bitCount
    rw [hlen] at hbits
    revert hbits
    decide
  · obtain ⟨b₀, b, hb₀, hb, rfl⟩ := free_reserved_4101
    have hfit : findFirstFit ⟨[.full, .free], 3⟩ 1 = some 4096 := rfl
    obtain ⟨b', hb', -⟩ := alloc_of_fit hfit
    exact ⟨b₀, _, b', rfl, hb₀, .free .start trivial hb, hb'⟩

end MaramOS
