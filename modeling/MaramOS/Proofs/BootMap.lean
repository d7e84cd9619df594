import MaramOS.Proofs.HeapRuns
import MaramOS.Proofs.Ranges
import MaramOS.Spec.Physical

/-! The blocks that the physical memory allocator starts with. For each entry they
are listed by a greedy cut, which is compared with the loop and then described. -/

namespace MaramOS

namespace MemmapEntry

def Usable (e : MemmapEntry) : Prop := e.type = MEMMAP_USABLE

instance (e : MemmapEntry) : Decidable e.Usable := inferInstanceAs (Decidable (e.type = MEMMAP_USABLE))

def bytes (e : MemmapEntry) : Set ℕ := Set.Ico e.base (e.base + e.length)

end MemmapEntry

namespace Physical

open BuddyAllocator RangeAllocator DyadicBlock

variable {stop addr rem order fuel x : ℕ} {b b' : ℕ × ℕ} {e : MemmapEntry} {mmap : List MemmapEntry}

section Greedy

theorem blockSize_pos (k : ℕ) : 0 < blockSize 12 k := Nat.two_pow_pos _

theorem page_dvd_block (k : ℕ) : PAGE_SIZE ∣ blockSize 12 k := pow_dvd_pow 2 (Nat.le_add_left 12 k)

theorem pickOrder_spec (addr rem order : ℕ) :
    pickOrder addr rem order ≤ order ∧
    (pickOrder addr rem order = 0 ∨ blockSize 12 (pickOrder addr rem order) ≤ rem ∧
      blockSize 12 (pickOrder addr rem order) ∣ addr) ∧
    ∀ j, pickOrder addr rem order < j → j ≤ order → ¬(blockSize 12 j ≤ rem ∧ blockSize 12 j ∣ addr) := by
  induction order with
  | zero => exact ⟨le_rfl, .inl rfl, fun j hlt hle => absurd hle (Nat.not_le.2 hlt)⟩
  | succ order ih =>
    rw [pickOrder]
    split_ifs with hfits
    · exact ⟨le_rfl, .inr hfits, fun j hlt hle => absurd hle (Nat.not_le.2 hlt)⟩
    · refine ⟨ih.1.trans (Nat.le_succ _), ih.2.1, fun j hlt hle => ?_⟩
      rcases Nat.le_succ_iff.1 hle with hle | rfl
      · exact ih.2.2 j hlt hle
      · exact hfits

/-- The blocks of an entry that ends at `stop`, from `addr` on. -/
def greedy (stop : ℕ) : ℕ → ℕ → List (ℕ × ℕ)
  | 0, _ => []
  | fuel + 1, addr =>
    if addr + PAGE_SIZE ≤ stop then
      (addr, pickOrder addr (stop - addr) (maxOrder 19)) ::
        greedy stop fuel (addr + blockSize 12 (pickOrder addr (stop - addr) (maxOrder 19)))
    else []

structure Picked (stop : ℕ) (b : ℕ × ℕ) : Prop where
  order : b.2 ≤ maxOrder 19
  aligned : blockSize 12 b.2 ∣ b.1
  fits : b.1 + blockSize 12 b.2 ≤ stop
  largest : ∀ j, b.2 < j → j ≤ maxOrder 19 → blockSize 12 j ∣ b.1 → stop < b.1 + blockSize 12 j

theorem picked (hpage : PAGE_SIZE ∣ addr) (hroom : addr + PAGE_SIZE ≤ stop) :
    Picked stop (addr, pickOrder addr (stop - addr) (maxOrder 19)) := by
  obtain ⟨hle, hfits, hlargest⟩ := pickOrder_spec addr (stop - addr) (maxOrder 19)
  have hblock : blockSize 12 (pickOrder addr (stop - addr) (maxOrder 19)) ≤ stop - addr ∧
      blockSize 12 (pickOrder addr (stop - addr) (maxOrder 19)) ∣ addr := by
    rcases hfits with hzero | hfits
    · rw [hzero]
      exact ⟨by change PAGE_SIZE ≤ _; omega, hpage⟩
    · exact hfits
  refine ⟨hle, hblock.2, ?_, fun j hlt hj hdvd => ?_⟩
  · have := hblock.1
    simp only
    omega
  · have hnot : ¬blockSize 12 j ≤ stop - addr := fun hle => hlargest j hlt hj ⟨hle, hdvd⟩
    simp only
    omega

theorem greedy_picked (hpage : PAGE_SIZE ∣ addr) (hb : b ∈ greedy stop fuel addr) : addr ≤ b.1 ∧ Picked stop b := by
  induction fuel generalizing addr with
  | zero => exact absurd hb List.not_mem_nil
  | succ fuel ih =>
    rw [greedy] at hb
    split_ifs at hb with hroom
    · rcases List.mem_cons.1 hb with rfl | hb
      · exact ⟨le_rfl, picked hpage hroom⟩
      · obtain ⟨hle, hp⟩ := ih (Nat.dvd_add hpage (page_dvd_block _)) hb
        exact ⟨(Nat.le_add_right _ _).trans hle, hp⟩
    · exact absurd hb List.not_mem_nil

theorem greedy_ordered (hpage : PAGE_SIZE ∣ addr) :
    (greedy stop fuel addr).Pairwise fun b b' => b.1 + blockSize 12 b.2 ≤ b'.1 := by
  induction fuel generalizing addr with
  | zero => exact .nil
  | succ fuel ih =>
    rw [greedy]
    split_ifs with hroom
    · have hnext := Nat.dvd_add hpage (page_dvd_block (pickOrder addr (stop - addr) (maxOrder 19)))
      exact List.pairwise_cons.2 ⟨fun b' hb' => (greedy_picked hnext hb').1, ih hnext⟩
    · exact .nil

def pageOf (x : ℕ) : Set ℕ := Set.Ico (x / PAGE_SIZE * PAGE_SIZE) (x / PAGE_SIZE * PAGE_SIZE + PAGE_SIZE)

theorem greedy_cover (hpage : PAGE_SIZE ∣ addr) (hfuel : stop < addr + fuel) :
    (∃ b ∈ greedy stop fuel addr, b.1 ≤ x ∧ x < b.1 + blockSize 12 b.2) ↔
      addr ≤ x ∧ x / PAGE_SIZE * PAGE_SIZE + PAGE_SIZE ≤ stop := by
  induction fuel generalizing addr with
  | zero =>
    refine iff_of_false (fun ⟨b, hb, _⟩ => absurd hb List.not_mem_nil) fun ⟨hle, hroom⟩ => ?_
    simp only [PAGE_SIZE] at hroom
    omega
  | succ fuel ih =>
    rw [greedy]
    split_ifs with hroom
    · have hp := picked hpage hroom
      have hpos := blockSize_pos (pickOrder addr (stop - addr) (maxOrder 19))
      have hnext := Nat.dvd_add hpage (page_dvd_block (pickOrder addr (stop - addr) (maxOrder 19)))
      rw [List.exists_mem_cons_iff, ih hnext (by omega)]
      have hfits := hp.fits
      obtain ⟨q, hq⟩ := hnext
      simp only [PAGE_SIZE] at hq hfits ⊢
      omega
    · refine iff_of_false (fun ⟨b, hb, _⟩ => absurd hb List.not_mem_nil) fun ⟨hle, hin⟩ => ?_
      obtain ⟨q, rfl⟩ := hpage
      simp only [PAGE_SIZE] at hroom hin hle
      omega

theorem Picked.not_buddies (h : Picked stop b) (h' : Picked stop b') (horder : b'.2 = b.2) (hlt : b.2 < maxOrder 19) :
    b'.1 ≠ buddyOf 12 b.1 b.2 := by
  intro hbuddy
  have hjoin : blockSize 12 (b.2 + 1) = blockSize 12 b.2 + blockSize 12 b.2 := by
    simp only [blockSize]
    ring
  have hup : blockSize 12 (b.2 + 1) = 2 ^ (b.2 + 12 + 1) := by
    rw [blockSize, Nat.add_right_comm]
  have hb : b'.1 = buddy (b.2 + 12) b.1 := hbuddy
  obtain ⟨hdvd, ⟨hlow, hhigh⟩ | ⟨hlow, hhigh⟩⟩ := halves h.aligned
  · rw [← hlow, ← hup] at hdvd
    have hlast := h.largest (b.2 + 1) (Nat.lt_succ_self _) hlt hdvd
    have hfits := h'.fits
    have hsize : blockSize 12 b.2 = 2 ^ (b.2 + 12) := rfl
    rw [horder] at hfits
    omega
  · rw [← hlow, ← hup, ← hb] at hdvd
    have hlast := h'.largest (b.2 + 1) (by omega) hlt hdvd
    have hfits := h.fits
    have hsize : blockSize 12 b.2 = 2 ^ (b.2 + 12) := rfl
    omega

end Greedy

section Init

def entryBlocks (e : MemmapEntry) : List (ℕ × ℕ) :=
  if e.Usable then greedy (e.base + e.length) (e.base + e.length + 1) (roundUp e.base PAGE_SIZE) else []

/-- What the memory map promises: usable memory ends below `2 ^ 52` and does not include the first page. -/
structure Sane (e : MemmapEntry) : Prop where
  stop : e.base + e.length ≤ 2 ^ 52
  nonzero : ¬pageOf 0 ⊆ e.bytes

theorem pushEntry_eq {mem : Memory} {blocks : List (ℕ × ℕ)} (hpage : PAGE_SIZE ∣ addr) (hstop : stop ≤ 2 ^ 52)
    (hpos : 0 < fuel)
    (hfuel : stop < addr + fuel) (haddr : addr < 2 ^ 53) :
    pushEntry stop fuel addr (started 12 19 64 true mem blocks) =
      .ok (started 12 19 64 true mem ((greedy stop fuel addr).reverse ++ blocks)) := by
  induction fuel generalizing addr blocks with
  | zero => exact absurd hpos (lt_irrefl 0)
  | succ fuel ih =>
    rw [pushEntry, greedy, wadd_of_lt (by simp only [PAGE_SIZE]; omega)]
    split_ifs with hroom
    · have hp := picked hpage hroom
      have hfits := hp.fits
      have hblock := blockSize_pos (pickOrder addr (stop - addr) (maxOrder 19))
      have hnext := Nat.dvd_add hpage (page_dvd_block (pickOrder addr (stop - addr) (maxOrder 19)))
      simp only at hfits
      rw [wsub_of_le (by omega)]
      simp only
      rw [wadd_of_lt (by omega), List.reverse_cons, List.append_assoc]
      exact @ih _ ((addr, pickOrder addr (stop - addr) (maxOrder 19)) :: blocks) hnext (by omega) (by omega) (by omega)
    · rfl

theorem roundUp_page_lt (n : ℕ) : roundUp n PAGE_SIZE < n + PAGE_SIZE := by
  rw [roundUp]
  split_ifs with h <;> simp only [PAGE_SIZE] at h ⊢ <;> omega

theorem initEntry_eq (hsane : e.Usable → Sane e) (mem : Memory) (blocks : List (ℕ × ℕ)) :
    initEntry (started 12 19 64 true mem blocks) e =
      .ok (started 12 19 64 true mem ((entryBlocks e).reverse ++ blocks)) := by
  rw [initEntry, entryBlocks]
  by_cases huse : e.Usable
  · have hstop := (hsane huse).stop
    have hround := roundUp_page_lt e.base
    have hle := le_roundUp e.base PAGE_SIZE
    have hpage : PAGE_SIZE = 4096 := rfl
    have hsum : wadd e.length e.base = e.base + e.length := by
      rw [wadd_of_lt (by omega), Nat.add_comm]
    rw [if_neg (fun h => h huse), if_pos huse, hsum, nextMultipleOf_eq (by omega)]
    exact pushEntry_eq (dvd_roundUp (by decide)) hstop (Nat.succ_pos _) (by omega) (by omega)
  · have hother : e.type ≠ MEMMAP_USABLE := huse
    rw [if_pos hother, if_neg huse]
    rfl

theorem init_eq (hsane : ∀ e ∈ mmap, e.Usable → Sane e) (mem : Memory) :
    init mmap mem = .ok (started 12 19 64 true mem (mmap.flatMap entryBlocks).reverse) := by
  have hfold : ∀ blocks, mmap.foldlM initEntry (started 12 19 64 true mem blocks) =
      .ok (started 12 19 64 true mem ((mmap.flatMap entryBlocks).reverse ++ blocks)) := by
    induction mmap with
    | nil => exact fun blocks => rfl
    | cons e mmap ih =>
      intro blocks
      rw [List.foldlM_cons, initEntry_eq (hsane e List.mem_cons_self), List.flatMap_cons, List.reverse_append,
        List.append_assoc]
      exact ih (fun e' he' => hsane e' (List.mem_cons_of_mem _ he')) _
  have hall := hfold []
  rwa [List.append_nil] at hall

theorem mem_entryBlocks (hb : b ∈ entryBlocks e) :
    e.Usable ∧ roundUp e.base PAGE_SIZE ≤ b.1 ∧ Picked (e.base + e.length) b := by
  rw [entryBlocks] at hb
  split_ifs at hb with huse
  · exact ⟨huse, greedy_picked (dvd_roundUp (by decide)) hb⟩
  · exact absurd hb List.not_mem_nil

def blockBytes (b : ℕ × ℕ) : Set ℕ := Set.Ico b.1 (b.1 + blockSize 12 b.2)

theorem blockBytes_subset (hb : b ∈ entryBlocks e) : blockBytes b ⊆ e.bytes := by
  obtain ⟨-, hle, hp⟩ := mem_entryBlocks hb
  exact Set.Ico_subset_Ico ((le_roundUp _ _).trans hle) hp.fits

theorem entryBlocks_cover (huse : e.Usable) : (∃ b ∈ entryBlocks e, x ∈ blockBytes b) ↔ pageOf x ⊆ e.bytes := by
  have hpage : pageOf x ⊆ e.bytes ↔ e.base ≤ x / PAGE_SIZE * PAGE_SIZE ∧
    x / PAGE_SIZE * PAGE_SIZE + PAGE_SIZE ≤ e.base + e.length :=
    Set.Ico_subset_Ico_iff (Nat.lt_add_of_pos_right (by decide))
  have hcover := @greedy_cover (e.base + e.length) (roundUp e.base PAGE_SIZE) (e.base + e.length + 1) x
    (dvd_roundUp (by decide)) (by omega)
  rw [entryBlocks, if_pos huse, hpage]
  refine Iff.trans hcover (and_congr_left fun _ => ?_)
  rw [roundUp]
  split_ifs with h <;> simp only [PAGE_SIZE] at h ⊢ <;> omega

theorem disjoint_iff_apart :
    Disjoint (blockBytes b) (blockBytes b') ↔ b.1 + blockSize 12 b.2 ≤ b'.1 ∨ b'.1 + blockSize 12 b'.2 ≤ b.1 := by
  have hpos := blockSize_pos b.2
  have hpos' := blockSize_pos b'.2
  rw [blockBytes, blockBytes, Set.Ico_disjoint_Ico]
  omega

theorem mem_mapBlocks : b ∈ (mmap.flatMap entryBlocks).reverse ↔ ∃ e ∈ mmap, b ∈ entryBlocks e :=
  List.mem_reverse.trans List.mem_flatMap

theorem entryBlocks_blocks (hsane : ∀ e ∈ mmap, e.Usable → Sane e)
    (hdisj : mmap.Pairwise fun e e' => e.Usable → e'.Usable → Disjoint e.bytes e'.bytes) :
    Blocks 12 19 (mmap.flatMap entryBlocks).reverse := by
  refine ⟨fun b hb => ?_, fun b hb => ?_, fun b hb hzero => ?_, ?_⟩
  · obtain ⟨e, -, hb⟩ := mem_mapBlocks.1 hb
    exact (mem_entryBlocks hb).2.2.order
  · obtain ⟨e, -, hb⟩ := mem_mapBlocks.1 hb
    exact (mem_entryBlocks hb).2.2.aligned
  · obtain ⟨e, he, hb⟩ := mem_mapBlocks.1 hb
    have huse := (mem_entryBlocks hb).1
    have hin : (0 : ℕ) ∈ blockBytes b := by
      have hpos := blockSize_pos b.2
      exact ⟨hzero.le, by omega⟩
    exact (hsane e he huse).nonzero ((entryBlocks_cover huse).1 ⟨b, hb, hin⟩)
  · rw [List.pairwise_reverse]
    refine List.pairwise_flatMap.2 ⟨fun e _ => ?_, hdisj.imp fun {e e'} hee' b hb b' hb' => ?_⟩
    · rw [entryBlocks]
      split_ifs
      · exact (greedy_ordered (dvd_roundUp (by decide))).imp fun hle => .inr hle
      · exact .nil
    · have happart := hee' (mem_entryBlocks hb).1 (mem_entryBlocks hb').1
      exact disjoint_iff_apart.1 (happart.mono (blockBytes_subset hb) (blockBytes_subset hb')).symm

/-- A block inside an entry is one of its own, since the entries are disjoint. -/
theorem mem_entryBlocks_of_subset (hdisj : mmap.Pairwise fun e e' => e.Usable → e'.Usable → Disjoint e.bytes e'.bytes)
    (he : e ∈ mmap) (huse : e.Usable) (hb : b ∈ (mmap.flatMap entryBlocks).reverse) (hin : blockBytes b ⊆ e.bytes) :
    b ∈ entryBlocks e := by
  obtain ⟨e', he', hb⟩ := mem_mapBlocks.1 hb
  by_cases hee' : e = e'
  · rwa [hee']
  · have hsymm : Std.Symm fun e e' : MemmapEntry => e.Usable → e'.Usable → Disjoint e.bytes e'.bytes :=
      ⟨fun _ _ h huse huse' => (h huse' huse).symm⟩
    have hfirst : b.1 ∈ blockBytes b := ⟨le_rfl, Nat.lt_add_of_pos_right (blockSize_pos _)⟩
    have happart := hdisj.forall he he' hee' huse (mem_entryBlocks hb).1
    exact absurd (blockBytes_subset hb hfirst) (Set.disjoint_left.1 happart (hin hfirst))

/-- `init` fills the free lists with aligned, disjoint blocks that make up the whole pages of the usable entries,
and cuts none of these entries finer than it has to. -/
theorem init_tiles (hsane : ∀ e ∈ mmap, e.Usable → Sane e)
    (hdisj : mmap.Pairwise fun e e' => e.Usable → e'.Usable → Disjoint e.bytes e'.bytes) (mem : Memory) :
    ∃ alloc blocks, init mmap mem = .ok alloc ∧ alloc.Shows (pools blocks) ∧ Blocks 12 19 blocks ∧
      (∀ x, (∃ b ∈ blocks, x ∈ blockBytes b) ↔ ∃ e ∈ mmap, e.Usable ∧ pageOf x ⊆ e.bytes) ∧
      ∀ e ∈ mmap, e.Usable → ∀ b ∈ blocks, ∀ b' ∈ blocks, blockBytes b ⊆ e.bytes → blockBytes b' ⊆ e.bytes →
        b'.2 = b.2 → b.2 < maxOrder 19 → b'.1 ≠ buddyOf 12 b.1 b.2 := by
  have hblocks := entryBlocks_blocks hsane hdisj
  have hend : ∀ b ∈ (mmap.flatMap entryBlocks).reverse, b.1 + blockSize 12 b.2 < 2 ^ 64 := by
    intro b hb
    obtain ⟨e, he, hb⟩ := mem_mapBlocks.1 hb
    obtain ⟨huse, -, hp⟩ := mem_entryBlocks hb
    have := hp.fits
    have := (hsane e he huse).stop
    omega
  have hsettled := @started_settled 12 19 64 true _ hblocks hend mem
  refine ⟨_, _, init_eq hsane mem, hsettled.shows, hblocks, fun x => ?_, fun e he huse b hb b' hb' hin hin' horder hlt => ?_⟩
  · constructor
    · rintro ⟨b, hb, hx⟩
      obtain ⟨e, he, hb⟩ := mem_mapBlocks.1 hb
      have huse := (mem_entryBlocks hb).1
      exact ⟨e, he, huse, (entryBlocks_cover huse).1 ⟨b, hb, hx⟩⟩
    · rintro ⟨e, he, huse, hpage⟩
      obtain ⟨b, hb, hx⟩ := (entryBlocks_cover huse).2 hpage
      exact ⟨b, mem_mapBlocks.2 ⟨e, he, hb⟩, hx⟩
  · have hown := mem_entryBlocks_of_subset hdisj he huse hb hin
    have hown' := mem_entryBlocks_of_subset hdisj he huse hb' hin'
    exact (mem_entryBlocks hown).2.2.not_buddies (mem_entryBlocks hown').2.2 horder hlt

/-- A ragged entry, one that is not usable, and a small one behind it. -/
def bootMap : List MemmapEntry := [⟨0x1400, 0x9D000, 0⟩, ⟨0xA0000, 0x60000, 1⟩, ⟨0x100000, 0x3000, 0⟩]

theorem init_tiles_bootMap : ∃ alloc blocks, init bootMap (fun _ => 0) = .ok alloc ∧ alloc.Shows (pools blocks) ∧
    ∀ x, (∃ b ∈ blocks, x ∈ blockBytes b) ↔ ∃ e ∈ bootMap, e.Usable ∧ pageOf x ⊆ e.bytes := by
  have hsane : ∀ e ∈ bootMap, e.Usable → Sane e := by
    have hbounds : ∀ e ∈ bootMap, 0 < e.base ∧ e.base + e.length ≤ 2 ^ 52 := by decide
    intro e he _
    refine ⟨(hbounds e he).2, fun hpage => ?_⟩
    have hzero : (0 : ℕ) ∈ e.bytes := hpage ⟨le_rfl, by decide⟩
    exact absurd hzero.1 (Nat.not_le.2 (hbounds e he).1)
  have hdisj : bootMap.Pairwise fun e e' => e.Usable → e'.Usable → Disjoint e.bytes e'.bytes := by
    have hordered : bootMap.Pairwise fun e e' => e.base + e.length ≤ e'.base := by decide
    exact hordered.imp fun hle _ _ => Set.Ico_disjoint_Ico.2 ((min_le_left _ _).trans (hle.trans (le_max_right _ _)))
  obtain ⟨alloc, blocks, hrun, hshows, -, hcover, -⟩ := init_tiles hsane hdisj fun _ => 0
  exact ⟨alloc, blocks, hrun, hshows, hcover⟩

end Init

end Physical

end MaramOS
