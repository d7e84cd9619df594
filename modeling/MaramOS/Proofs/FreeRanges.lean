import MaramOS.Proofs.Ranges
import MaramOS.Proofs.UserSpace

/-! The regions that `find_free_ranges` reports, for every table. They are listed in
the order of their addresses, one for each unused entry that a walk can meet. -/

namespace MaramOS

open RadixTree RangeAllocator
open List (mem_singleton not_mem_nil mem_flatMap mem_finRange flatMap_congr forall_mem_cons)

variable {n level v base : ℕ} {e : PageTableEntry n} {t : PageTable} {space : AddressSpace} {r : VirtualRegion}

theorem pageSize_succ (n : ℕ) : pageSize (n + 1) = 512 * pageSize n := by
  rw [pageSize, pageSize, Nat.mul_succ, ← Nat.add_assoc, Nat.pow_add, Nat.mul_comm]

/-- The walk of an address meets an unused entry at a level, before any page. -/
inductive MeetsUnused (v level : ℕ) : {n : ℕ} → PageTableEntry n → Prop
  | here : MeetsUnused v level (.empty : PageTableEntry level)
  | down {n frame : ℕ} {es : Fin 512 → PageTableEntry n} :
      MeetsUnused v level (es (pageIndex v n)) → MeetsUnused v level (.table frame es : PageTableEntry (n + 1))

theorem meetsUnused_iff : (∃ level, MeetsUnused v level e) ↔ e.find (pageIndex v) = none := by
  constructor
  · rintro ⟨level, h⟩
    induction h with
    | here => exact find_empty
    | down _ ih => exact ih
  · intro h
    induction e with
    | empty => exact ⟨_, .here⟩
    | leaf x =>
      rw [find_leaf] at h
      cases h
    | table frame es ih =>
      obtain ⟨level, hlevel⟩ := ih _ h
      exact ⟨level, .down hlevel⟩

/-- The regions of the unused entries below an entry that stands for the addresses from `base` on. -/
def freeBelow : {n : ℕ} → PageTableEntry n → ℕ → List VirtualRegion
  | n, .empty, base => [⟨base, pageSize n⟩]
  | _, .leaf _, _ => []
  | n + 1, .table _ es, base => (List.finRange 512).flatMap fun i => freeBelow (es i) (base + i * pageSize n)

theorem freeBelow_empty : freeBelow (.empty : PageTableEntry n) base = [⟨base, pageSize n⟩] := by
  cases n <;> rfl

theorem freeBelow_leaf {x : MappedPage} : freeBelow (.leaf x : PageTableEntry n) base = [] := by
  cases n <;> rfl

theorem freeBelow_table {frame : ℕ} {es : Fin 512 → PageTableEntry n} :
    freeBelow (.table frame es) base = (List.finRange 512).flatMap fun i => freeBelow (es i) (base + i * pageSize n) := rfl

theorem freeBelow_inside (h : r ∈ freeBelow e base) :
    base ≤ r.start ∧ r.start + r.size ≤ base + pageSize n := by
  induction e generalizing base with
  | empty =>
    rw [freeBelow_empty] at h
    cases mem_singleton.1 h
    exact ⟨le_rfl, le_rfl⟩
  | leaf x =>
    rw [freeBelow_leaf] at h
    exact absurd h not_mem_nil
  | @table n frame es ih =>
    rw [freeBelow_table] at h
    obtain ⟨i, -, hi⟩ := mem_flatMap.1 h
    obtain ⟨hle, hlast⟩ := ih i hi
    have hnext : (i.val + 1) * pageSize n ≤ 512 * pageSize n := Nat.mul_le_mul_right _ i.isLt
    rw [Nat.succ_mul] at hnext
    rw [pageSize_succ]
    omega

theorem pageIndex_eq_iff (hdvd : pageSize (n + 1) ∣ base) (hle : base ≤ v) (hlt : v < base + pageSize (n + 1))
    (i : Fin 512) :
    pageIndex v n = i ↔ base + i * pageSize n ≤ v ∧ v < base + i * pageSize n + pageSize n := by
  obtain ⟨q, rfl⟩ := hdvd
  have hpos := pageSize_pos n
  rw [pageSize_succ] at hle hlt ⊢
  have hmul : 512 * pageSize n * q = pageSize n * (512 * q) := by ring
  obtain ⟨m, rfl⟩ := Nat.exists_eq_add_of_le hle
  have hm : m / pageSize n < 512 := (Nat.div_lt_iff_lt_mul hpos).2 (by omega)
  have hdiv : (512 * pageSize n * q + m) / pageSize n % 512 = m / pageSize n := by
    rw [hmul, Nat.mul_add_div hpos, Nat.mul_add_mod, Nat.mod_eq_of_lt hm]
  rw [pageIndex, Fin.ext_iff]
  simp only [hdiv]
  rw [Nat.div_eq_iff hpos]
  have := Nat.mul_comm i.val (pageSize n)
  omega

theorem freeBelow_cover (hdvd : pageSize n ∣ base) (hle : base ≤ v) (hlt : v < base + pageSize n) :
    (∃ r ∈ freeBelow e base, v ∈ r.addresses) ↔ e.find (pageIndex v) = none := by
  induction e generalizing base with
  | empty =>
    rw [freeBelow_empty, find_empty]
    exact iff_of_true ⟨_, List.mem_singleton_self _, hle, hlt⟩ rfl
  | leaf x =>
    rw [freeBelow_leaf, find_leaf]
    refine iff_of_false ?_ (fun h => by cases h)
    rintro ⟨r, hr, -⟩
    exact absurd hr not_mem_nil
  | @table n frame es ih =>
    have hdvd' : ∀ i : Fin 512, pageSize n ∣ base + i * pageSize n := fun i =>
      Nat.dvd_add ((pageSize_dvd (Nat.le_succ n)).trans hdvd) (Dvd.intro_left _ rfl)
    obtain ⟨hfirst, hlast⟩ := (pageIndex_eq_iff hdvd hle hlt (pageIndex v n)).1 rfl
    rw [freeBelow_table, find_table, ← ih (pageIndex v n) (hdvd' _) hfirst hlast]
    constructor
    · rintro ⟨r, hr, hv⟩
      obtain ⟨i, -, hi⟩ := mem_flatMap.1 hr
      obtain ⟨hin, hend⟩ := freeBelow_inside hi
      -- the region that holds `v` is below the entry with the index of `v`
      have hindex := (pageIndex_eq_iff hdvd hle hlt i).2 ⟨hin.trans hv.1, hv.2.trans_le hend⟩
      rw [hindex]
      exact ⟨r, hi, hv⟩
    · rintro ⟨r, hr, hv⟩
      exact ⟨r, mem_flatMap.2 ⟨pageIndex v n, mem_finRange _, hr⟩, hv⟩

theorem freeBelow_entry (hdvd : pageSize n ∣ base) (h : r ∈ freeBelow e base) :
    ∃ level, r.size = pageSize level ∧ pageSize level ∣ r.start ∧ MeetsUnused r.start level e := by
  induction e generalizing base with
  | empty =>
    rw [freeBelow_empty] at h
    cases mem_singleton.1 h
    exact ⟨_, rfl, hdvd, .here⟩
  | leaf x =>
    rw [freeBelow_leaf] at h
    exact absurd h not_mem_nil
  | @table n frame es ih =>
    have hroom := freeBelow_inside h
    rw [freeBelow_table] at h
    obtain ⟨i, -, hi⟩ := mem_flatMap.1 h
    have hin := freeBelow_inside hi
    have hdvd' : pageSize n ∣ base + i * pageSize n :=
      Nat.dvd_add ((pageSize_dvd (Nat.le_succ n)).trans hdvd) (Dvd.intro_left _ rfl)
    obtain ⟨level, hsize, hstart, hmeets⟩ := ih i hdvd' hi
    have hpos := pageSize_pos level
    have hindex : pageIndex r.start n = i :=
      (pageIndex_eq_iff hdvd (by omega) (by omega) i).2 ⟨hin.1, by omega⟩
    refine ⟨level, hsize, hstart, .down ?_⟩
    rwa [hindex]

theorem ordered_flatMap {is : List (Fin 512)} {size : ℕ} {f : Fin 512 → List VirtualRegion}
    (his : is.Pairwise fun i j => i < j)
    (hin : ∀ i, ∀ r ∈ f i, base + i * size ≤ r.start ∧ r.start + r.size ≤ base + i * size + size)
    (hord : ∀ i, (f i).Pairwise fun r q => r.start + r.size ≤ q.start) :
    (is.flatMap f).Pairwise fun r q => r.start + r.size ≤ q.start := by
  refine List.pairwise_flatMap.2 ⟨fun i _ => hord i, his.imp fun {i j} hij r hr q hq => ?_⟩
  have hnext : (i.val + 1) * size ≤ j.val * size := Nat.mul_le_mul_right _ hij
  rw [Nat.succ_mul] at hnext
  have := (hin i r hr).2
  have := (hin j q hq).1
  omega

theorem freeBelow_ordered (e : PageTableEntry n) (base : ℕ) :
    (freeBelow e base).Pairwise fun r q => r.start + r.size ≤ q.start := by
  induction e generalizing base with
  | empty =>
    rw [freeBelow_empty]
    exact List.pairwise_singleton _ _
  | leaf x =>
    rw [freeBelow_leaf]
    exact .nil
  | table frame es ih =>
    rw [freeBelow_table]
    exact ordered_flatMap (List.pairwise_lt_finRange 512) (fun i r hr => freeBelow_inside hr) fun i => ih i _

section Halves

def halfSlots : AddressSpace → List (Fin 512)
  | .kernel => (List.finRange 512).drop 256
  | .user => (List.finRange 512).take 256

/-- What sign extension adds to the addresses of a half. -/
def halfBase : AddressSpace → ℕ
  | .kernel => 2 ^ 64 - 2 ^ 48
  | .user => 0

def InHalf : AddressSpace → ℕ → Prop
  | .kernel, v => 2 ^ 64 - 2 ^ 47 ≤ v ∧ v < 2 ^ 64
  | .user, v => v < 2 ^ 47

theorem drop_eq_filter : (List.finRange 512).drop 256 = (List.finRange 512).filter fun i => 256 ≤ i.val := by
  decide +kernel

theorem mem_halfSlots {i : Fin 512} : i ∈ halfSlots space ↔ InHalf space (halfBase space + i * pageSize 3) := by
  cases space with
  | kernel =>
    simp only [halfSlots, drop_eq_filter, List.mem_filter, mem_finRange, true_and, decide_eq_true_eq, InHalf, halfBase,
      pageSize]
    omega
  | user =>
    simp only [halfSlots, VMemAllocator.take_eq_filter, List.mem_filter, mem_finRange, true_and, decide_eq_true_eq, InHalf,
      halfBase, pageSize]
    omega

theorem halfSlots_sorted (space : AddressSpace) : (halfSlots space).Pairwise fun i j => i < j := by
  cases space
  · exact (List.pairwise_lt_finRange 512).sublist (List.drop_sublist _ _)
  · exact (List.pairwise_lt_finRange 512).sublist (List.take_sublist _ _)

variable {i : ℕ} {r : VirtualRegion}

theorem or_shift {a b : ℕ} (h : b < 2 ^ i) : a <<< i ||| b = a * 2 ^ i + b := by
  rw [← Nat.shiftLeft_add_eq_or_of_lt h, Nat.shiftLeft_eq]

theorem shifted_lt {l j : ℕ} (hl : l < 512) (h : j = i + 9) : l <<< i < 2 ^ j := by
  rw [h, Nat.shiftLeft_eq, Nat.pow_add, Nat.mul_comm]
  exact Nat.mul_lt_mul_of_pos_left hl (Nat.two_pow_pos i)

theorem indexToAddr_eq {l4 : Fin 512} (h : l4 ∈ halfSlots space) {l3 l2 l1 : ℕ} (h3 : l3 < 512)
    (h2 : l2 < 512) (h1 : l1 < 512) :
    indexToAddr l4 l3 l2 l1 = halfBase space + l4 * pageSize 3 + l3 * pageSize 2 + l2 * pageSize 1 + l1 * pageSize 0 := by
  have hsum : l4.val <<< 39 ||| l3 <<< 30 ||| l2 <<< 21 ||| l1 <<< 12 =
      l4.val * 2 ^ 39 + (l3 * 2 ^ 30 + (l2 * 2 ^ 21 + l1 * 2 ^ 12)) := by
    have hl2 : l2 <<< 21 ||| l1 <<< 12 = l2 * 2 ^ 21 + l1 * 2 ^ 12 := by
      rw [or_shift (shifted_lt h1 rfl), Nat.shiftLeft_eq]
    have hl3 : l3 <<< 30 ||| (l2 * 2 ^ 21 + l1 * 2 ^ 12) = l3 * 2 ^ 30 + (l2 * 2 ^ 21 + l1 * 2 ^ 12) := or_shift (by omega)
    have hl4 : l4.val <<< 39 ||| (l3 * 2 ^ 30 + (l2 * 2 ^ 21 + l1 * 2 ^ 12)) =
        l4.val * 2 ^ 39 + (l3 * 2 ^ 30 + (l2 * 2 ^ 21 + l1 * 2 ^ 12)) := or_shift (by omega)
    rw [Nat.or_assoc, Nat.or_assoc, hl2, hl3, hl4]
  have hslot := mem_halfSlots.1 h
  rw [indexToAddr, hsum]
  simp only [Nat.shiftRight_eq_div_pow]
  have hlow : l4.val * 2 ^ 39 + (l3 * 2 ^ 30 + (l2 * 2 ^ 21 + l1 * 2 ^ 12)) < 2 ^ 48 := by omega
  have hor : l4.val * 2 ^ 39 + (l3 * 2 ^ 30 + (l2 * 2 ^ 21 + l1 * 2 ^ 12)) ||| 0xFFFF000000000000 =
      0xFFFF * 2 ^ 48 + (l4.val * 2 ^ 39 + (l3 * 2 ^ 30 + (l2 * 2 ^ 21 + l1 * 2 ^ 12))) := by
    rw [Nat.or_comm, ← or_shift hlow]
    rfl
  cases space with
  | kernel =>
    simp only [InHalf, halfBase, pageSize] at hslot
    rw [if_pos (by omega), hor]
    simp only [halfBase, pageSize]
    omega
  | user =>
    simp only [InHalf, halfBase, pageSize] at hslot
    rw [if_neg (by omega)]
    simp only [halfBase, pageSize]
    omega

theorem findFreeRanges_eq (t : PageTable) (space : AddressSpace) :
    findFreeRanges t space = (halfSlots space).flatMap fun i => freeBelow (t i) (halfBase space + i * pageSize 3) := by
  delta findFreeRanges
  change List.flatMap _ (halfSlots space) = _
  refine flatMap_congr fun l4 hl4 => ?_
  have haddr := @indexToAddr_eq _ _ hl4
  cases t l4 with
  | empty => simp [freeBelow_empty, haddr, pageSize]
  | leaf x => rw [freeBelow_leaf]
  | table frame l3Table =>
    rw [freeBelow_table]
    refine flatMap_congr fun l3 _ => ?_
    cases l3Table l3 with
    | empty => simp [freeBelow_empty, haddr, pageSize]
    | leaf x => rw [freeBelow_leaf]
    | table frame l2Table =>
      rw [freeBelow_table]
      refine flatMap_congr fun l2 _ => ?_
      cases l2Table l2 with
      | empty => simp [freeBelow_empty, haddr, pageSize]
      | leaf x => rw [freeBelow_leaf]
      | table frame l1Table =>
        rw [freeBelow_table]
        refine flatMap_congr fun l1 _ => ?_
        cases l1Table l1 with
        | empty => simp [freeBelow_empty, haddr, pageSize]
        | leaf x => rw [freeBelow_leaf]

theorem inHalf_slot (h : InHalf space v) :
    halfBase space + (pageIndex v 3).val * pageSize 3 ≤ v ∧
      v < halfBase space + (pageIndex v 3).val * pageSize 3 + pageSize 3 ∧
      pageIndex v 3 ∈ halfSlots space := by
  rw [mem_halfSlots]
  cases space with
  | kernel =>
    simp only [InHalf, halfBase, pageIndex, pageSize] at h ⊢
    omega
  | user =>
    simp only [InHalf, halfBase, pageIndex, pageSize] at h ⊢
    omega

theorem slot_dvd (space : AddressSpace) (i : Fin 512) : pageSize 3 ∣ halfBase space + i * pageSize 3 := by
  refine Nat.dvd_add ?_ (Dvd.intro_left _ rfl)
  cases space
  · simp only [halfBase, pageSize]
    decide
  · exact dvd_zero _

theorem mem_findFreeRanges (h : r ∈ findFreeRanges t space) :
    ∃ i ∈ halfSlots space, r ∈ freeBelow (t i) (halfBase space + i * pageSize 3) := by
  rw [findFreeRanges_eq] at h
  exact mem_flatMap.1 h

theorem findFreeRanges_inHalf (h : r ∈ findFreeRanges t space) (hv : v ∈ r.addresses) :
    InHalf space v := by
  obtain ⟨i, hi, hr⟩ := mem_findFreeRanges h
  obtain ⟨hle, hlast⟩ := freeBelow_inside hr
  have hslot := mem_halfSlots.1 hi
  have hv' := hv.1
  have hv'' := hv.2
  cases space with
  | kernel =>
    simp only [InHalf, halfBase, pageSize] at hslot hle hlast ⊢
    omega
  | user =>
    simp only [InHalf, halfBase, pageSize] at hslot hle hlast ⊢
    omega

theorem findFreeRanges_ordered (t : PageTable) (space : AddressSpace) :
    (findFreeRanges t space).Pairwise fun r q => r.start + r.size ≤ q.start := by
  rw [findFreeRanges_eq]
  exact ordered_flatMap (halfSlots_sorted space) (fun i r hr => freeBelow_inside hr) fun i => freeBelow_ordered _ _

theorem findFreeRanges_entry (h : r ∈ findFreeRanges t space) :
    ∃ level, r.size = pageSize level ∧ pageSize level ∣ r.start ∧ MeetsUnused r.start level (t (pageIndex r.start 3)) := by
  obtain ⟨i, hi, hr⟩ := mem_findFreeRanges h
  obtain ⟨level, hsize, hdvd, hmeets⟩ := freeBelow_entry (slot_dvd space i) hr
  have hpos := pageSize_pos level
  obtain ⟨hle, hlast⟩ := freeBelow_inside hr
  obtain ⟨hfirst, hend, -⟩ := inHalf_slot (findFreeRanges_inHalf h (⟨le_rfl, by omega⟩ : r.start ∈ r.addresses))
  have hindex : pageIndex r.start 3 = i := by
    rw [Fin.ext_iff]
    simp only [pageSize] at hle hlast hfirst hend hpos hsize
    omega
  refine ⟨level, hsize, hdvd, ?_⟩
  rwa [hindex]

theorem findFreeRanges_cover (h : InHalf space v) :
    (∃ r ∈ findFreeRanges t space, v ∈ r.addresses) ↔ ∃ level, MeetsUnused v level (t (pageIndex v 3)) := by
  obtain ⟨hle, hlt, hslot⟩ := inHalf_slot h
  rw [meetsUnused_iff, ← freeBelow_cover (slot_dvd space _) hle hlt]
  constructor
  · rintro ⟨r, hr, hv⟩
    obtain ⟨i, hi, hri⟩ := mem_findFreeRanges hr
    obtain ⟨hin, hend⟩ := freeBelow_inside hri
    have hindex : pageIndex v 3 = i := by
      have hv1 := hv.1
      have hv2 := hv.2
      rw [Fin.ext_iff]
      simp only [pageSize] at hle hlt hin hend
      omega
    rw [hindex]
    exact ⟨r, hri, hv⟩
  · rintro ⟨r, hr, hv⟩
    rw [findFreeRanges_eq]
    exact ⟨r, mem_flatMap.2 ⟨_, hslot, hr⟩, hv⟩

end Halves

section Complement

/-- The address of an index path: bit 47 is repeated in the bits above it. -/
def signExtend (path : ℕ) : ℕ := if path < 2 ^ 47 then path else path + (2 ^ 64 - 2 ^ 48)

/-- The index path that the walk of an address takes. -/
def indexPath (v : ℕ) : ℕ :=
  (pageIndex v 3).val * 2 ^ 39 + (pageIndex v 2).val * 2 ^ 30 + (pageIndex v 1).val * 2 ^ 21 + (pageIndex v 0).val * 2 ^ 12

theorem inHalf_canonical (h : InHalf space v) : canonicalAddr v = true := by
  simp only [canonicalAddr, Bool.or_eq_true, Bool.and_eq_true, decide_eq_true_eq]
  cases space with
  | kernel => exact .inr h
  | user => exact .inl h

theorem signExtend_indexPath (h : InHalf space v) (hpage : 4096 ∣ v) : signExtend (indexPath v) = v := by
  have hpath : indexPath v = v % 2 ^ 48 := by
    simp only [indexPath, pageIndex, pageSize]
    omega
  rw [signExtend, hpath]
  cases space with
  | kernel =>
    obtain ⟨hle, hlt⟩ := h
    rw [if_neg (by omega)]
    omega
  | user =>
    have hlt : v < 2 ^ 47 := h
    rw [if_pos (by omega)]
    omega

def CoversPage (regions : List VirtualRegion) (v : ℕ) : Prop := ∃ r ∈ regions, Set.Ico v (v + pageSize 0) ⊆ r.addresses

theorem coversPage_iff (hv : pageSize 0 ∣ v) :
    CoversPage (findFreeRanges t space) v ↔ ∃ r ∈ findFreeRanges t space, v ∈ r.addresses := by
  constructor
  · rintro ⟨r, hr, hsub⟩
    exact ⟨r, hr, hsub ⟨le_rfl, Nat.lt_add_of_pos_right (pageSize_pos 0)⟩⟩
  · rintro ⟨r, hr, hle, hlt⟩
    obtain ⟨level, hsize, hdvd, -⟩ := findFreeRanges_entry hr
    have hsmall : pageSize 0 ∣ pageSize level := pageSize_dvd (Nat.zero_le level)
    have hend : pageSize 0 ∣ r.start + r.size := Nat.dvd_add (hsmall.trans hdvd) (hsize ▸ hsmall)
    refine ⟨r, hr, fun x hx => ⟨hle.trans hx.1, hx.2.trans_le ?_⟩⟩
    obtain ⟨i, rfl⟩ := hv
    obtain ⟨j, hj⟩ := hend
    rw [hj] at hlt ⊢
    have hij := Nat.lt_of_mul_lt_mul_left hlt
    calc pageSize 0 * i + pageSize 0 = pageSize 0 * (i + 1) := rfl
      _ ≤ pageSize 0 * j := Nat.mul_le_mul_left _ hij

/-- `find_free_ranges` is the complement of the mappings of the half, in disjoint regions. -/
theorem findFreeRanges_complement (t : PageTable) (space : AddressSpace) :
    (findFreeRanges t space).Pairwise (fun r q => Disjoint r.addresses q.addresses) ∧
    (∀ r ∈ findFreeRanges t space, canonicalAddr r.start = true ∧ r.start = signExtend (indexPath r.start) ∧
      ∃ level, r.size = pageSize level ∧ pageSize level ∣ r.start ∧ MeetsUnused r.start level (t (pageIndex r.start 3))) ∧
    ∀ v, InHalf space v → pageSize 0 ∣ v →
      (CoversPage (findFreeRanges t space) v ↔ ∃ level, MeetsUnused v level (t (pageIndex v 3))) := by
  refine ⟨(findFreeRanges_ordered t space).imp fun {r q} hle => ?_, fun r hr => ?_, fun v hv hdvd => ?_⟩
  · exact Set.Ico_disjoint_Ico.2 ((min_le_left _ _).trans (hle.trans (le_max_right _ _)))
  · obtain ⟨level, hsize, hdvd, hmeets⟩ := findFreeRanges_entry hr
    have hpos := pageSize_pos level
    have hpage : 4096 ∣ r.start := (pageSize_dvd (Nat.zero_le level)).trans hdvd
    have hin := findFreeRanges_inHalf hr (⟨le_rfl, by omega⟩ : r.start ∈ r.addresses)
    exact ⟨inHalf_canonical hin, (signExtend_indexPath hin hpage).symm, level, hsize, hdvd, hmeets⟩
  · rw [coversPage_iff hdvd, findFreeRanges_cover hv]

end Complement

section Building

variable {curr : Range} {l : List Range} {a : RangeAllocator} {regions : List VirtualRegion}

/-- The sums of the merge loop stay below `2 ^ 64`. -/
def MergeFits (curr : Range) : List Range → Prop
  | [] => True
  | next :: rest => curr.start + curr.length < 2 ^ 64 ∧
    if wadd curr.start curr.length = next.start then
      curr.length + next.length < 2 ^ 64 ∧ MergeFits ⟨curr.start, wadd curr.length next.length⟩ rest
    else MergeFits next rest

def CoalesceFits (a : RangeAllocator) : Prop :=
  match a.ranges.insertionSort fun r s => r.start ≤ s.start with
  | [] => True
  | curr :: rest => MergeFits curr rest

/-- The sums that `VMemAllocator::new` forms from the free regions stay below `2 ^ 64`. -/
inductive BuildFits : RangeAllocator → List VirtualRegion → Prop
  | nil (a : RangeAllocator) : BuildFits a []
  | cons {a : RangeAllocator} {r : VirtualRegion} {rest : List VirtualRegion} (hsum : r.start + r.size < 2 ^ 64)
      (hmerge : CoalesceFits ⟨a.ranges ++ [⟨r.start, wsub (wadd r.start r.size) r.start⟩]⟩)
      (hrest : BuildFits (a.addRange r.start (wadd r.start r.size)) rest) : BuildFits a (r :: rest)

theorem mergeFits_of_bounded (h : ∀ r ∈ curr :: l, r.start + r.length < 2 ^ 64) : MergeFits curr l := by
  induction l generalizing curr with
  | nil => trivial
  | cons next rest ih =>
    have hcurr := h curr List.mem_cons_self
    have hnext := h next (List.mem_cons_of_mem _ List.mem_cons_self)
    have hrest : ∀ r ∈ rest, r.start + r.length < 2 ^ 64 := fun r hr =>
      h r (List.mem_cons_of_mem _ (List.mem_cons_of_mem _ hr))
    refine ⟨hcurr, ?_⟩
    rw [wadd_of_lt hcurr]
    split_ifs with htouch
    · refine ⟨by omega, ih (forall_mem_cons.2 ⟨?_, hrest⟩)⟩
      rw [wadd_of_lt (by omega)]
      show curr.start + (curr.length + next.length) < 2 ^ 64
      omega
    · exact ih (forall_mem_cons.2 ⟨hnext, hrest⟩)

theorem coalesceFits_of_bounded (h : ∀ r ∈ a.ranges, r.start + r.length < 2 ^ 64) : CoalesceFits a := by
  have hperm := a.ranges.perm_insertionSort fun r s => r.start ≤ s.start
  unfold CoalesceFits
  cases hsort : a.ranges.insertionSort fun r s => r.start ≤ s.start with
  | nil => trivial
  | cons curr rest =>
    rw [hsort] at hperm
    exact mergeFits_of_bounded fun r hr => h r (hperm.mem_iff.1 hr)

theorem BuildFits.bounded (h : BuildFits a regions) : ∀ r ∈ regions, r.start + r.size < 2 ^ 64 := by
  induction h with
  | nil a => exact fun r hr => absurd hr not_mem_nil
  | cons hsum _ _ ih => exact forall_mem_cons.2 ⟨hsum, ih⟩

theorem build_spec (ha : a.Canonical) (hpos : ∀ r ∈ regions, 0 < r.size)
    (hlt : ∀ r ∈ regions, r.start + r.size < 2 ^ 64)
    (hord : regions.Pairwise fun r q => r.start + r.size ≤ q.start)
    (hd : ∀ r ∈ regions, Disjoint a.freeSet r.addresses) :
    BuildFits a regions ∧
    (regions.foldl (fun a r => a.addRange r.start (wadd r.start r.size)) a).Canonical ∧
    (regions.foldl (fun a r => a.addRange r.start (wadd r.start r.size)) a).freeSet =
      a.freeSet ∪ {v | ∃ r ∈ regions, v ∈ r.addresses} := by
  induction regions generalizing a with
  | nil =>
    refine ⟨.nil a, ha, ?_⟩
    simp
  | cons q rest ih =>
    obtain ⟨hq, hrest⟩ := forall_mem_cons.1 hlt
    obtain ⟨hqpos, hrestpos⟩ := forall_mem_cons.1 hpos
    obtain ⟨hqd, hrestd⟩ := forall_mem_cons.1 hd
    obtain ⟨hqord, hrestord⟩ := List.pairwise_cons.1 hord
    have hadd : a.addRange q.start (wadd q.start q.size) = a.free q.start q.size := by
      rw [wadd_of_lt hq, addRange_eq_free (Nat.le_add_right _ _), Nat.add_sub_cancel_left]
    obtain ⟨hcanon, hset⟩ := free_spec ha hqpos hq hqd
    rw [← hadd] at hcanon hset
    have hnext : ∀ r ∈ rest, Disjoint (a.addRange q.start (wadd q.start q.size)).freeSet r.addresses := by
      intro r hr
      rw [hset, Set.disjoint_union_left]
      exact ⟨hrestd r hr, Set.Ico_disjoint_Ico.2 ((min_le_left _ _).trans ((hqord r hr).trans (le_max_right _ _)))⟩
    obtain ⟨hfits, hcanon', hset'⟩ := ih hcanon hrestpos hrest hrestord hnext
    refine ⟨.cons hq (coalesceFits_of_bounded fun r hr => ?_) hfits, hcanon', ?_⟩
    · rcases List.mem_append.1 hr with hr | hr
      · exact ha.bounded r hr
      · rw [mem_singleton.1 hr, wadd_of_lt hq, wsub_of_le (Nat.le_add_right _ _), Nat.add_sub_cancel_left]
        exact hq
    · rw [List.foldl_cons, hset', hset, Set.union_assoc]
      congr 1
      ext v
      simp [VirtualRegion.addresses]

def topPage : ℕ := 0xFFFFFFFFFFFFF000

theorem topPage_cover :
    CoversPage (findFreeRanges t .kernel) topPage ↔ ∃ level, MeetsUnused topPage level (t (pageIndex topPage 3)) := by
  have htop : InHalf .kernel topPage := ⟨by decide, by decide⟩
  rw [coversPage_iff (by decide), findFreeRanges_cover htop]

theorem findFreeRanges_bounded (htop : ¬CoversPage (findFreeRanges t .kernel) topPage) :
    ∀ r ∈ findFreeRanges t .kernel, r.start + r.size < 2 ^ 64 := by
  intro r hr
  by_contra hge
  obtain ⟨level, hsize, hdvd, -⟩ := findFreeRanges_entry hr
  have hpos := pageSize_pos level
  have hpage : 4096 ∣ r.start := (pageSize_dvd (Nat.zero_le level)).trans hdvd
  have hfirst := findFreeRanges_inHalf hr (⟨le_rfl, by omega⟩ : r.start ∈ r.addresses)
  have hstart : r.start < 2 ^ 64 := hfirst.2
  have hin : topPage ∈ r.addresses := by
    simp only [VirtualRegion.addresses, Set.mem_Ico, topPage]
    omega
  exact htop ((coversPage_iff (by decide)).2 ⟨r, hr, hin⟩)

theorem new_spec (t : PageTable) (space : AddressSpace) (frames : Frames)
    (hlt : ∀ r ∈ findFreeRanges t space, r.start + r.size < 2 ^ 64) :
    BuildFits RangeAllocator.new (findFreeRanges t space) ∧ (VMemAllocator.new t space frames).allocator.Canonical ∧
      (VMemAllocator.new t space frames).allocator.freeSet = {v | ∃ r ∈ findFreeRanges t space, v ∈ r.addresses} := by
  have hpos : ∀ r ∈ findFreeRanges t space, 0 < r.size := by
    intro r hr
    obtain ⟨level, hsize, -⟩ := findFreeRanges_entry hr
    rw [hsize]
    exact pageSize_pos level
  have hnew : RangeAllocator.new.Canonical :=
    ⟨fun r hr => absurd hr not_mem_nil, fun r hr => absurd hr not_mem_nil, .nil⟩
  have hempty : RangeAllocator.new.freeSet = ∅ := Set.eq_empty_of_forall_notMem fun v hv => by
    obtain ⟨r, hr, -⟩ := hv
    exact absurd hr not_mem_nil
  have hd : ∀ r ∈ findFreeRanges t space, Disjoint RangeAllocator.new.freeSet r.addresses := by
    intro r _
    rw [hempty]
    exact Set.empty_disjoint _
  obtain ⟨hfits, hcanon, hset⟩ := build_spec hnew hpos hlt (findFreeRanges_ordered t space) hd
  rw [hempty, Set.empty_union] at hset
  exact ⟨hfits, hcanon, hset⟩

theorem BuildFits.top_used (h : BuildFits a regions) : ¬CoversPage regions topPage := by
  rintro ⟨r, hr, hsub⟩
  have hlast : topPage + 4095 ∈ r.addresses := hsub ⟨Nat.le_add_right _ _, by decide⟩
  have hlt := h.bounded r hr
  have hend := hlast.2
  rw [topPage] at hend
  omega

/-- Building the kernel's allocator adds without overflow and every page that is reported free can then be
reserved, exactly for the tables that use the topmost page of the half. -/
theorem kernel_pages_usable_iff (t : PageTable) (frames : Frames) :
    (BuildFits RangeAllocator.new (findFreeRanges t .kernel) ∧
      ∀ v, pageSize 0 ∣ v → CoversPage (findFreeRanges t .kernel) v →
        (VMemAllocator.reserve ⟨v, pageSize 0⟩ (VMemAllocator.new t .kernel frames)).1 = .ok ()) ↔
    ¬∃ level, MeetsUnused topPage level (t (pageIndex topPage 3)) := by
  rw [← topPage_cover]
  constructor
  · exact fun h => h.1.top_used
  · intro htop
    obtain ⟨hfits, hcanon, hset⟩ := new_spec t .kernel frames (findFreeRanges_bounded htop)
    refine ⟨hfits, fun v hdvd hcover => ?_⟩
    obtain ⟨r, hr, hsub⟩ := hcover
    have hfree : Set.Ico v (v + pageSize 0) ⊆ (VMemAllocator.new t .kernel frames).allocator.freeSet := by
      rw [hset]
      exact fun x hx => ⟨r, hr, hsub hx⟩
    have hend : v + pageSize 0 < 2 ^ 64 := by
      have hlast : v + 4095 ∈ r.addresses := hsub ⟨Nat.le_add_right _ _, Nat.add_lt_add_left (by decide) v⟩
      have hlt := findFreeRanges_bounded htop r hr
      have := hlast.2
      simp only [pageSize]
      omega
    rcases reserve_spec hcanon hend with ⟨-, a', hrun, -⟩ | ⟨hnot, -⟩
    · have hsize : pageSize 0 % PAGE_SIZE = 0 := by decide
      have hok : VMemAllocator.reserve ⟨v, pageSize 0⟩ (VMemAllocator.new t .kernel frames) = (.ok (), _) :=
        VMemAllocator.reserve_ok hsize (Nat.mod_eq_zero_of_dvd hdvd) hrun
      rw [hok]
    · exact absurd hfree hnot

/-- With no table at all below L4, the topmost page is reported free, its region ends at `2 ^ 64`, and `reserve`
refuses it. -/
theorem top_page_unusable :
    CoversPage (findFreeRanges (fun _ => .empty) .kernel) topPage ∧
    ¬BuildFits RangeAllocator.new (findFreeRanges (fun _ => .empty) .kernel) ∧
    (VMemAllocator.reserve ⟨topPage, pageSize 0⟩ (VMemAllocator.new (fun _ => .empty) .kernel ⟨[], [], []⟩)).1 =
      .error (.memory .invalidMapping) := by
  have hcover : CoversPage (findFreeRanges (fun _ => .empty) .kernel) topPage := topPage_cover.2 ⟨3, .here⟩
  refine ⟨hcover, fun h => h.top_used hcover, ?_⟩
  generalize VMemAllocator.new (fun _ => .empty) .kernel ⟨[], [], []⟩ = s
  have hfull : s.allocator.reserve topPage (pageSize 0) = (false, s.allocator) := if_pos (by decide)
  rcases VMemAllocator.reserve_cases ⟨topPage, pageSize 0⟩ s with ⟨a', -, -, hrun, -⟩ | ⟨a', -, hrun⟩
  · rw [hfull] at hrun
    cases hrun
  · rw [hrun]

end Building

end MaramOS
