import MaramOS.Proofs.FreeSpace
import MaramOS.Proofs.TreeMapper
import MaramOS.Proofs.Virt

/-! The frames of the tables of a user address space. Every table frame that was
allocated is in the lower half of the table or has been freed, and what is left
there is freed by `drop`. -/

namespace MaramOS

open Prog RadixTree RangeAllocator

/-- Regions that are mapped or freed without being reserved begin in the lower half, and the size of an
allocation does not make its end wrap. -/
def SpaceCall.Lower : SpaceCall → Prop
  | .alloc count => wmul count (pageSize 0) + 2 ^ 47 < 2 ^ 64
  | .map region _ _ => region.start < 2 ^ 47
  | .free region => region.start < 2 ^ 47
  | _ => True

namespace VMemAllocator

def lowerHalf : Finset (Fin 512) := Finset.univ.filter fun i => i.val < 256

theorem mem_lowerHalf {i : Fin 512} : i ∈ lowerHalf ↔ i.val < 256 := by
  simp [lowerHalf]

def tableFrames (t : PageTable) : Multiset ℕ := ∑ i ∈ lowerHalf, labels (t i)

structure Conserved (t0 : PageTable) (s : VMemAllocator) : Prop where
  frames : tableFrames s.pageTable + (s.frames.freed : Multiset ℕ) = (s.frames.allocated : Multiset ℕ)
  higher : ∀ i : Fin 512, 256 ≤ i.val → s.pageTable i = t0 i
  within : Within (2 ^ 47) s.allocator.ranges

variable {t0 : PageTable} {s : VMemAllocator} {region : VirtualRegion} {k addr phys : ℕ} {flags : PageTableFlags}

theorem ne_pageIndex {i : Fin 512} (h : addr < 2 ^ 47) (hi : 256 ≤ i.val) : i ≠ pageIndex addr 3 := by
  rintro rfl
  simp only [pageIndex, pageSize] at hi
  omega

theorem tableFrames_add {t t' : PageTable} (hhigher : ∀ i : Fin 512, 256 ≤ i.val → t' i = t i) {a b : Multiset ℕ}
    (h : ∑ i, labels (t' i) + a = ∑ i, labels (t i) + b) : tableFrames t' + a = tableFrames t + b := by
  have hsame : ∑ i ∈ lowerHalfᶜ, labels (t' i) = ∑ i ∈ lowerHalfᶜ, labels (t i) := Finset.sum_congr rfl fun i hi => by
    rw [Finset.mem_compl, mem_lowerHalf, Nat.not_lt] at hi
    rw [hhigher i hi]
  rw [← Finset.sum_add_sum_compl lowerHalf, ← Finset.sum_add_sum_compl lowerHalf fun i => labels (t i), hsame,
    add_right_comm, add_right_comm _ _ b] at h
  exact add_right_cancel h

section Mapper

open Mapper.KeepsEntries Mapper.KeepsFrames

variable [Mapper] [Mapper.KeepsEntries] [Mapper.KeepsFrames]

theorem Conserved.mapPage (h : Conserved t0 s) (hk : k ≤ 2) (haddr : addr < 2 ^ 47) :
    Conserved t0 (mapPage k addr phys flags s).2 := by
  have hhigher : ∀ i : Fin 512, 256 ≤ i.val → (VMemAllocator.mapPage k addr phys flags s).2.pageTable i = s.pageTable i :=
    fun i hi => mapTo_other hk (ne_pageIndex haddr hi)
  refine ⟨?_, fun i hi => (hhigher i hi).trans (h.higher i hi), h.within⟩
  obtain ⟨hlabels, hfreed⟩ := mapTo_frames addr ⟨phys / pageSize k * pageSize k, flags⟩ s.pageTable s.frames hk
  have hframes := tableFrames_add hhigher hlabels
  have hold := h.frames
  simp only [VMemAllocator.mapPage, hfreed] at hframes ⊢
  -- what was allocated before is on both sides
  refine add_right_cancel (b := (s.frames.allocated : Multiset ℕ)) ?_
  rw [add_right_comm, hframes, add_right_comm, hold, add_comm]

theorem Conserved.unmapPage (h : Conserved t0 s) (hk : k ≤ 2) (haddr : addr < 2 ^ 47) :
    Conserved t0 (unmapPage k addr s).2 := by
  simp only [VMemAllocator.unmapPage]
  cases hrun : Mapper.unmap k addr s.pageTable with
  | error err => exact h
  | ok t =>
    have hhigher : ∀ i : Fin 512, 256 ≤ i.val → t i = s.pageTable i :=
      fun i hi => unmap_other hk hrun (ne_pageIndex haddr hi)
    refine ⟨?_, fun i hi => (hhigher i hi).trans (h.higher i hi), h.within⟩
    have hlabels : ∑ i, labels (t i) + (s.frames.freed : Multiset ℕ) =
        ∑ i, labels (s.pageTable i) + (s.frames.freed : Multiset ℕ) := by
      rw [unmap_frames hk hrun]
    exact (tableFrames_add hhigher hlabels).trans h.frames

theorem Conserved.cleanUpAddrRange (h : Conserved t0 s) {first last : ℕ} (hlast : last < 2 ^ 47) :
    Conserved t0 (cleanUpAddrRange first last s).2 := by
  have hhigher : ∀ i : Fin 512, 256 ≤ i.val → (VMemAllocator.cleanUpAddrRange first last s).2.pageTable i =
    s.pageTable i := by
    intro i hi
    refine (cleanUp_entry _ _ s.pageTable i).resolve_right ?_
    rintro ⟨-, -, -, ⟨addr, rfl, -, hle⟩, -⟩
    -- an address of the range is below 2⁴⁷
    refine ne_pageIndex ?_ hi rfl
    simp only [pageSize] at hle
    omega
  refine ⟨?_, fun i hi => (hhigher i hi).trans (h.higher i hi), h.within⟩
  have hlabels := cleanUp_frames (first / pageSize 0 * pageSize 0) (last / pageSize 0 * pageSize 0) s.pageTable
  rw [← add_zero (∑ i, labels (s.pageTable i))] at hlabels
  have hframes := tableFrames_add hhigher hlabels
  simp only [VMemAllocator.cleanUpAddrRange, Frames.deallocate, ← Multiset.coe_add] at hframes ⊢
  rw [← add_assoc, hframes, add_zero]
  exact h.frames

theorem Conserved.map (h : Conserved t0 s) (hlower : region.start < 2 ^ 47) : Conserved t0 (map region phys flags s).2 :=
  map_keeps (fun _ _ _ _ _ ht hs => hs.mapPage ht.level (ht.lower hlower)) h

theorem Conserved.free (h : Conserved t0 s) (hlower : region.start < 2 ^ 47) : Conserved t0 (free region s).2 := by
  refine free_keeps (unmap_keeps (fun _ _ _ ht hs => ?_) (fun _ _ _ hlast hs => ?_) h) fun s hstop hs => ?_
  · exact hs.unmapPage ht.level (ht.lower hlower)
  · exact hs.cleanUpAddrRange (hlast hlower)
  · exact ⟨hs.frames, hs.higher, (free_weak (by norm_num) hs.within (hstop hlower).le).1⟩

omit [Mapper] [Mapper.KeepsEntries] [Mapper.KeepsFrames] in
theorem Conserved.reserve (h : Conserved t0 s) : Conserved t0 (reserve region s).2 := by
  rcases reserve_cases region s with ⟨a', -, -, hres, hrun⟩ | ⟨a', hres, hrun⟩
  · rw [hrun]
    exact ⟨h.frames, h.higher, (reserve_weak (by norm_num) h.within hres).1⟩
  · rw [hrun]
    rcases hres with rfl | hres
    · exact h
    · exact ⟨h.frames, h.higher, (reserve_weak (by norm_num) h.within hres).1⟩

theorem Conserved.mapFixed (h : Conserved t0 s) : Conserved t0 (mapFixed region phys flags s).2 := by
  have hlower : ∀ a', s.allocator.reserve region.start region.size = (true, a') → region.size ≠ 0 →
      region.start < 2 ^ 47 := by
    intro a' hres hsize
    obtain ⟨-, -, hok, -⟩ := reserve_weak (by norm_num) h.within hres
    have hstop := (hok rfl).1.resolve_left hsize
    omega
  exact mapFixed_keeps h.reserve (fun a' hres hsize hs => hs.map (hlower a' hres hsize))
    fun s' hsize ⟨a', hres⟩ hs => hs.free (hlower a' hres hsize)

omit [Mapper] [Mapper.KeepsEntries] [Mapper.KeepsFrames] in
theorem Conserved.alloc (h : Conserved t0 s) {count : ℕ} (hcount : wmul count (pageSize 0) + 2 ^ 47 < 2 ^ 64) :
    Conserved t0 (alloc count s).2 := by
  rcases alloc_cases count s with hrun | ⟨align, start, a', halign, hres, hrun⟩
  · rw [hrun]
    exact h
  · rw [hrun]
    have hdvd : align ∣ 2 ^ 47 := by
      rcases halign with rfl | rfl | rfl <;> exact pow_dvd_pow 2 (by norm_num)
    have hpos : 0 < align := Nat.pos_of_dvd_of_pos hdvd (by norm_num)
    obtain ⟨-, -, -, hwithin, -⟩ :=
      allocate_noWrap (by omega) h.within hpos (noWrap_of_bound (by omega) h.within hpos hdvd) hres
    exact ⟨h.frames, h.higher, hwithin⟩

theorem Conserved.call (h : Conserved t0 s) (c : SpaceCall) (hc : c.Lower) : Conserved t0 (c.run s).2 := by
  cases c with
  | alloc count =>
    exact wp_keeps.1 (wp_seq (wp_keeps.2 (h.alloc hc)) (fun _ _ hs => wp_pure.2 hs) fun _ _ hs => hs)
  | reserve region => exact h.reserve
  | map region phys flags => exact h.map hc
  | mapFixed region phys flags => exact h.mapFixed
  | free region => exact h.free hc

end Mapper

theorem take_eq_filter : (List.finRange 512).take 256 = (List.finRange 512).filter fun i => i.val < 256 := by
  decide +kernel

theorem coe_walk {n frame : ℕ} {es : Fin 512 → PageTableEntry n} {walk : Fin 512 → List ℕ}
    (h : ∀ i, (walk i : Multiset ℕ) = labels (es i)) :
    (((List.finRange 512).flatMap walk ++ [frame] : List ℕ) : Multiset ℕ) = labels (table frame es) := by
  rw [labels_table, ← Multiset.coe_add, coe_flatMap_finRange, Finset.sum_congr rfl fun i _ => h i,
    add_comm, Multiset.coe_singleton, Multiset.singleton_add]

theorem coe_drop (s : VMemAllocator) : (drop s : Multiset ℕ) = tableFrames s.pageTable := by
  have hsum : ∀ walk : Fin 512 → Multiset ℕ,
      Multiset.bind ((List.finRange 512).filter fun i => i.val < 256 : List (Fin 512)) walk = ∑ i ∈ lowerHalf, walk i :=
    fun _ => rfl
  rw [drop, take_eq_filter, ← Multiset.coe_bind, hsum, tableFrames]
  refine Finset.sum_congr rfl fun l4 _ => ?_
  cases s.pageTable l4 with
  | empty => rfl
  | leaf x => rfl
  | table frame l3 =>
    refine coe_walk fun i => ?_
    cases l3 i with
    | empty => rfl
    | leaf x => rfl
    | table frame l2 =>
      refine coe_walk fun j => ?_
      cases l2 j with
      | empty => rfl
      | leaf x => rfl
      | table frame l1 =>
        rw [labels_table, Finset.sum_eq_zero fun k _ => labels_zero (l1 k)]
        rfl

theorem newUserAllocator_ranges (active : PageTable) (frames : Frames) :
    (newUserAllocator active frames).allocator.ranges = [⟨0, 2 ^ 47⟩] := by
  have hfree : findFreeRanges (userTable active) .user =
      ((List.finRange 512).take 256).map fun l4 => ⟨indexToAddr l4 0 0 0, 2 ^ 39⟩ := by
    rw [findFreeRanges, List.map_eq_flatMap]
    refine List.flatMap_congr fun l4 hl4 => ?_
    rw [take_eq_filter, List.mem_filter, decide_eq_true_eq] at hl4
    rw [userTable, if_pos hl4.2]
  have hranges : ((((List.finRange 512).take 256).map fun l4 : Fin 512 =>
      (⟨indexToAddr l4 0 0 0, 2 ^ 39⟩ : VirtualRegion)).foldl (fun a r => a.addRange r.start (wadd r.start r.size))
        RangeAllocator.new).ranges = [⟨0, 2 ^ 47⟩] := by
    decide +kernel
  rw [← hranges, ← hfree]
  rfl

theorem newUserAllocator_conserved (active : PageTable) (grants : List (Option ℕ)) :
    Conserved active (newUserAllocator active ⟨grants, [], []⟩) where
  frames := by
    have hempty : tableFrames (userTable active) = 0 := Finset.sum_eq_zero fun i hi => by
      rw [userTable, if_pos (mem_lowerHalf.1 hi)]
      rfl
    show tableFrames (userTable active) + 0 = 0
    rw [hempty]
    rfl
  higher i hi := if_neg (Nat.not_lt.2 hi)
  within := by
    rw [newUserAllocator_ranges]
    intro r hr
    rw [List.mem_singleton.1 hr, Nat.zero_add]

/-- Over the life of a user address space, every table frame that was allocated for it is freed exactly
once and no other frame is, and the higher half of its table stays as it was. -/
theorem table_frames_conserved [Mapper] [Mapper.KeepsEntries] [Mapper.KeepsFrames] (active : PageTable)
    (grants : List (Option ℕ)) {s : VMemAllocator}
    (h : Runs SpaceCall.run (fun _ c _ => c.Lower) (newUserAllocator active ⟨grants, [], []⟩) s) :
    (s.frames.freed ++ drop s).Perm s.frames.allocated ∧
    (∀ frame ∉ s.frames.allocated, frame ∉ s.frames.freed ++ drop s) ∧
    ∀ i : Fin 512, 256 ≤ i.val → s.pageTable i = active i := by
  have hs : Conserved active s :=
    h.invariant _ (newUserAllocator_conserved active grants) fun s c r s' hs hrun hc => by
      have := hs.call c hc
      rwa [hrun] at this
  have hperm : (s.frames.freed ++ drop s).Perm s.frames.allocated := by
    refine Multiset.coe_eq_coe.1 ?_
    rw [← Multiset.coe_add, coe_drop, add_comm]
    exact hs.frames
  exact ⟨hperm, fun frame hframe hmem => hframe (hperm.mem_iff.1 hmem), hs.higher⟩

/-- A table without entries, and three frames for the tables of one page. -/
def emptySpace : VMemAllocator := newUserAllocator (fun _ => .empty) ⟨[some 1, some 2, some 3], [], []⟩

open TreeMapper

theorem table_frames_conserved_page :
    let s := (SpaceCall.run (.mapFixed ⟨0, 4096⟩ 0 0) emptySpace).2
    s.frames.allocated = [3, 2, 1] ∧ (s.frames.freed ++ drop s).Perm s.frames.allocated ∧
    (∀ frame ∉ s.frames.allocated, frame ∉ s.frames.freed ++ drop s) ∧
    ∀ i : Fin 512, 256 ≤ i.val → s.pageTable i = .empty := by
  have hrun : Runs SpaceCall.run (fun _ c _ => c.Lower) emptySpace
      (SpaceCall.run (.mapFixed ⟨0, 4096⟩ 0 0) emptySpace).2 :=
    Runs.start.next trivial
  exact ⟨by decide +kernel, table_frames_conserved (fun _ => .empty) [some 1, some 2, some 3] hrun⟩

/-- A page that is mapped in the higher half gets tables which `drop` does not visit. -/
theorem higher_frames_kept :
    let s := (SpaceCall.run (.map ⟨2 ^ 64 - 2 ^ 47, 4096⟩ 0 0) emptySpace).2
    (SpaceCall.run (.map ⟨2 ^ 64 - 2 ^ 47, 4096⟩ 0 0) emptySpace).1 = .ok () ∧
    s.frames.allocated = [3, 2, 1] ∧ s.frames.freed ++ drop s = [] := by
  decide +kernel

end VMemAllocator

end MaramOS
