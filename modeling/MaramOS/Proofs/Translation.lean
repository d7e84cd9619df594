import MaramOS.Spec.Virt

/-! The pages that addresses lie in, and what the calls of the mapper do to the translations
of an address space. -/

namespace MaramOS

open RadixTree

variable {v w k : ℕ}

theorem samePage_succ (hk : k < 4) :
    SamePage k v w ↔ pageIndex v k = pageIndex w k ∧ SamePage (k + 1) v w := by
  simp only [SamePage, pageIndex, Fin.mk.injEq]
  interval_cases k <;> simp only [pageSize] <;> omega

theorem agree_iff_samePage (hk : k ≤ 4) : RadixTree.Agree k 4 (pageIndex v) (pageIndex w) ↔ SamePage k v w := by
  induction hk using Nat.decreasingInduction with
  | self =>
    refine iff_of_true (fun j hj hlt => by omega) ?_
    simp only [SamePage, pageSize]
    omega
  | of_succ k hk ih =>
    rw [samePage_succ hk, ← ih]
    refine ⟨fun h => ⟨h k le_rfl hk, fun j hj hlt => h j (by omega) hlt⟩, fun h j hj hlt => ?_⟩
    rcases hj.eq_or_lt with rfl | hj
    · exact h.1
    · exact h.2 j hj hlt

theorem refused_drop {grants : List (Option ℕ)} {c i : ℕ} : Refused (grants.drop c) i ↔ Refused grants (c + i) := by
  rw [Refused, Refused, List.getElem?_drop]

namespace PageTable

variable {t : PageTable}

theorem lookup_update {e : PageTableEntry 3} :
    lookup (Function.update t (pageIndex v 3) e) w =
      if pageIndex w 3 = pageIndex v 3 then e.find (pageIndex w) else t.lookup w := by
  simp only [lookup]
  split_ifs with h
  · rw [h, Function.update_self]
  · rw [Function.update_of_ne h]

theorem samePage_iff (hk : k ≤ 3) :
    SamePage k w v ↔ pageIndex w 3 = pageIndex v 3 ∧ RadixTree.Agree k 3 (pageIndex w) (pageIndex v) := by
  rw [← agree_iff_samePage (by omega), agree_succ hk]

theorem lookup_samePage {x : MappedPage} (h : t.lookup v = some (k, x)) (hw : SamePage k w v) :
    t.lookup w = some (k, x) := by
  have hk : k ≤ 3 := find_level h
  obtain ⟨hroot, hagree⟩ := (samePage_iff hk).1 hw
  rw [lookup, hroot]
  exact find_agree h hagree

theorem lookup_mod (t : PageTable) (w : ℕ) : t.lookup (w % 2 ^ 48) = t.lookup w := by
  have hpage : ∀ k, SamePage k (w % 2 ^ 48) w := fun k => by rw [SamePage, Nat.mod_mod]
  cases hw : t.lookup w with
  | some p => exact lookup_samePage hw (hpage p.1)
  | none =>
    cases hmod : t.lookup (w % 2 ^ 48) with
    | none => rfl
    | some p =>
      rw [lookup_samePage hmod (hpage p.1).symm] at hw
      cases hw

end PageTable

namespace VMemAllocator

open Mapper.PartialMap

variable [Mapper] [Mapper.PartialMap]

theorem mapPage_lookup (hk : k ≤ 2) (v phys : ℕ) (flags : PageTableFlags) (s : VMemAllocator) :
    (mapPage k v phys flags s).2.allocator = s.allocator ∧
    ((mapPage k v phys flags s).1 = .ok () ∧
        (∀ w, SamePage k w v →
          (mapPage k v phys flags s).2.pageTable.lookup w = some (k, ⟨phys / pageSize k * pageSize k, flags⟩) ∧
          s.pageTable.lookup w = none) ∧
        (∀ w, ¬SamePage k w v → (mapPage k v phys flags s).2.pageTable.lookup w = s.pageTable.lookup w) ∨
      (mapPage k v phys flags s).1 = .error (.memory .invalidMapping) ∧
        ∀ w, (mapPage k v phys flags s).2.pageTable.lookup w = s.pageTable.lookup w) := by
  refine ⟨rfl, ?_⟩
  simp only [mapPage]
  rcases hrun : Mapper.mapTo k v ⟨phys / pageSize k * pageSize k, flags⟩ s.pageTable s.frames with ⟨err | u, t', fs'⟩
  · exact .inr ⟨rfl, mapTo_error hk hrun⟩
  · exact .inl ⟨rfl, mapTo_ok hk hrun⟩

variable {s s' : VMemAllocator}

omit [Mapper.PartialMap] in
theorem unmapPage_ok (h : unmapPage k v s = (.ok (.ok ()), s')) :
    ∃ t, Mapper.unmap k v s.pageTable = .ok t ∧ s' = { s with pageTable := t } := by
  simp only [unmapPage] at h
  cases hrun : Mapper.unmap k v s.pageTable with
  | error err =>
    rw [hrun] at h
    cases h
  | ok t =>
    rw [hrun] at h
    cases h
    exact ⟨t, rfl, rfl⟩

theorem unmapPage_lookup (hk : k ≤ 2) (h : unmapPage k v s = (.ok (.ok ()), s')) :
    s'.allocator = s.allocator ∧
    (∀ w, SamePage k w v → s'.pageTable.lookup w = none) ∧
    ∀ w, ¬SamePage k w v → s'.pageTable.lookup w = s.pageTable.lookup w := by
  obtain ⟨t, hrun, rfl⟩ := unmapPage_ok h
  obtain ⟨hpage, hother⟩ := unmap_ok hk hrun
  exact ⟨rfl, fun w hw => (hpage w hw).1, hother⟩

theorem unmapPage_found (hk : k ≤ 2) (h : unmapPage k v s = (.ok (.ok ()), s')) :
    ∃ x, s.pageTable.lookup v = some (k, x) := by
  obtain ⟨t, hrun, rfl⟩ := unmapPage_ok h
  exact ((unmap_ok hk hrun).1 v rfl).2

theorem unmapPage_error {err : UnmapError} (h : unmapPage 0 v s = (.ok (.error err), s')) :
    err = .pageNotMapped ∧ s.pageTable.lookup v = none ∨
    err = .parentEntryHugePage ∧ ∃ k x, 0 < k ∧ s.pageTable.lookup v = some (k, x) := by
  simp only [unmapPage] at h
  cases hrun : Mapper.unmap 0 v s.pageTable with
  | error err' =>
    rw [hrun] at h
    cases h
    exact unmap_error hrun
  | ok t =>
    rw [hrun] at h
    cases h

theorem unmapPage_mapped (hk : k ≤ 2) {x : MappedPage} (h : s.pageTable.lookup v = some (k, x)) :
    ∃ s', unmapPage k v s = (.ok (.ok ()), s') := by
  obtain ⟨t, hrun⟩ := unmap_mapped hk h
  simp only [unmapPage, hrun]
  exact ⟨_, rfl⟩

theorem cleanUpAddrRange_lookup (first last : ℕ) (s : VMemAllocator) :
    ∃ s', cleanUpAddrRange first last s = (.ok (), s') ∧ s'.allocator = s.allocator ∧
      ∀ w, s'.pageTable.lookup w = s.pageTable.lookup w :=
  ⟨_, rfl, rfl, fun w => cleanUp_lookup _ _ _ w⟩

end VMemAllocator

end MaramOS
