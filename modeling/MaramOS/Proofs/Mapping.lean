import MaramOS.Proofs.Tiling

/-! Where `map` and `map_fixed` send the addresses of a region. -/

namespace MaramOS

open Prog PageTable

namespace VMemAllocator

variable {s s' s0 : VMemAllocator} {owned : Set ℕ} {r : VirtualRegion} {flags : PageTableFlags} {k n size start phys : ℕ}

section

variable (h : Mapped start phys size flags s)
include h

theorem Mapped.found {i : ℕ} (hi : i < size) :
    ∃ k x, s.pageTable.lookup (start + i) = some (k, x) ∧ x.flags = flags := by
  obtain ⟨k, x, hfound, -, hflags⟩ := h i hi
  exact ⟨k, x, hfound, hflags⟩

theorem Mapped.congr (hsame : ∀ i < size, s'.pageTable.lookup (start + i) = s.pageTable.lookup (start + i)) :
    Mapped start phys size flags s' := by
  intro i hi
  rw [hsame i hi]
  exact h i hi

end

theorem map_mapped [Mapper] [Mapper.PartialMap] (hr : r.Paged) (hlower : r.start < 2 ^ 47)
    (hphys : pageSize 0 ∣ phys) (hrun : map r phys flags s = (.ok (), s')) :
    Mapped r.start phys r.size (flags ||| PageTableFlags.PRESENT) s' := by
  obtain ⟨ks, htotal, htiled⟩ := map_tiled hr.start (canonicalAddr_of_lt hlower) hrun
  rw [Nat.div_mul_cancel hphys] at htiled
  rw [(divCeil_mul_eq_iff (pageSize_pos 0)).2 hr.size] at htotal
  rw [← htotal]
  exact htiled.mapped

/-- What a successful `map_fixed` has done. -/
structure Fixed (r : VirtualRegion) (phys : ℕ) (flags : PageTableFlags) (s0 s : VMemAllocator) : Prop where
  paged : r.Paged
  free : r.addresses ⊆ freeSet s0
  mapped : Mapped r.start phys r.size (flags ||| PageTableFlags.PRESENT) s
  whole : Whole r s
  others : ∀ w, w % 2 ^ 48 ∉ r.addresses → s.pageTable.lookup w = s0.pageTable.lookup w

theorem Separate.fixed [Mapper] [Mapper.PartialMap] (h : Separate owned s) (hsize : 0 < r.size)
    (hphys : pageSize 0 ∣ phys)
    (hrun : mapFixed r phys flags s = (.ok (), s')) : Fixed r phys flags s s' := by
  rw [VMemAllocator.mapFixed] at hrun
  rcases reserve_cases r s with ⟨a', hdvd, hstart, hres, hreserved⟩ | ⟨a', -, hreserved⟩
  swap
  · obtain ⟨_, _, hok, -⟩ := run_bind_ok hrun
    rw [hreserved] at hok
    cases hok
  obtain ⟨hend, hsub, -, -⟩ := (h.reserve hres).1 rfl
  have hr : r.Paged := ⟨Nat.dvd_of_mod_eq_zero hstart, Nat.dvd_of_mod_eq_zero hdvd, hend.resolve_left hsize.ne'⟩
  have hlower := hr.lower
  have hnone : ∀ w, w % 2 ^ 48 ∈ r.addresses → s.pageTable.lookup w = none := fun w hw => by
    rw [← lookup_mod]
    exact h.unmapped (hsub hw)
  rw [run_bind hreserved] at hrun
  have hout := map_outside hr phys flags { s with allocator := a' }
  have hwhole : Whole r (VMemAllocator.map r phys flags { s with allocator := a' }).2 :=
    map_whole hr phys flags fun w k x hw hfound => by cases (hnone w hw).symm.trans hfound
  rcases hmap : VMemAllocator.map r phys flags { s with allocator := a' } with ⟨e | _, s1⟩
  · -- after a failed `map`, an error is returned
    obtain ⟨res, s2, hattempt, hrest⟩ := run_bind_ok hrun
    simp only [attempt, hmap] at hattempt
    cases e with
    | memory e =>
      cases hattempt
      obtain ⟨_, _, -, hfail⟩ := run_bind_ok hrest
      cases hfail
    | panic => cases hattempt
    | diverge => cases hattempt
  · have hattempt : attempt (VMemAllocator.map r phys flags) { s with allocator := a' } = (.ok (.ok ()), s1) := by
      simp only [attempt, hmap]
    rw [run_bind hattempt] at hrun
    cases hrun
    rw [hmap] at hout hwhole
    exact ⟨hr, hsub, map_mapped hr (by omega) hphys hmap, hwhole, hout.lookup⟩

end VMemAllocator

end MaramOS
