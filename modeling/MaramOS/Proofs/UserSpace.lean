import MaramOS.Proofs.TableFrames
import MaramOS.Proofs.Translation

/-! Free addresses and mapped addresses of a user address space. What has been
handed out is owned by the caller: only owned addresses are mapped, and no owned
address is free. -/

namespace MaramOS

open Prog RangeAllocator PageTable

variable {k v w addr : ℕ} {r : VirtualRegion}

def VirtualRegion.addresses (r : VirtualRegion) : Set ℕ := Set.Ico r.start (r.start + r.size)

/-- A region of whole pages in the lower half. -/
structure VirtualRegion.Paged (r : VirtualRegion) : Prop where
  start : pageSize 0 ∣ r.start
  size : pageSize 0 ∣ r.size
  lower : r.start + r.size ≤ 2 ^ 47

theorem samePage_of_le (h : SamePage 0 v w) (hk : k ≤ 4) : SamePage k v w :=
  (agree_iff_samePage hk).1 fun j _ hj => (agree_iff_samePage (by norm_num)).2 h j (Nat.zero_le j) hj

theorem pageSize_le (hk : k ≤ 3) : pageSize k ≤ 2 ^ 39 := Nat.pow_le_pow_right (by norm_num) (by omega)

theorem samePage_iff_mem (hdvd : pageSize k ∣ addr) (haddr : addr < 2 ^ 47) :
    SamePage k w addr ↔ w % 2 ^ 48 ∈ Set.Ico addr (addr + pageSize k) := by
  obtain ⟨q, rfl⟩ := hdvd
  have hpos := pageSize_pos k
  rw [SamePage, Nat.mod_eq_of_lt (haddr.trans (by norm_num)), Nat.mul_div_cancel_left q hpos, Set.mem_Ico,
    Nat.div_eq_iff hpos, Nat.mul_comm q]
  omega

namespace VirtualRegion

theorem Paged.dvd (h : r.Paged) (ht : r.Touches k addr) : pageSize k ∣ addr := by
  rcases Nat.eq_zero_or_pos k with rfl | hpos
  · exact Nat.dvd_of_mod_eq_zero (ht.step.trans (Nat.mod_eq_zero_of_dvd h.start))
  · exact (ht.huge hpos).1

theorem Paged.page_le (h : r.Paged) (ht : r.Touches k addr) : addr + pageSize k ≤ r.start + r.size := by
  rcases Nat.eq_zero_or_pos k with rfl | hpos
  · obtain ⟨q, hq⟩ := Nat.dvd_add h.start h.size
    obtain ⟨p, rfl⟩ := h.dvd ht
    have hstop := ht.stop
    rw [hq] at hstop ⊢
    have hlt : p + 1 ≤ q := Nat.lt_of_mul_lt_mul_left hstop
    exact (Nat.mul_succ _ p).symm.trans_le (Nat.mul_le_mul_left _ hlt)
  · exact (ht.huge hpos).2

theorem Paged.page_mem (h : r.Paged) (ht : r.Touches k addr) (hw : SamePage k w addr) : w % 2 ^ 48 ∈ r.addresses := by
  have hlower := h.lower
  have hstop := ht.stop
  obtain ⟨hge, hlt⟩ := (samePage_iff_mem (h.dvd ht) (by omega)).1 hw
  exact ⟨ht.start.trans hge, hlt.trans_le (h.page_le ht)⟩

end VirtualRegion

namespace VMemAllocator

variable {s s0 s' : VMemAllocator} {owned : Set ℕ} {phys : ℕ} {flags : PageTableFlags}

/-- Only translations of the region have changed. -/
structure Outside (r : VirtualRegion) (s0 s : VMemAllocator) : Prop where
  allocator : s.allocator = s0.allocator
  lookup : ∀ w, w % 2 ^ 48 ∉ r.addresses → s.pageTable.lookup w = s0.pageTable.lookup w

def Whole (r : VirtualRegion) (s : VMemAllocator) : Prop :=
  ∀ w k x, w % 2 ^ 48 ∈ r.addresses → s.pageTable.lookup w = some (k, x) →
    k ≤ 2 ∧ ∀ v, SamePage k v w → v % 2 ^ 48 ∈ r.addresses

section Map

variable [Mapper] [Mapper.PartialMap]

theorem Outside.mapPage (h : Outside r s0 s) (hr : r.Paged) (ht : r.Touches k addr) :
    Outside r s0 (mapPage k addr phys flags s).2 := by
  obtain ⟨halloc, hlookup⟩ := mapPage_lookup ht.level addr phys flags s
  refine ⟨halloc.trans h.allocator, fun w hw => ?_⟩
  rcases hlookup with ⟨-, -, hother⟩ | ⟨-, hsame⟩
  · exact (hother w fun hpage => hw (hr.page_mem ht hpage)).trans (h.lookup w hw)
  · exact (hsame w).trans (h.lookup w hw)

theorem Whole.mapPage (h : Whole r s) (hr : r.Paged) (ht : r.Touches k addr) : Whole r (mapPage k addr phys flags s).2 := by
  intro w j x hw hj
  rcases (mapPage_lookup ht.level addr phys flags s).2 with ⟨-, hpage, hother⟩ | ⟨-, hsame⟩
  · by_cases hin : SamePage k w addr
    · rw [(hpage w hin).1] at hj
      cases hj
      exact ⟨ht.level, fun v hv => hr.page_mem ht (hv.trans hin)⟩
    · rw [hother w hin] at hj
      exact h w j x hw hj
  · rw [hsame w] at hj
    exact h w j x hw hj

theorem map_outside (hr : r.Paged) (phys : ℕ) (flags : PageTableFlags) (s : VMemAllocator) :
    Outside r s (map r phys flags s).2 :=
  map_keeps (fun _ _ _ _ _ ht hs => hs.mapPage hr ht) ⟨rfl, fun _ _ => rfl⟩

theorem map_whole (hr : r.Paged) (phys : ℕ) (flags : PageTableFlags) (h : Whole r s) : Whole r (map r phys flags s).2 :=
  map_keeps (fun _ _ _ _ _ ht hs => hs.mapPage hr ht) h

end Map

section Unmap

variable [Mapper] [Mapper.PartialMap]

/-- The loop of `unmap` has come to `curr`. -/
structure Cleared (r : VirtualRegion) (s0 : VMemAllocator) (curr : ℕ) (s : VMemAllocator) : Prop where
  outside : Outside r s0 s
  below : ∀ w, w % 2 ^ 48 ∈ r.addresses → w % 2 ^ 48 < curr → s.pageTable.lookup w = none
  fewer : ∀ w, s.pageTable.lookup w = none ∨ s.pageTable.lookup w = s0.pageTable.lookup w

section

variable (h : Cleared r s0 addr s) (hr : r.Paged)
include h hr

theorem Cleared.unmapped (ht : r.Touches k addr) (hrun : unmapPage k addr s = (.ok (.ok ()), s')) :
    Cleared r s0 (addr + pageSize k) s' := by
  obtain ⟨halloc, hgone, hother⟩ := unmapPage_lookup ht.level hrun
  have haddr : addr < 2 ^ 47 := ht.stop.trans_le hr.lower
  refine ⟨⟨halloc.trans h.outside.allocator, fun w hw => ?_⟩, fun w hw hlt => ?_, fun w => ?_⟩
  · exact (hother w fun hin => hw (hr.page_mem ht hin)).trans (h.outside.lookup w hw)
  · by_cases hin : SamePage k w addr
    · exact hgone w hin
    · rw [hother w hin]
      refine h.below w hw (Nat.lt_of_not_le fun hge => hin ?_)
      exact (samePage_iff_mem (hr.dvd ht) haddr).2 ⟨hge, hlt⟩
  · by_cases hin : SamePage k w addr
    · exact .inl (hgone w hin)
    · rw [hother w hin]
      exact h.fewer w

theorem Cleared.skipped (ht : r.Touches 0 addr) (hrun : unmapPage 0 addr s = (.ok (.error .pageNotMapped), s)) :
    Cleared r s0 (addr + pageSize 0) s := by
  have haddr : addr < 2 ^ 47 := ht.stop.trans_le hr.lower
  refine ⟨h.outside, fun w hw hlt => ?_, h.fewer⟩
  rcases unmapPage_error hrun with ⟨-, hnone⟩ | ⟨herr, -⟩
  swap
  · cases herr
  by_cases hge : addr ≤ w % 2 ^ 48
  · have hin : SamePage 0 w addr := (samePage_iff_mem (hr.dvd ht) haddr).2 ⟨hge, hlt⟩
    -- a leaf at `w` would be one at `addr`
    cases hw : s.pageTable.lookup w with
    | none => rfl
    | some p =>
      have hlevel : p.1 ≤ 3 := RadixTree.find_level hw
      rw [lookup_samePage hw (samePage_of_le hin.symm (by omega))] at hnone
      cases hnone
  · exact h.below w hw (Nat.lt_of_not_le hge)

theorem Cleared.not_huge (ht : r.Touches 0 addr) (hwhole : Whole r s0)
    (hpassed : ∀ k, 0 < k → k ≤ 2 → Passed (r.start + r.size) k addr s)
    (hrun : unmapPage 0 addr s = (.ok (.error .parentEntryHugePage), s)) : False := by
  have haddr : addr < 2 ^ 47 := ht.stop.trans_le hr.lower
  have hmod : addr % 2 ^ 48 = addr := Nat.mod_eq_of_lt (by omega)
  rcases unmapPage_error hrun with ⟨herr, -⟩ | ⟨-, k, x, hpos, hfound⟩
  · cases herr
  have hfound0 : s0.pageTable.lookup addr = some (k, x) := by
    rcases h.fewer addr with hnone | hsame
    · rw [hfound] at hnone
      cases hnone
    · rw [← hsame, hfound]
  obtain ⟨hk, hpage⟩ := hwhole addr k x (by rw [hmod]; exact ⟨ht.start, ht.stop⟩) hfound0
  have hsize := pageSize_pos k
  have hbase : addr / pageSize k * pageSize k ≤ addr := Nat.div_mul_le_self _ _
  have hdvd : pageSize k ∣ addr / pageSize k * pageSize k := Dvd.intro_left _ rfl
  have hle := pageSize_le (hk.trans (by norm_num))
  have hmem : ∀ v, v < 2 ^ 48 → v ∈ Set.Ico (addr / pageSize k * pageSize k) (addr / pageSize k * pageSize k + pageSize k) →
      SamePage k v addr := by
    intro v hv hin
    have hself := (samePage_iff_mem hdvd (hbase.trans_lt haddr)).2
      (show addr % 2 ^ 48 ∈ _ by rw [hmod]; exact ⟨hbase, Nat.lt_div_mul_add hsize⟩)
    refine ((samePage_iff_mem hdvd (hbase.trans_lt haddr)).2 ?_).trans hself.symm
    rwa [Nat.mod_eq_of_lt hv]
  -- the first address of the page is not below `addr`, and the last one is in the region
  have hfirst := hmem (addr / pageSize k * pageSize k) (by omega) ⟨le_rfl, by omega⟩
  have heq : addr / pageSize k * pageSize k = addr := by
    refine hbase.antisymm (Nat.not_lt.1 fun hlt => ?_)
    have hin := hpage _ hfirst
    have hnone := h.below _ hin (by rwa [Nat.mod_eq_of_lt (by omega)])
    rw [lookup_samePage hfound hfirst] at hnone
    cases hnone
  have hlast := hpage _ (hmem (addr / pageSize k * pageSize k + pageSize k - 1) (by omega) ⟨by omega, by omega⟩)
  rw [Nat.mod_eq_of_lt (by omega)] at hlast
  obtain ⟨s', hrun'⟩ := unmapPage_mapped hk hfound
  have hstop := hlast.2
  exact hpassed k hpos hk (by omega) (heq ▸ hdvd) s' hrun'

end

/-- How `unmap` can fail: at a huge page that reaches out of the region, or by a panic. -/
structure Stopped (r : VirtualRegion) (s0 : VMemAllocator) (e : MemoryFault) (s : VMemAllocator) : Prop where
  outside : Outside r s0 s
  fewer : ∀ w, s.pageTable.lookup w = none ∨ s.pageTable.lookup w = s0.pageTable.lookup w
  cause : Whole r s0 → ∀ m, e ≠ .memory m

omit [Mapper] [Mapper.PartialMap] in
theorem Cleared.panics {curr : ℕ} (h : Cleared r s0 curr s) : Stopped r s0 .panic s :=
    ⟨h.outside, h.fewer, fun _ _ h => nomatch h⟩

theorem unmap_wp (hr : r.Paged) : wp (unmap r) s (fun _ => Cleared r s (r.start + r.size)) (Stopped r s) := by
  have hstart : Cleared r s r.start s :=
    ⟨⟨rfl, fun _ _ => rfl⟩, fun w hw hlt => absurd hw.1 (Nat.not_le.2 hlt), fun _ => .inr rfl⟩
  rw [unmap]
  refine wp_bind.2 (wp_virtAddr (fun _ => ?_) fun _ => hstart.panics)
  have hloop := @unmapLoop_wp s r _ (Cleared r s) (Stopped r s) _ rfl
    (fun k curr s1 s2 ht h hrun => h.unmapped hr ht hrun) (fun curr s1 ht h hrun => h.skipped hr ht hrun)
    (fun curr s1 ht h hpassed hrun => ⟨h.outside, h.fewer, fun hwhole => (h.not_huge hr ht hwhole hpassed hrun).elim⟩)
    (fun curr s1 h _ => h.panics) (r.size + 1) r.start le_rfl rfl id (by omega) hstart
  refine wp_seq hloop (fun _ s1 hs1 => ?_) fun _ _ h => h
  obtain ⟨last, hlast, -, hs1⟩ := hs1
  rw [virtSub]
  split_ifs with hpos
  · refine wp_bind.2 (wp_virtAddr (fun _ => ?_) fun _ => hs1.panics)
    obtain ⟨s2, hrun, halloc, hsame⟩ := cleanUpAddrRange_lookup r.start (r.start + r.size - 1) s1
    refine wp_of_run hrun ⟨⟨halloc.trans hs1.outside.allocator, fun w hw => ?_⟩, fun w hw hlt => ?_, fun w => ?_⟩
    · exact (hsame w).trans (hs1.outside.lookup w hw)
    · exact (hsame w).trans (hs1.below w hw (hlt.trans_le hlast))
    · rw [hsame w]
      exact hs1.fewer w
  · exact wp_bind.2 (wp_fail.2 hs1.panics)

end Unmap

section Calls

def freeSet (s : VMemAllocator) : Set ℕ := span s.allocator.ranges

structure Separate (owned : Set ℕ) (s : VMemAllocator) : Prop where
  lower : owned ⊆ Set.Iio (2 ^ 47)
  within : Within (2 ^ 47) s.allocator.ranges
  apart : Apart s.allocator.ranges
  disjoint : Disjoint (freeSet s) owned
  mapped : ∀ w < 2 ^ 47, s.pageTable.lookup w ≠ none → w ∈ owned

theorem freeSet_lower (h : Within (2 ^ 47) s.allocator.ranges) (hv : v ∈ freeSet s) : v < 2 ^ 47 := by
  obtain ⟨q, hq, -, hlt⟩ := mem_span.1 hv
  exact hlt.trans_le (h q hq)

theorem Separate.unmapped (h : Separate owned s) (hv : v ∈ freeSet s) : s.pageTable.lookup v = none :=
  by_contra fun hne => Set.disjoint_left.1 h.disjoint hv (h.mapped v (freeSet_lower h.within hv) hne)

theorem Separate.map [Mapper] [Mapper.PartialMap] (h : Separate owned s) (hr : r.Paged) (hsub : r.addresses ⊆ owned)
    (phys : ℕ) (flags : PageTableFlags) : Separate owned (map r phys flags s).2 := by
  have hout := map_outside hr phys flags s
  refine ⟨h.lower, hout.allocator ▸ h.within, hout.allocator ▸ h.apart, ?_, fun w hw hne => ?_⟩
  · rw [freeSet, hout.allocator]
    exact h.disjoint
  · by_cases hin : w ∈ r.addresses
    · exact hsub hin
    · rw [hout.lookup w (by rwa [Nat.mod_eq_of_lt (by omega)])] at hne
      exact h.mapped w hw hne

theorem Separate.free_wp [Mapper] [Mapper.PartialMap] (h : Separate owned s) (hr : r.Paged) (hsub : r.addresses ⊆ owned) :
    wp (free r) s
      (fun _ s' => Separate (owned \ r.addresses) s' ∧ freeSet s' = freeSet s ∪ r.addresses ∧
        (∀ w, w % 2 ^ 48 ∉ r.addresses → s'.pageTable.lookup w = s.pageTable.lookup w) ∧
        ∀ w, w % 2 ^ 48 ∈ r.addresses → s'.pageTable.lookup w = none)
      fun e s' => Separate owned s' ∧ (Whole r s → ∀ m, e ≠ .memory m) := by
  rw [VMemAllocator.free]
  refine wp_seq (unmap_wp hr) (fun _ s1 hs1 => ?_) fun e s1 hs1 => ⟨?_, hs1.cause⟩
  · obtain ⟨hwithin, hspan, hapart⟩ := free_weak (a := s1.allocator) (by norm_num)
      (hs1.outside.allocator ▸ h.within) hr.lower
    have hfree : freeSet s1 = freeSet s := by rw [freeSet, hs1.outside.allocator, freeSet]
    have hdisj : Disjoint (freeSet s1) r.addresses := hfree ▸ h.disjoint.mono_right hsub
    have hgone : ∀ w, w % 2 ^ 48 ∈ r.addresses → s1.pageTable.lookup w = none := fun w hw => hs1.below w hw hw.2
    refine wp_of_run (onAllocator_run rfl)
      ⟨⟨Set.sdiff_subset.trans h.lower, hwithin, (hapart (hs1.outside.allocator ▸ h.apart) hdisj).1, ?_,
        fun w hw hne => ?_⟩, ?_, hs1.outside.lookup, hgone⟩
    · show Disjoint (span (s1.allocator.free r.start r.size).ranges) _
      rw [hspan]
      refine Set.disjoint_union_left.2 ⟨?_, Set.disjoint_sdiff_right⟩
      exact (hfree ▸ h.disjoint : Disjoint (freeSet s1) owned).mono_right Set.sdiff_subset
    · have hmod : w % 2 ^ 48 = w := Nat.mod_eq_of_lt (by omega)
      have hout : w ∉ r.addresses := fun hin => hne (hgone w (by rwa [hmod]))
      refine ⟨h.mapped w hw ?_, hout⟩
      rw [← hs1.outside.lookup w (by rwa [hmod])]
      exact hne
    · show span (s1.allocator.free r.start r.size).ranges = _
      rw [hspan, ← hfree]
      rfl
  · refine ⟨h.lower, hs1.outside.allocator ▸ h.within, hs1.outside.allocator ▸ h.apart, ?_, fun w hw hne => ?_⟩
    · rw [freeSet, hs1.outside.allocator]
      exact h.disjoint
    · rcases hs1.fewer w with hnone | hsame
      · exact absurd hnone hne
      · rw [hsame] at hne
        exact h.mapped w hw hne

theorem Separate.reserve (h : Separate owned s) {a' : RangeAllocator} {ok : Bool}
    (hrun : s.allocator.reserve r.start r.size = (ok, a')) :
    (ok = true → (r.size = 0 ∨ r.start + r.size ≤ 2 ^ 47) ∧ r.addresses ⊆ freeSet s ∧
      freeSet { s with allocator := a' } = freeSet s \ r.addresses ∧
      Separate (owned ∪ r.addresses) { s with allocator := a' }) ∧
    (ok = false → freeSet { s with allocator := a' } = freeSet s ∧ Separate owned { s with allocator := a' }) := by
  obtain ⟨hwithin, hapart, hok, hfail, -⟩ := reserve_weak (by norm_num) h.within hrun
  refine ⟨fun htrue => ?_, fun hfalse => ?_⟩
  · obtain ⟨hend, hsub, hspan⟩ := hok htrue
    refine ⟨hend, hsub, hspan, Set.union_subset h.lower fun v hv => freeSet_lower h.within (hsub hv), hwithin,
      hapart h.apart, ?_, fun w hw hne => .inl (h.mapped w hw hne)⟩
    show Disjoint (span a'.ranges) _
    rw [hspan]
    exact Set.disjoint_union_right.2 ⟨h.disjoint.mono_left Set.sdiff_subset, Set.disjoint_sdiff_left⟩
  · have hspan := hfail hfalse
    refine ⟨hspan, h.lower, hwithin, hapart h.apart, ?_, h.mapped⟩
    show Disjoint (span a'.ranges) _
    rw [hspan]
    exact h.disjoint

theorem Separate.alloc (h : Separate owned s) {count : ℕ} (hcount : wmul count (pageSize 0) + 2 ^ 47 < 2 ^ 64)
    {res : Option VirtualRegion} (hrun : alloc count s = (.ok res, s')) :
    Separate (owned ∪ res.elim ∅ VirtualRegion.addresses) s' := by
  rcases alloc_cases count s with hnone | ⟨align, start, a', halign, hres, hsome⟩
  · rw [hnone] at hrun
    cases hrun
    rw [Option.elim_none, Set.union_empty]
    exact h
  · have hdvd : align ∣ 2 ^ 47 := by
      rcases halign with rfl | rfl | rfl <;> exact pow_dvd_pow 2 (by norm_num)
    have hpos : 0 < align := Nat.pos_of_dvd_of_pos hdvd (by norm_num)
    obtain ⟨-, hend, hsub, hwithin, hapart⟩ :=
      allocate_noWrap (by omega) h.within hpos (noWrap_of_bound (by omega) h.within hpos hdvd) hres
    obtain ⟨hapart', hspan, -⟩ := hapart h.apart
    rw [hsome] at hrun
    split_ifs at hrun
    swap
    · cases hrun
    cases hrun
    refine ⟨Set.union_subset h.lower fun v hv => hv.2.trans_le hend, hwithin, hapart', ?_,
      fun w hw hne => .inl (h.mapped w hw hne)⟩
    show Disjoint (span a'.ranges) _
    rw [hspan]
    exact Set.disjoint_union_right.2 ⟨h.disjoint.mono_left Set.sdiff_subset, Set.disjoint_sdiff_left⟩

theorem Separate.mapFixed_wp [Mapper] [Mapper.PartialMap] (h : Separate owned s) (r : VirtualRegion) (phys : ℕ)
    (flags : PageTableFlags) :
    wp (mapFixed r phys flags) s (fun _ => Separate (owned ∪ r.addresses)) fun e s' => ∀ m, e = .memory m →
      Separate owned s' ∧ freeSet s' = freeSet s ∧ ∀ w, s'.pageTable.lookup w = s.pageTable.lookup w := by
  rw [VMemAllocator.mapFixed]
  rcases reserve_cases r s with ⟨a', hsize, hstart, hres, hrun⟩ | ⟨a', hres, hrun⟩
  · obtain ⟨hend, hsub, hfree, hs1⟩ := (h.reserve hres).1 rfl
    refine wp_bind.2 (wp_of_run hrun ?_)
    by_cases hzero : r.size = 0
    · exact wp_bind.2 (wp_attempt.2 (wp_of_run (map_nothing hzero phys flags _) (wp_pure.2 hs1)))
    have hr : r.Paged := ⟨Nat.dvd_of_mod_eq_zero hstart, Nat.dvd_of_mod_eq_zero hsize, hend.resolve_left hzero⟩
    have hnone : ∀ w, w % 2 ^ 48 ∈ r.addresses → s.pageTable.lookup w = none := fun w hw => by
      rw [← lookup_mod]
      exact h.unmapped (hsub hw)
    have hout := map_outside hr phys flags { s with allocator := a' }
    have hwhole : Whole r (VMemAllocator.map r phys flags { s with allocator := a' }).2 :=
      map_whole hr phys flags fun w k x hw hfound => by cases (hnone w hw).symm.trans hfound
    have hs2 := hs1.map hr Set.subset_union_right phys flags
    have hmap : wp (VMemAllocator.map r phys flags) { s with allocator := a' }
        (fun _ s2 => s2 = (VMemAllocator.map r phys flags { s with allocator := a' }).2)
        fun _ s2 => s2 = (VMemAllocator.map r phys flags { s with allocator := a' }).2 := wp_keeps.2 rfl
    refine wp_bind.2 (wp_attempt.2 (wp_mono hmap (fun _ s2 h2 => wp_pure.2 (h2 ▸ hs2)) fun e s2 h2 => ?_))
    subst h2
    cases e with
    | panic => exact fun m hm => by cases hm
    | diverge => exact fun m hm => by cases hm
    | memory e =>
      refine wp_seq (hs2.free_wp hr Set.subset_union_right) (fun _ s3 hs3 => wp_fail.2 fun _ _ => ?_)
        fun e s3 hs3 m hm => absurd hm (hs3.2 hwhole m)
      obtain ⟨hs3, hfree', hsame, hgone⟩ := hs3
      refine ⟨?_, ?_, fun w => ?_⟩
      · have hdisj : Disjoint owned r.addresses := (h.disjoint.mono_left hsub).symm
        rwa [Set.union_sdiff_right, hdisj.sdiff_eq_left] at hs3
      · have hkept : freeSet (VMemAllocator.map r phys flags { s with allocator := a' }).2 = freeSet s \ r.addresses := by
          rw [← hfree, freeSet, hout.allocator]
          rfl
        rw [hfree', hkept, Set.sdiff_union_of_subset hsub]
      · by_cases hin : w % 2 ^ 48 ∈ r.addresses
        · rw [hgone w hin, hnone w hin]
        · rw [hsame w hin, hout.lookup w hin]
  · have hfail : freeSet { s with allocator := a' } = freeSet s ∧ Separate owned { s with allocator := a' } := by
      rcases hres with rfl | hres
      · exact ⟨rfl, h⟩
      · exact (h.reserve hres).2 rfl
    refine wp_bind.2 ?_
    simp only [wp, hrun]
    exact fun _ _ => ⟨hfail.2, hfail.1, fun _ => trivial⟩

end Calls

section Runs

def granted (r : VirtualRegion) : Except MemoryFault Unit → Set ℕ
  | .ok _ => r.addresses
  | .error _ => ∅

/-- The calls that callers of a user address space make; `ok` restricts them further. Regions that are
mapped or freed consist of whole pages which the callers own. A panic ends the run. -/
inductive UserRun [Mapper] (ok : SpaceCall → Prop) (active : PageTable) (grants : List (Option ℕ)) :
    VMemAllocator → Set ℕ → Prop
  | start : UserRun ok active grants (newUserAllocator active ⟨grants, [], []⟩) ∅
  | alloc {s s' : VMemAllocator} {owned : Set ℕ} {count : ℕ} {res : Option VirtualRegion} :
      UserRun ok active grants s owned → ok (.alloc count) → alloc count s = (.ok res, s') →
      UserRun ok active grants s' (owned ∪ res.elim ∅ VirtualRegion.addresses)
  | reserve {s s' : VMemAllocator} {owned : Set ℕ} {r : VirtualRegion} {res : Except MemoryFault Unit} :
      UserRun ok active grants s owned → ok (.reserve r) → reserve r s = (res, s') →
      UserRun ok active grants s' (owned ∪ granted r res)
  | map {s s' : VMemAllocator} {owned : Set ℕ} {r : VirtualRegion} {phys : ℕ} {flags : PageTableFlags}
      {res : Except MemoryFault Unit} : UserRun ok active grants s owned → ok (.map r phys flags) →
        pageSize 0 ∣ r.start → pageSize 0 ∣ r.size →
      r.addresses ⊆ owned → map r phys flags s = (res, s') → UserRun ok active grants s' owned
  | mapFixed {s s' : VMemAllocator} {owned : Set ℕ} {r : VirtualRegion} {phys : ℕ} {flags : PageTableFlags}
      {res : Except MemoryFault Unit} : UserRun ok active grants s owned → ok (.mapFixed r phys flags) →
      mapFixed r phys flags s = (res, s') →
      (∀ e, res = .error e → ∃ m, e = .memory m) → UserRun ok active grants s' (owned ∪ granted r res)
  | free {s s' : VMemAllocator} {owned : Set ℕ} {r : VirtualRegion} {res : Except MemoryFault Unit} :
      UserRun ok active grants s owned → ok (.free r) → pageSize 0 ∣ r.start → pageSize 0 ∣ r.size →
      r.addresses ⊆ owned → free r s = (res, s') → UserRun ok active grants s' (owned \ granted r res)

/-- The end of an allocation does not wrap, and a region without any page is freed in the lower half only. -/
def Bounded : SpaceCall → Prop
  | .alloc count => wmul count (pageSize 0) + 2 ^ 47 < 2 ^ 64
  | .free r => r.start ≤ 2 ^ 47
  | _ => True

theorem Separate.paged (h : Separate owned s) (hstart : pageSize 0 ∣ r.start) (hsize : pageSize 0 ∣ r.size)
    (hsub : r.addresses ⊆ owned) (hne : r.size ≠ 0) : r.Paged := by
  have hlast : r.start + r.size - 1 < 2 ^ 47 := h.lower (hsub ⟨by omega, by omega⟩)
  exact ⟨hstart, hsize, by omega⟩

theorem UserRun.separate [Mapper] [Mapper.PartialMap] {active : PageTable} {grants : List (Option ℕ)}
    (h : UserRun Bounded active grants s owned) : Separate owned s := by
  induction h with
  | start =>
    have hranges := newUserAllocator_ranges active ⟨grants, [], []⟩
    refine ⟨Set.empty_subset _, ?_, ?_, Set.disjoint_empty _, fun w hw hne => absurd ?_ hne⟩
    · exact (newUserAllocator_conserved active grants).within
    · rw [hranges]
      exact List.pairwise_singleton _ _
    · have hindex : (pageIndex w 3).val < 256 := Nat.not_le.1 fun hle => ne_pageIndex hw hle rfl
      show (userTable active (pageIndex w 3)).find _ = none
      rw [userTable, if_pos hindex, RadixTree.find_empty]
  | alloc _ hok hrun ih => exact ih.alloc hok hrun
  | @reserve s s' owned r res _ hok hrun ih =>
    rcases reserve_cases r s with ⟨a', -, -, hres, hrun'⟩ | ⟨a', hres, hrun'⟩
    · rw [hrun'] at hrun
      cases hrun
      exact ((ih.reserve hres).1 rfl).2.2.2
    · rw [hrun'] at hrun
      cases hrun
      rw [granted, Set.union_empty]
      rcases hres with rfl | hres
      · exact ih
      · exact ((ih.reserve hres).2 rfl).2
  | @map s s' owned r phys flags res _ hok hstart hsize hsub hrun ih =>
    by_cases hzero : r.size = 0
    · rw [map_nothing hzero] at hrun
      cases hrun
      exact ih
    · have := ih.map (ih.paged hstart hsize hsub hzero) hsub phys flags
      rwa [hrun] at this
  | @mapFixed s s' owned r phys flags res _ hok hrun hret ih =>
    have := ih.mapFixed_wp r phys flags
    simp only [wp, hrun] at this
    cases res with
    | ok u => exact this
    | error e =>
      obtain ⟨m, rfl⟩ := hret e rfl
      rw [granted, Set.union_empty]
      exact (this m rfl).1
  | @free s s' owned r res _ hok hstart hsize hsub hrun ih =>
    have hr : r.Paged := by
      by_cases hzero : r.size = 0
      · exact ⟨hstart, hsize, by rw [hzero]; exact hok⟩
      · exact ih.paged hstart hsize hsub hzero
    have := ih.free_wp hr hsub
    simp only [wp, hrun] at this
    cases res with
    | ok u => exact this.1
    | error e =>
      rw [granted, Set.sdiff_empty]
      exact this.1

/-- No free address is mapped, and a `map_fixed` that returns an error has changed neither. -/
theorem free_space_unmapped [Mapper] [Mapper.PartialMap] {active : PageTable} {grants : List (Option ℕ)}
    (h : UserRun Bounded active grants s owned) :
    (∀ v ∈ freeSet s, s.pageTable.lookup v = none) ∧
    ∀ r phys flags e s', mapFixed r phys flags s = (.error (.memory e), s') →
      freeSet s' = freeSet s ∧ ∀ w, s'.pageTable.lookup w = s.pageTable.lookup w := by
  refine ⟨fun v hv => h.separate.unmapped hv, fun r phys flags e s' hrun => ?_⟩
  have := h.separate.mapFixed_wp r phys flags
  simp only [wp, hrun] at this
  exact (this e rfl).2

open TreeMapper

/-- The first page is reserved and mapped, which takes all the frames. -/
def pagedSpace : VMemAllocator := (map ⟨0, 4096⟩ 0 0 (reserve ⟨0, 4096⟩ emptySpace).2).2

theorem pagedSpace_run {ok : SpaceCall → Prop} (hreserve : ok (.reserve ⟨0, 4096⟩)) (hmap : ok (.map ⟨0, 4096⟩ 0 0)) :
    UserRun ok (fun _ => .empty) [some 1, some 2, some 3] pagedSpace (∅ ∪ VirtualRegion.addresses ⟨0, 4096⟩) := by
  have hreserved : (reserve ⟨0, 4096⟩ emptySpace).1 = .ok () := by decide +kernel
  have hmapped : (map ⟨0, 4096⟩ 0 0 (reserve ⟨0, 4096⟩ emptySpace).2).1 = .ok () := by decide +kernel
  have hrun : UserRun ok (fun _ => .empty) [some 1, some 2, some 3] emptySpace ∅ := .start
  exact (hrun.reserve hreserve (run_of_result hreserved)).map hmap (dvd_zero _) (dvd_refl 4096) Set.subset_union_right
    (run_of_result hmapped)

theorem free_space_unmapped_scarce :
    (∀ v ∈ freeSet pagedSpace, pagedSpace.pageTable.lookup v = none) ∧
    pagedSpace.pageTable.lookup 0 = some (0, ⟨0, PageTableFlags.PRESENT⟩) ∧
    (mapFixed ⟨2 ^ 39, 4096⟩ 0 0 pagedSpace).1 = .error (.memory .invalidMapping) ∧
    freeSet (mapFixed ⟨2 ^ 39, 4096⟩ 0 0 pagedSpace).2 = freeSet pagedSpace ∧
    ∀ w, (mapFixed ⟨2 ^ 39, 4096⟩ 0 0 pagedSpace).2.pageTable.lookup w = pagedSpace.pageTable.lookup w := by
  have hres : (mapFixed ⟨2 ^ 39, 4096⟩ 0 0 pagedSpace).1 = .error (.memory .invalidMapping) := by decide +kernel
  obtain ⟨hfree, hfixed⟩ := free_space_unmapped (@pagedSpace_run Bounded trivial trivial)
  exact ⟨hfree, by decide +kernel, hres, hfixed _ _ _ _ _ (run_of_result hres)⟩

/-- Behind that page, an allocation of 2^52 - 1 pages begins. -/
def wrappedSpace : VMemAllocator := (alloc (2 ^ 52 - 1) pagedSpace).2

/-- The end of such an allocation wraps to zero, and all that is said to be behind it becomes free. -/
theorem wrapped_free_mapped :
    (∃ owned, UserRun (fun _ => True) (fun _ => .empty) [some 1, some 2, some 3] wrappedSpace owned) ∧
    0 ∈ freeSet wrappedSpace ∧ wrappedSpace.pageTable.lookup 0 = some (0, ⟨0, PageTableFlags.PRESENT⟩) := by
  have halloc : (alloc (2 ^ 52 - 1) pagedSpace).1 = .ok (some ⟨4096, 2 ^ 64 - 4096⟩) := by decide +kernel
  have hranges : wrappedSpace.allocator.ranges = [⟨0, 2 ^ 47⟩] := by decide +kernel
  refine ⟨⟨_, (pagedSpace_run trivial trivial).alloc trivial (run_of_result halloc)⟩, ?_, by decide +kernel⟩
  rw [freeSet, hranges]
  exact mem_span.2 ⟨_, List.mem_singleton_self _, le_rfl, by norm_num⟩

end Runs

end VMemAllocator

end MaramOS
