import MaramOS.Proofs.Ranges
import MaramOS.Proofs.Tiling

/-! `map_to` on pages that nothing stands in the way of: it fails only if the frame allocator
refuses a frame for a table. In a space where pages have only been added, these are the pages
without any address that was handed out. -/

namespace MaramOS

open Prog RadixTree

namespace VMemAllocator

variable {k v w virt phys n b : ℕ} {free : Set ℕ} {flags : PageTableFlags} {s : VMemAllocator} {grants : List (Option ℕ)}
  {r : VirtualRegion}

/-- Nothing stands in the way of a page that consists of addresses of `free`. -/
def Untouched (free : Set ℕ) (s : VMemAllocator) : Prop :=
  ∀ k ≤ 2, ∀ v, (∀ w, SamePage k w v → w % 2 ^ 48 ∈ free) → Vacant k (pageIndex v) (s.pageTable (pageIndex v 3))

/-- The table frames that pages of `b` bytes needed, three for each page at most, came from `grants`. -/
def Spent (grants : List (Option ℕ)) (b : ℕ) (s : VMemAllocator) : Prop :=
  ∃ c, c * pageSize 0 ≤ 3 * b ∧ s.frames.grants = grants.drop c

/-- One of the requests for the tables of `b` bytes was refused. -/
def Exhausted (grants : List (Option ℕ)) (b : ℕ) : Prop := ∃ i, i * pageSize 0 < 3 * b ∧ Refused grants i

theorem Exhausted.mono {b' : ℕ} (h : Exhausted grants b) (hle : b ≤ b') : Exhausted grants b' := by
  obtain ⟨i, hi, hrefused⟩ := h
  exact ⟨i, by omega, hrefused⟩

structure Growing (grants : List (Option ℕ)) (free : Set ℕ) (b : ℕ) (s : VMemAllocator) : Prop where
  untouched : Untouched free s
  spent : Spent grants b s

theorem samePage_max {j : ℕ} (h : SamePage (max k j) v w) : SamePage k w v ∨ SamePage j v w := by
  rcases le_total k j with hle | hle
  · rw [max_eq_right hle] at h
    exact .inr h
  · rw [max_eq_left hle] at h
    exact .inl h.symm

theorem Growing.mapPage [Mapper] [Mapper.MapsVacant] (h : Growing grants free b s) (hk : k ≤ 2)
    (hdvd : pageSize k ∣ virt) (hlt : virt < 2 ^ 47) (hfree : Set.Ico virt (virt + pageSize k) ⊆ free) :
    wp (mapPage k virt phys flags) s
      (fun _ s' => s'.allocator = s.allocator ∧ Growing grants (free \ Set.Ico virt (virt + pageSize k)) (b + pageSize k) s')
      fun e _ => e = .memory .invalidMapping ∧ Exhausted grants (b + pageSize k) := by
  have hpage : ∀ w, SamePage k w virt ↔ w % 2 ^ 48 ∈ Set.Ico virt (virt + pageSize k) := fun w => samePage_iff_mem hdvd hlt
  have hvacant := h.untouched k hk virt fun w hw => hfree ((hpage w).1 hw)
  obtain ⟨c, hc, hgrants⟩ := h.spent
  have hsize : pageSize 0 ≤ pageSize k := Nat.le_of_dvd (pageSize_pos k) (pageSize_dvd (Nat.zero_le k))
  have hcount : ∀ i, i ≤ 3 - k → (c + i) * pageSize 0 ≤ 3 * (b + pageSize k) := fun i hi => by
    have hle : i * pageSize 0 ≤ 3 * pageSize 0 := Nat.mul_le_mul_right _ (by omega)
    rw [Nat.add_mul]
    omega
  rcases @Mapper.MapsVacant.mapTo_vacant _ _ k virt ⟨phys / pageSize k * pageSize k, flags⟩ s.pageTable s.frames hk
      hvacant with
    ⟨err, herr, i, hi, hrefused⟩ | ⟨hok, c', hc', hgrants'⟩
  · simp only [wp, VMemAllocator.mapPage, herr]
    refine ⟨trivial, c + i, ?_, ?_⟩
    · have hnext := hcount (i + 1) hi
      have hpos := pageSize_pos 0
      rw [← Nat.add_assoc, Nat.succ_mul] at hnext
      omega
    · rwa [hgrants, refused_drop] at hrefused
  · simp only [wp, VMemAllocator.mapPage, hok]
    refine ⟨trivial, fun j hj v hv => ?_, c + c', hcount c' hc', ?_⟩
    · refine Mapper.MapsVacant.mapTo_apart hj hk (h.untouched j hj v fun w hw => (hv w hw).1) fun hsame => ?_
      -- one of the two pages would hold the other
      rcases samePage_max hsame with hin | hin
      · exact (hv virt hin).2 ((hpage virt).1 rfl)
      · exact (hv v rfl).2 ((hpage v).1 hin)
    · simp only [hgrants', hgrants, List.drop_drop]

theorem sdiff_Ico_next {F : Set ℕ} {start size : ℕ} (hle : start ≤ virt) :
    (F \ Set.Ico start virt) \ Set.Ico virt (virt + size) = F \ Set.Ico start (virt + size) := by
  have hunion := Set.Ico_union_Ico_eq_Ico hle (Nat.le_add_right virt size)
  rw [← hunion]
  exact sdiff_sdiff_left

theorem Growing.map [Mapper] [Mapper.MapsVacant] {F : Set ℕ} (h : Growing grants F b s) (hr : r.Paged)
    (hend : r.start + r.size < 2 ^ 47) (hfree : r.addresses ⊆ F) (hphys : phys + r.size < 2 ^ 52) :
    wp (map r phys flags) s
      (fun _ s' => s'.allocator = s.allocator ∧ Growing grants (F \ r.addresses) (b + r.size) s')
      fun e _ => e = .memory .invalidMapping ∧ Exhausted grants (b + r.size) := by
  have hmap := @map_wp s r flags (fun e _ => e = .memory .invalidMapping ∧ Exhausted grants (b + r.size)) _
    (fun t s' => t ≤ r.size ∧ s'.allocator = s.allocator ∧ Growing grants (F \ Set.Ico r.start (r.start + t)) (b + t) s')
    phys (fun t s' hI hnot => ?_) (fun k t s1 ht _ hI => ?_)
    ⟨Nat.zero_le _, rfl, by rwa [Nat.add_zero, Set.Ico_self, Set.sdiff_empty]⟩
  · rw [(divCeil_mul_eq_iff (pageSize_pos 0)).2 hr.size] at hmap
    exact wp_mono hmap (fun _ _ hs' => hs'.2.2) fun _ _ he => he
  · obtain ⟨hle, -⟩ := hI
    rcases hnot with hnot | hover
    · exact absurd (canonicalAddr_of_lt (by omega)) hnot
    · omega
  · obtain ⟨hle, halloc, hI⟩ := hI
    have hstop := hr.page_le ht
    have hpage : Set.Ico (r.start + t) (r.start + t + pageSize k) ⊆ F \ Set.Ico r.start (r.start + t) := fun w hw =>
      ⟨hfree ⟨ht.start.trans hw.1, hw.2.trans_le hstop⟩, fun hin => Nat.not_lt.2 hw.1 hin.2⟩
    refine wp_mono (hI.mapPage ht.level (hr.dvd ht) (ht.lower (by omega)) hpage) (fun _ s2 hs2 => ?_)
      fun e _ he => ⟨he.1, he.2.mono (by omega)⟩
    obtain ⟨halloc', hs2⟩ := hs2
    rw [sdiff_Ico_next ht.start, Nat.add_assoc, Nat.add_assoc] at hs2
    exact ⟨by omega, halloc'.trans halloc, hs2⟩

theorem unmap_returns [Mapper] [Mapper.PartialMap] (hr : r.Paged) (hend : r.start + r.size < 2 ^ 47)
    (hsize : 0 < r.size) :
    wp (unmap r) s (fun _ _ => True) fun e _ => e = .memory .invalidMapping := by
  have hcan : ∀ {a : ℕ}, a ≤ r.start + r.size → canonicalAddr a := fun ha => canonicalAddr_of_lt (ha.trans_lt hend)
  have hloop := @unmapLoop_wp s r _ (fun curr _ => curr ≤ r.start + r.size) (fun e _ => e = .memory .invalidMapping) _ rfl
    (fun k curr _ _ ht _ _ => hr.page_le ht) (fun curr _ ht _ _ => hr.page_le ht) (fun _ _ _ _ _ _ => rfl)
    (fun curr _ hle hnot => absurd (hcan hle) hnot) (r.size + 1) r.start le_rfl rfl id (by omega) (Nat.le_add_right _ _)
  rw [VMemAllocator.unmap]
  refine wp_bind.2 (wp_virtAddr (fun _ => ?_) fun hnot => absurd (hcan le_rfl) hnot)
  refine wp_seq hloop (fun _ s1 _ => ?_) fun _ _ he => he
  rw [virtSub, if_pos (by omega)]
  refine wp_bind.2 (wp_virtAddr (fun _ => ?_) fun hnot => absurd (hcan (Nat.sub_le _ _)) hnot)
  obtain ⟨s2, hrun, -, -⟩ := cleanUpAddrRange_lookup r.start (r.start + r.size - 1) s1
  exact wp_of_run hrun trivial

theorem reserve_of_free (hcan : s.allocator.Canonical) (hr : r.Paged) (hfree : r.addresses ⊆ freeSet s) :
    ∃ a', VMemAllocator.reserve r s = (.ok (), { s with allocator := a' }) ∧ a'.Canonical ∧
      RangeAllocator.span a'.ranges = freeSet s \ r.addresses := by
  have hlower := hr.lower
  rcases RangeAllocator.reserve_spec hcan (by omega : r.start + r.size < 2 ^ 64) with ⟨-, a', hrun, hcan', hset⟩ | ⟨hnot, -⟩
  · exact ⟨a', reserve_ok (Nat.mod_eq_zero_of_dvd hr.size) (Nat.mod_eq_zero_of_dvd hr.start) hrun, hcan', hset⟩
  · exact absurd hfree hnot

/-- A space with an allocator in order, whose free pages are untouched. -/
structure Pristine (grants : List (Option ℕ)) (b : ℕ) (s : VMemAllocator) : Prop where
  canonical : s.allocator.Canonical
  growing : Growing grants (freeSet s) b s

/-- `map_fixed` on free pages below the last page of the lower half: only a refused table frame is in its way. -/
theorem Pristine.mapFixed [Mapper] [Mapper.PartialMap] [Mapper.MapsVacant] (h : Pristine grants b s) (hr : r.Paged)
    (hsize : 0 < r.size) (hend : r.start + r.size < 2 ^ 47)
    (hfree : r.addresses ⊆ freeSet s) (hphys : phys + r.size < 2 ^ 52) :
    wp (mapFixed r phys flags) s
      (fun _ s' => freeSet s' = freeSet s \ r.addresses ∧ Pristine grants (b + r.size) s')
      fun e _ => e = .memory .invalidMapping ∧ Exhausted grants (b + r.size) := by
  obtain ⟨a', hreserve, hcan, hset⟩ := reserve_of_free h.canonical hr hfree
  have hgrowing : Growing grants (freeSet s) b { s with allocator := a' } := ⟨h.growing.untouched, h.growing.spent⟩
  rw [VMemAllocator.mapFixed]
  refine wp_bind.2 (wp_of_run hreserve (wp_bind.2 (wp_attempt.2 ?_)))
  refine wp_mono (hgrowing.map hr hend hfree hphys) (fun _ s1 hs1 => wp_pure.2 ?_) fun e s1 he => ?_
  · obtain ⟨halloc, hs1⟩ := hs1
    have hleft : freeSet s1 = freeSet s \ r.addresses := by
      rw [freeSet, halloc]
      exact hset
    refine ⟨hleft, halloc ▸ hcan, ?_⟩
    rwa [hleft]
  · obtain ⟨rfl, hexhausted⟩ := he
    have hreturns : wp (VMemAllocator.free r) s1 (fun _ _ => True) fun e _ => e = .memory .invalidMapping := by
      rw [VMemAllocator.free]
      exact wp_seq (unmap_returns hr hend hsize) (fun _ s2 _ => wp_of_run (onAllocator_run rfl) trivial) fun _ _ he => he
    exact wp_seq hreturns (fun _ _ _ => wp_fail.2 ⟨rfl, hexhausted⟩) fun e _ he => ⟨he, hexhausted⟩

/-- `map_fixed` on free pages up to the end of the lower half never returns: the address behind the last page
is not canonical, and both `map` and `unmap` compute it. -/
theorem mapFixed_lastPage [Mapper] (hcan : s.allocator.Canonical) (hr : r.Paged) (hsize : 0 < r.size)
    (hend : r.start + r.size = 2 ^ 47) (hfree : r.addresses ⊆ freeSet s) :
    wp (mapFixed r phys flags) s (fun _ _ => False) fun e _ => ∀ m, e ≠ .memory m := by
  obtain ⟨a', hreserve, -, -⟩ := reserve_of_free hcan hr hfree
  have hstart : canonicalAddr r.start := canonicalAddr_of_lt (by omega)
  have hnot : ¬canonicalAddr (r.start + r.size) := by
    rw [hend]
    decide
  rw [VMemAllocator.mapFixed]
  refine wp_bind.2 (wp_of_run hreserve (wp_bind.2 (wp_attempt.2 ?_)))
  rcases hmap : VMemAllocator.map r phys flags { s with allocator := a' } with ⟨e | _, s1⟩
  · simp only [wp, hmap]
    cases e with
    | panic => exact fun m hm => by cases hm
    | diverge => exact fun m hm => by cases hm
    | memory m =>
      have hunmap : unmap r s1 = (.error .panic, s1) := by
        rw [VMemAllocator.unmap, virtAddr, if_neg hnot]
        rfl
      have hrun : (VMemAllocator.free r >>= fun _ => (Prog.fail (.memory m) : VMem Unit)) s1 = (.error .panic, s1) := by
        show Prog.seq (Prog.seq (unmap r) _) _ s1 = _
        rw [Prog.seq, Prog.seq, hunmap]
      simp only [hrun]
      exact fun m hm => by cases hm
  · obtain ⟨ks, htotal, htiled⟩ := map_tiled hr.start hstart hmap
    rw [(divCeil_mul_eq_iff (pageSize_pos 0)).2 hr.size] at htotal
    refine absurd (htiled.canonical _ (Nat.le_add_right _ _) ?_) hnot
    rw [htotal]

end VMemAllocator

end MaramOS
