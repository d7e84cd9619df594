import MaramOS.Proofs.UserSpace

/-! The pages that `map` chooses for a region, one behind the other, and how `unmap`
finds each of them again. The region may lie in either half and end inside a page. -/

namespace MaramOS

open Prog PageTable

theorem samePage_iff_canonical {k addr w : ℕ} (hk : k ≤ 2) (hdvd : pageSize k ∣ addr) (haddr : canonicalAddr addr)
    (hw : canonicalAddr w) : SamePage k w addr ↔ w ∈ Set.Ico addr (addr + pageSize k) := by
  simp only [canonicalAddr, Bool.or_eq_true, Bool.and_eq_true, decide_eq_true_eq] at haddr hw
  simp only [SamePage, Set.mem_Ico]
  interval_cases k <;> simp only [pageSize] at hdvd ⊢ <;> omega

/-- The bytes of a list of pages, given by their levels. -/
def total (ks : List ℕ) : ℕ := (ks.map pageSize).sum

@[simp] theorem total_nil : total [] = 0 := rfl

@[simp] theorem total_cons (k : ℕ) (ks : List ℕ) : total (k :: ks) = pageSize k + total ks := List.sum_cons

@[simp] theorem total_append (ks js : List ℕ) : total (ks ++ js) = total ks + total js := by
  rw [total, List.map_append, List.sum_append]
  rfl

/-- Pages from `virt` and `phys` on, each behind the last one. They are aligned, huge ones end before `stop` and
small ones begin before it. -/
def Tiling (stop : ℕ) : ℕ → ℕ → List ℕ → Prop
  | _, _, [] => True
  | virt, phys, k :: ks => (k ≤ 2 ∧ pageSize k ∣ virt ∧ pageSize k ∣ phys ∧ virt < stop ∧
      (0 < k → virt + pageSize k ≤ stop)) ∧
      Tiling stop (virt + pageSize k) (phys + pageSize k) ks

theorem Tiling.append {stop virt phys : ℕ} {ks js : List ℕ} (h : Tiling stop virt phys ks)
    (h' : Tiling stop (virt + total ks) (phys + total ks) js) : Tiling stop virt phys (ks ++ js) := by
  induction ks generalizing virt phys with
  | nil => exact h'
  | cons k ks ih =>
    rw [total_cons, ← Nat.add_assoc, ← Nat.add_assoc] at h'
    exact ⟨h.1, ih h.2 h'⟩

namespace VMemAllocator

variable {s s' s0 s1 s2 : VMemAllocator} {r : VirtualRegion} {flags : PageTableFlags}
  {k n size start phys virt rem stop curr : ℕ} {ks js : List ℕ}

def mapTiles [Mapper] (flags : PageTableFlags) : ℕ → ℕ → List ℕ → VMem Unit
  | _, _, [] => pure ()
  | virt, phys, k :: ks => do
    mapPage k virt phys flags
    mapTiles flags (virt + pageSize k) (phys + pageSize k) ks

section Map

variable [Mapper]

/-- A part of `map` has mapped a list of pages. -/
structure TiledRun (flags : PageTableFlags) (stop virt phys : ℕ) (ks : List ℕ) (s s' : VMemAllocator) : Prop where
  tiling : Tiling stop virt phys ks
  run : mapTiles flags virt phys ks s = (.ok (), s')
  canonical : CanonicalBetween virt (virt + total ks)

theorem mapTiles_append (h : mapTiles flags virt phys ks s = (.ok (), s1))
    (h' : mapTiles flags (virt + total ks) (phys + total ks) js s1 = (.ok (), s2)) :
    mapTiles flags virt phys (ks ++ js) s = (.ok (), s2) := by
  induction ks generalizing virt phys s with
  | nil =>
    cases h
    exact h'
  | cons k ks ih =>
    obtain ⟨u, s3, hpage, hrest⟩ := run_bind_ok h
    rw [total_cons, ← Nat.add_assoc, ← Nat.add_assoc] at h'
    exact (run_bind hpage).trans (ih hrest h')

omit [Mapper] in
theorem frame_eq {t : ℕ} (ht : pageSize 0 ∣ t) (hdvd : 0 < k → pageSize k ∣ phys + t) :
    pageSize k ∣ phys / pageSize 0 * pageSize 0 + t ∧
      (phys + t) / pageSize k * pageSize k = phys / pageSize 0 * pageSize 0 + t := by
  obtain ⟨q, rfl⟩ := ht
  rcases Nat.eq_zero_or_pos k with rfl | hpos
  · refine ⟨Nat.dvd_add (Dvd.intro_left _ rfl) (Dvd.intro _ rfl), ?_⟩
    rw [Nat.add_mul_div_left _ _ (pageSize_pos 0), Nat.add_mul, Nat.mul_comm q]
  · have hsmall := (pageSize_dvd (Nat.zero_le k)).trans (hdvd hpos)
    rw [Nat.div_mul_cancel ((Nat.dvd_add_left (Dvd.intro _ rfl)).1 hsmall)]
    exact ⟨hdvd hpos, Nat.div_mul_cancel (hdvd hpos)⟩

theorem map_tiled (hstart : pageSize 0 ∣ r.start) (hcan : canonicalAddr r.start)
    (hrun : map r phys flags s = (.ok (), s')) :
    ∃ ks, total ks = divCeil r.size (pageSize 0) * pageSize 0 ∧
      TiledRun (flags ||| PageTableFlags.PRESENT) (r.start + r.size) r.start (phys / pageSize 0 * pageSize 0) ks s s' := by
  have hmap := @map_wp s r flags (fun _ _ => True) _
    (fun t s1 => ∃ ks, total ks = t ∧ Tiling (r.start + r.size) r.start (phys / pageSize 0 * pageSize 0) ks ∧
      mapTiles (flags ||| PageTableFlags.PRESENT) r.start (phys / pageSize 0 * pageSize 0) ks s = (.ok (), s1))
    phys (fun _ _ _ _ => trivial) (fun k t s1 ht hdvd hI => ?_) ⟨[], rfl, trivial, rfl⟩
  · obtain ⟨hreached, ks, htotal, htiling, htiles⟩ := wp_ok hmap hrun
    refine ⟨ks, htotal, htiling, htiles, ?_⟩
    rw [htotal]
    exact hreached.canonical hcan
  · obtain ⟨ks, rfl, htiling, htiles⟩ := hI
    have hpages : pageSize 0 ∣ r.start + total ks :=
      Nat.dvd_of_mod_eq_zero (ht.step.trans (Nat.mod_eq_zero_of_dvd hstart))
    obtain ⟨hframe, hsame⟩ := frame_eq ((Nat.dvd_add_right hstart).1 hpages) hdvd
    rcases hpage : mapPage k (r.start + total ks) (phys + total ks) (flags ||| PageTableFlags.PRESENT) s1 with ⟨e | u, s2⟩
    · simp only [wp, hpage]
    have hvirt : pageSize k ∣ r.start + total ks := by
      rcases Nat.eq_zero_or_pos k with rfl | hpos
      · exact hpages
      · exact (ht.huge hpos).1
    refine wp_of_run hpage ⟨ks ++ [k], by rw [total_append]; rfl, ?_, ?_⟩
    · exact htiling.append ⟨⟨ht.level, hvirt, hframe, ht.stop, fun hpos => (ht.huge hpos).2⟩, trivial⟩
    · have hpage' : mapPage k (r.start + total ks) (phys / pageSize 0 * pageSize 0 + total ks)
          (flags ||| PageTableFlags.PRESENT) s1 = (.ok u, s2) := by
        rw [← hpage, mapPage, mapPage, hsame, Nat.div_mul_cancel hframe]
      exact mapTiles_append htiles (run_bind hpage')

variable [Mapper.PartialMap]

theorem TiledRun.head (h : TiledRun flags stop virt phys (k :: ks) s s') :
    ∃ s1, TiledRun flags stop (virt + pageSize k) (phys + pageSize k) ks s1 s' ∧
      (∀ w, canonicalAddr w → w ∈ Set.Ico virt (virt + pageSize k) →
        s1.pageTable.lookup w = some (k, ⟨phys, flags⟩) ∧ s.pageTable.lookup w = none) ∧
      ∀ w, canonicalAddr w → w ∉ Set.Ico virt (virt + pageSize k) → s1.pageTable.lookup w = s.pageTable.lookup w := by
  obtain ⟨⟨⟨hk, hvirt, hphys, -, -⟩, htiling⟩, hrun, hcan⟩ := h
  obtain ⟨u, s1, hpage, hrest⟩ := run_bind_ok hrun
  have hcanv := hcan virt le_rfl (Nat.le_add_right _ _)
  rw [total_cons, ← Nat.add_assoc] at hcan
  have htail : CanonicalBetween (virt + pageSize k) (virt + pageSize k + total ks) := fun x hle hge =>
    hcan x ((Nat.le_add_right _ _).trans hle) hge
  refine ⟨s1, ⟨htiling, hrest, htail⟩, ?_⟩
  obtain ⟨-, hlookup⟩ := mapPage_lookup hk virt phys flags s
  rw [hpage, Nat.div_mul_cancel hphys] at hlookup
  rcases hlookup with ⟨-, hin, hout⟩ | ⟨herr, -⟩
  · exact ⟨fun w hw hmem => hin w ((samePage_iff_canonical hk hvirt hcanv hw).2 hmem),
      fun w hw hmem => hout w fun hsame => hmem ((samePage_iff_canonical hk hvirt hcanv hw).1 hsame)⟩
  · cases herr

theorem TiledRun.outside (h : TiledRun flags stop virt phys ks s s') {w : ℕ} (hw : canonicalAddr w)
    (hout : w ∉ Set.Ico virt (virt + total ks)) : s'.pageTable.lookup w = s.pageTable.lookup w := by
  induction ks generalizing virt phys s with
  | nil =>
    cases h.run
    rfl
  | cons k ks ih =>
    obtain ⟨s1, htail, -, hother⟩ := h.head
    rw [total_cons, Set.mem_Ico] at hout
    rw [ih htail (by rw [Set.mem_Ico]; omega), hother w hw (by rw [Set.mem_Ico]; omega)]

theorem TiledRun.unmapped (h : TiledRun flags stop virt phys ks s s') {w : ℕ} (hw : canonicalAddr w)
    (hin : w ∈ Set.Ico virt (virt + total ks)) : s.pageTable.lookup w = none := by
  induction ks generalizing virt phys s with
  | nil => exact absurd hin.2 (Nat.not_lt.2 hin.1)
  | cons k ks ih =>
    obtain ⟨s1, htail, hpage, hother⟩ := h.head
    rw [total_cons, Set.mem_Ico] at hin
    by_cases hmem : w ∈ Set.Ico virt (virt + pageSize k)
    · exact (hpage w hw hmem).2
    · rw [← hother w hw hmem]
      rw [Set.mem_Ico] at hmem
      exact ih htail ⟨by omega, by omega⟩

/-- The pages of a list are mapped, each to the frame behind the last one. -/
def Tiled (flags : PageTableFlags) (s : VMemAllocator) : ℕ → ℕ → List ℕ → Prop
  | _, _, [] => True
  | virt, phys, k :: ks =>
    (∀ w, canonicalAddr w → w ∈ Set.Ico virt (virt + pageSize k) → s.pageTable.lookup w = some (k, ⟨phys, flags⟩)) ∧
      Tiled flags s (virt + pageSize k) (phys + pageSize k) ks

theorem TiledRun.tiled (h : TiledRun flags stop virt phys ks s s') : Tiled flags s' virt phys ks := by
  induction ks generalizing virt phys s with
  | nil => trivial
  | cons k ks ih =>
    obtain ⟨s1, htail, hpage, -⟩ := h.head
    refine ⟨fun w hw hmem => ?_, ih htail⟩
    rw [htail.outside hw fun hbehind => Nat.not_lt.2 hbehind.1 hmem.2]
    exact (hpage w hw hmem).1

/-- The addresses from `start` on are mapped to the physical ones from `phys` on, with the given flags. -/
def Mapped (start phys size : ℕ) (flags : PageTableFlags) (s : VMemAllocator) : Prop :=
  ∀ i < size, ∃ k x, s.pageTable.lookup (start + i) = some (k, x) ∧
    x.frame + (start + i) % pageSize k = phys + i ∧ x.flags = flags

omit [Mapper] [Mapper.PartialMap] in
theorem Mapped.translate (h : Mapped start phys size flags s) {i : ℕ} (hi : i < size) :
    s.pageTable.translate (start + i) = some (phys + i) := by
  obtain ⟨k, x, hfound, haddr, -⟩ := h i hi
  rw [PageTable.translate, hfound, Option.map_some, haddr]

omit [Mapper] [Mapper.PartialMap] in
theorem Tiled.mapped (h : Tiled flags s virt phys ks) (htiling : Tiling stop virt phys ks)
    (hcan : CanonicalBetween virt (virt + total ks)) : Mapped virt phys (total ks) flags s := by
  intro i hi
  induction ks generalizing virt phys i with
  | nil => exact absurd hi (Nat.not_lt_zero i)
  | cons k ks ih =>
    rw [total_cons] at hi hcan
    by_cases hhead : i < pageSize k
    · have hmod : (virt + i) % pageSize k = i := by
        rw [Nat.add_mod, Nat.mod_eq_zero_of_dvd htiling.1.2.1, Nat.zero_add, Nat.mod_mod, Nat.mod_eq_of_lt hhead]
      exact ⟨k, _, h.1 _ (hcan _ (by omega) (by omega)) ⟨by omega, by omega⟩, by rw [hmod], rfl⟩
    · obtain ⟨j, rfl⟩ := Nat.exists_eq_add_of_le (Nat.not_lt.1 hhead)
      rw [← Nat.add_assoc, ← Nat.add_assoc]
      rw [← Nat.add_assoc] at hcan
      exact ih h.2 htiling.2 (fun x hle hge => hcan x (by omega) hge) j (by omega)

theorem TiledRun.mapped (h : TiledRun flags stop virt phys ks s s') : Mapped virt phys (total ks) flags s' :=
  h.tiled.mapped h.tiling h.canonical

end Map

section Unmap

/-- The loop of `unmap` has come to `curr`: the pages from there on are as `map` left them, and all other
translations are as they were before it. -/
structure Unmapping (flags : PageTableFlags) (stop last : ℕ) (s0 s' : VMemAllocator) (curr : ℕ)
    (s : VMemAllocator) : Prop where
  tiles : ∃ phys ks, curr + total ks = last ∧ Tiling stop curr phys ks ∧ Tiled flags s' curr phys ks
  canonical : CanonicalBetween curr last
  rest : ∀ w, canonicalAddr w → w ∈ Set.Ico curr last → s.pageTable.lookup w = s'.pageTable.lookup w
  gone : ∀ w, canonicalAddr w → w ∉ Set.Ico curr last → s.pageTable.lookup w = s0.pageTable.lookup w

variable {last : ℕ}

section

variable (h : Unmapping flags stop last s0 s' curr s)
include h

theorem Unmapping.le : curr ≤ last := by
  obtain ⟨phys, ks, rfl, -⟩ := h.tiles
  exact Nat.le_add_right _ _

theorem Unmapping.head (hlt : curr < last) :
    ∃ k phys ks, curr + pageSize k + total ks = last ∧ Tiling stop curr phys (k :: ks) ∧ Tiled flags s' curr phys (k :: ks) ∧
      s.pageTable.lookup curr = some (k, ⟨phys, flags⟩) := by
  obtain ⟨phys, ks, hlast, htiling, htiled⟩ := h.tiles
  cases ks with
  | nil => exact absurd hlast hlt.ne
  | cons k ks =>
    have hcurr := h.canonical curr le_rfl hlt.le
    rw [total_cons, ← Nat.add_assoc] at hlast
    refine ⟨k, phys, ks, hlast, htiling, htiled, ?_⟩
    rw [h.rest curr hcurr ⟨le_rfl, hlt⟩]
    exact htiled.1 curr hcurr ⟨le_rfl, Nat.lt_add_of_pos_right (pageSize_pos k)⟩

theorem Unmapping.step [Mapper] [Mapper.PartialMap] (hk : k ≤ 2) (hlt : curr < last)
    (hnone : ∀ w, canonicalAddr w → w ∈ Set.Ico curr last → s0.pageTable.lookup w = none)
    (hrun : unmapPage k curr s = (.ok (.ok ()), s1)) : Unmapping flags stop last s0 s' (curr + pageSize k) s1 := by
  obtain ⟨j, phys, ks, hlast, htiling, htiled, hhead⟩ := h.head hlt
  obtain ⟨x, hfound⟩ := unmapPage_found hk hrun
  obtain rfl : j = k := by
    rw [hhead] at hfound
    cases hfound
    rfl
  have hcurr := h.canonical curr le_rfl hlt.le
  have hpage : ∀ w, canonicalAddr w → (SamePage j w curr ↔ w ∈ Set.Ico curr (curr + pageSize j)) := fun w hw =>
    samePage_iff_canonical hk htiling.1.2.1 hcurr hw
  obtain ⟨-, hgone, hother⟩ := unmapPage_lookup hk hrun
  refine ⟨⟨_, ks, hlast, htiling.2, htiled.2⟩, fun y hle hge => h.canonical y (by omega) hge, fun w hw hin => ?_,
    fun w hw hout => ?_⟩
  · rw [hother w fun hsame => Nat.not_lt.2 hin.1 ((hpage w hw).1 hsame).2]
    exact h.rest w hw ⟨(Nat.le_add_right _ _).trans hin.1, hin.2⟩
  · by_cases hin : w ∈ Set.Ico curr (curr + pageSize j)
    · rw [hgone w ((hpage w hw).2 hin), hnone w hw ⟨hin.1, hin.2.trans_le (by omega)⟩]
    · rw [hother w fun hsame => hin ((hpage w hw).1 hsame)]
      refine h.gone w hw fun hall => hout ⟨?_, hall.2⟩
      exact Nat.not_lt.1 fun hbelow => hin ⟨hall.1, hbelow⟩

theorem Unmapping.finish (hstop : stop ≤ curr) {w : ℕ} (hw : canonicalAddr w) :
    s.pageTable.lookup w = s0.pageTable.lookup w := by
  refine h.gone w hw fun hin => ?_
  obtain ⟨k, phys, ks, -, htiling, -⟩ := h.head (hin.1.trans_lt hin.2)
  exact absurd htiling.1.2.2.2.1 (Nat.not_lt.2 hstop)

end

theorem TiledRun.unmap [Mapper] [Mapper.PartialMap] (h : TiledRun flags (r.start + r.size) r.start phys ks s s')
    (hsize : 0 < r.size) (hlast : r.size ≤ total ks) :
    ∃ s'', VMemAllocator.unmap r s' = (.ok (), s'') ∧
      ∀ w, canonicalAddr w → s''.pageTable.lookup w = s.pageTable.lookup w := by
  have hbegin : Unmapping flags (r.start + r.size) (r.start + total ks) s s' r.start s' :=
    ⟨⟨phys, ks, rfl, h.tiling, h.tiled⟩, h.canonical, fun _ _ _ => rfl, fun w hw hout => h.outside hw hout⟩
  have hloop := @unmapLoop_wp s' r _
    (fun curr s1 => r.start ≤ curr ∧ Unmapping flags (r.start + r.size) (r.start + total ks) s s' curr s1)
    (fun _ _ => False) _ rfl ?ok ?skip ?huge ?panic (r.size + 1) r.start le_rfl rfl id (by omega) ⟨le_rfl, hbegin⟩
  case ok =>
    rintro k curr s1 s2 ht ⟨hle, hI⟩ hrun
    have hlt : curr < r.start + total ks := ht.stop.trans_le (by omega)
    refine ⟨by omega, hI.step ht.level hlt (fun w hw hin => ?_) hrun⟩
    exact h.unmapped hw ⟨hle.trans hin.1, hin.2⟩
  case skip =>
    rintro curr s1 ht ⟨-, hI⟩ hrun
    obtain ⟨k, phys, ks, -, -, -, hhead⟩ := hI.head (ht.stop.trans_le (by omega))
    rcases unmapPage_error hrun with ⟨-, hnone⟩ | ⟨herr, -⟩
    · rw [hhead] at hnone
      cases hnone
    · cases herr
  case huge =>
    rintro curr s1 ht ⟨-, hI⟩ hpassed hrun
    obtain ⟨k, phys, ks, -, htiling, -, hhead⟩ := hI.head (ht.stop.trans_le (by omega))
    obtain ⟨⟨hk, hdvd, -, hstop, hhuge⟩, -⟩ := htiling
    rcases unmapPage_error hrun with ⟨herr, -⟩ | ⟨-, j, x, hpos, hfound⟩
    · cases herr
    · rw [hhead] at hfound
      cases hfound
      obtain ⟨s2, hok⟩ := unmapPage_mapped hk hhead
      have := hhuge hpos
      exact hpassed k hpos hk (by omega) hdvd s2 hok
  case panic =>
    rintro curr s1 ⟨-, hI⟩ hnot
    exact hnot (hI.canonical curr le_rfl hI.le)
  have hstop : canonicalAddr (r.start + r.size) := h.canonical _ (by omega) (by omega)
  have hwp : wp (VMemAllocator.unmap r) s'
      (fun _ s2 => ∀ w, canonicalAddr w → s2.pageTable.lookup w = s.pageTable.lookup w) fun _ _ => False := by
    rw [VMemAllocator.unmap]
    refine wp_bind.2 (wp_virtAddr (fun _ => ?_) fun hnot => hnot hstop)
    refine wp_seq hloop (fun _ s1 hs1 => ?_) fun _ _ h => h
    obtain ⟨final, hfinal, -, -, hI⟩ := hs1
    rw [virtSub, if_pos (by omega)]
    refine wp_bind.2 (wp_virtAddr (fun _ => ?_) fun hnot => hnot (h.canonical _ (by omega) (by omega)))
    obtain ⟨s2, hrun, -, hsame⟩ := cleanUpAddrRange_lookup r.start (r.start + r.size - 1) s1
    refine wp_of_run hrun fun w hw => ?_
    rw [hsame w, hI.finish hfinal hw]
  obtain ⟨u, s2, hrun, hsame⟩ := wp_total hwp
  exact ⟨s2, hrun, hsame⟩

end Unmap

/-- `map` tiles a region with pages, each byte of it is sent to the one at the same offset from `phys`, and `unmap`
brings back the translations from before. The region is rounded up to small pages. `map` returns only if none
of them was mapped. -/
theorem map_unmap [Mapper] [Mapper.PartialMap] (hstart : pageSize 0 ∣ r.start) (hcan : canonicalAddr r.start)
    (hsize : 0 < r.size) (hphys : pageSize 0 ∣ phys) (hrun : map r phys flags s = (.ok (), s')) :
    (∃ ks, total ks = divCeil r.size (pageSize 0) * pageSize 0 ∧ Tiling (r.start + r.size) r.start phys ks ∧
      mapTiles (flags ||| PageTableFlags.PRESENT) r.start phys ks s = (.ok (), s')) ∧
    (∀ i < divCeil r.size (pageSize 0) * pageSize 0, s'.pageTable.translate (r.start + i) = some (phys + i)) ∧
    (∀ w, canonicalAddr w → w ∉ Set.Ico r.start (r.start + divCeil r.size (pageSize 0) * pageSize 0) →
      s'.pageTable.lookup w = s.pageTable.lookup w) ∧
    ∃ s'', unmap r s' = (.ok (), s'') ∧ ∀ w, canonicalAddr w → s''.pageTable.lookup w = s.pageTable.lookup w := by
  obtain ⟨ks, htotal, htiled⟩ := map_tiled hstart hcan hrun
  rw [Nat.div_mul_cancel hphys] at htiled
  have hle : r.size ≤ total ks := by
    rw [htotal]
    exact le_divCeil_mul (pageSize_pos 0)
  rw [← htotal]
  exact ⟨⟨ks, rfl, htiled.tiling, htiled.run⟩, fun i hi => htiled.mapped.translate hi,
    fun w hw hout => htiled.outside hw hout, htiled.unmap hsize hle⟩

/-- A huge page and two small ones at the beginning of the upper half. -/
def mixedRegion : VirtualRegion := ⟨2 ^ 64 - 2 ^ 47, 2 ^ 21 + 5000⟩

/-- An address space without mappings, and frames for three tables. -/
def unmappedSpace : VMemAllocator := ⟨fun _ => .empty, ⟨[]⟩, ⟨[some 4096, some 8192, some 12288], [], []⟩⟩

open TreeMapper in
theorem map_unmap_mixed :
    ∃ s'', unmap mixedRegion (map mixedRegion (2 ^ 21) .PRESENT unmappedSpace).2 = (.ok (), s'') ∧
      ∀ w, canonicalAddr w → s''.pageTable.lookup w = unmappedSpace.pageTable.lookup w := by
  have hrun : (map mixedRegion (2 ^ 21) .PRESENT unmappedSpace).1 = .ok () := by decide +kernel
  exact (map_unmap (by decide) (by decide) (by decide) (by decide) (run_of_result hrun)).2.2.2

end VMemAllocator

end MaramOS
