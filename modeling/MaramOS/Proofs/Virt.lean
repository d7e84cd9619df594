import MaramOS.Spec.Virt

/-! The loops of `map` and `unmap`. Which pages they touch is said once, and what
one `map_to`, `unmap` or clean-up keeps, the whole operation keeps. -/

namespace MaramOS

open Prog RadixTree

theorem pageSize_pos (k : ℕ) : 0 < pageSize k := Nat.two_pow_pos _

theorem pageSize_dvd {k j : ℕ} (h : k ≤ j) : pageSize k ∣ pageSize j := pow_dvd_pow 2 (by omega)

theorem canonicalAddr_of_lt {a : ℕ} (h : a < 2 ^ 47) : canonicalAddr a = true := by
  simp only [canonicalAddr, Bool.or_eq_true, decide_eq_true_eq]
  exact .inl h

/-- The pages of a region: huge ones lie in it, and small ones begin in it. A walk over them does not
leave the lower half. -/
structure VirtualRegion.Touches (r : VirtualRegion) (k addr : ℕ) : Prop where
  level : k ≤ 2
  start : r.start ≤ addr
  stop : addr < r.start + r.size
  lower : r.start < 2 ^ 47 → addr < 2 ^ 47
  huge : 0 < k → pageSize k ∣ addr ∧ addr + pageSize k ≤ r.start + r.size
  step : addr % pageSize 0 = r.start % pageSize 0

/-- All addresses from `a` to `b` are canonical, so both lie in the same half. -/
def CanonicalBetween (a b : ℕ) : Prop := ∀ x, a ≤ x → x ≤ b → canonicalAddr x = true

theorem CanonicalBetween.trans {a b c : ℕ} (h : CanonicalBetween a b) (h' : CanonicalBetween b c) : CanonicalBetween a c :=
  fun x hle hge => (le_total x b).elim (h x hle) fun hb => h' x hb hge

theorem canonicalBetween_page {a k : ℕ} (hk : k ≤ 2) (ha : canonicalAddr a) (hb : canonicalAddr (a + pageSize k)) :
    CanonicalBetween a (a + pageSize k) := by
  have hsize : pageSize k ≤ 2 ^ 30 := Nat.pow_le_pow_right (by norm_num) (by omega)
  intro x hle hge
  simp only [canonicalAddr, Bool.or_eq_true, Bool.and_eq_true, decide_eq_true_eq] at ha hb ⊢
  omega

namespace VirtualRegion

variable {r : VirtualRegion} {k t : ℕ}

/-- `map` can have come to `t` bytes behind the start, over canonical addresses only. -/
structure Reached (r : VirtualRegion) (t : ℕ) : Prop where
  pages : pageSize 0 ∣ t
  canonical : canonicalAddr r.start → CanonicalBetween r.start (r.start + t)

theorem Reached.next (h : r.Reached t) (hk : k ≤ 2) (hcan : canonicalAddr (r.start + (t + pageSize k))) :
    r.Reached (t + pageSize k) := by
  refine ⟨Nat.dvd_add h.pages (pageSize_dvd (Nat.zero_le k)), fun hstart => (h.canonical hstart).trans ?_⟩
  rw [← Nat.add_assoc] at hcan ⊢
  exact canonicalBetween_page hk (h.canonical hstart _ (Nat.le_add_right _ _) le_rfl) hcan

theorem Reached.touches (h : r.Reached t) (hk : k ≤ 2) (hlt : t < r.size)
    (hhuge : 0 < k → pageSize k ∣ r.start + t ∧ t + pageSize k ≤ r.size) : r.Touches k (r.start + t) := by
  refine ⟨hk, Nat.le_add_right _ _, by omega, fun hlow => ?_, fun hpos => ⟨(hhuge hpos).1, ?_⟩, ?_⟩
  · -- the first address behind the lower half is not canonical
    by_contra hnot
    have hcan := h.canonical (canonicalAddr_of_lt hlow) (2 ^ 47) hlow.le (Nat.not_lt.1 hnot)
    revert hcan
    decide
  · have := (hhuge hpos).2
    omega
  · rw [Nat.add_mod, Nat.mod_eq_zero_of_dvd h.pages, Nat.add_zero, Nat.mod_mod]

end VirtualRegion

namespace VMemAllocator

variable {s : VMemAllocator} {region : VirtualRegion} {flags : PageTableFlags} {P : VMemAllocator → Prop} {addr : ℕ}
  {Q : ℕ → VMemAllocator → Prop} {E : MemoryFault → VMemAllocator → Prop}

theorem canonicalAddr_lower {k : ℕ} (hk : k ≤ 2) (h : canonicalAddr (addr + pageSize k)) (haddr : addr < 2 ^ 47) :
    addr + pageSize k < 2 ^ 47 := by
  have hsize : pageSize k ≤ 2 ^ 30 := Nat.pow_le_pow_right (by norm_num) (by omega)
  simp only [canonicalAddr, Bool.or_eq_true, Bool.and_eq_true, decide_eq_true_eq] at h
  omega

theorem wp_virtAddr (hQ : canonicalAddr addr → Q addr s) (hE : ¬canonicalAddr addr → E .panic s) :
    wp (virtAddr addr) s Q E := by
  rw [virtAddr]
  split_ifs with h
  · exact wp_pure.2 (hQ h)
  · exact wp_fail.2 (hE h)

theorem wp_physAddr (hQ : Q addr s) (hE : ¬addr < 2 ^ 52 → E .panic s) : wp (physAddr addr) s Q E := by
  rw [physAddr]
  split_ifs with h
  · exact wp_pure.2 hQ
  · exact wp_fail.2 (hE h)

section Map

variable [Mapper] {I : ℕ → VMemAllocator → Prop} {phys k n t rem : ℕ}
  (hstep : ∀ k t s, region.Touches k (region.start + t) → (0 < k → pageSize k ∣ phys + t) → I t s →
    wp (mapPage k (region.start + t) (phys + t) flags) s (fun _ => I (t + pageSize k)) E)
  (hpanic : ∀ t s, I t s → ¬canonicalAddr (region.start + t) ∨ 2 ^ 52 ≤ phys + t → E .panic s)

include hstep hpanic

theorem mapPages_wp (hk : k ≤ 2) (ht : region.Reached t) (hlt : ∀ i < n, t + i * pageSize k < region.size)
    (hfits : 0 < k → pageSize k ∣ region.start + t ∧ pageSize k ∣ phys + t ∧ t + n * pageSize k ≤ region.size) (hI : I t s) :
    wp (mapPages k flags n (region.start + t) (phys + t)) s
      (fun out s' => out = (region.start + (t + n * pageSize k), phys + (t + n * pageSize k)) ∧
        region.Reached (t + n * pageSize k) ∧ I (t + n * pageSize k) s') E := by
  induction n generalizing t s with
  | zero =>
    rw [Nat.zero_mul, Nat.add_zero]
    exact wp_pure.2 ⟨rfl, ht, hI⟩
  | succ n ih =>
    have hnext : ∀ i, t + (i + 1) * pageSize k = t + pageSize k + i * pageSize k := fun i => by ring
    have hfirst := hlt 0 (Nat.succ_pos n)
    rw [Nat.zero_mul, Nat.add_zero] at hfirst
    rw [hnext] at hfits ⊢
    have htouch : region.Touches k (region.start + t) := ht.touches hk hfirst fun hpos => ⟨(hfits hpos).1, by
      have := (hfits hpos).2.2
      omega⟩
    rw [mapPages]
    refine wp_seq (hstep k t s htouch (fun hpos => (hfits hpos).2.1) hI) (fun _ s1 hs1 => ?_) fun _ _ h => h
    rw [Nat.add_assoc, Nat.add_assoc]
    refine wp_bind.2 (wp_virtAddr (fun hcan => ?_) fun hnot => hpanic _ s1 hs1 (.inl hnot))
    refine wp_bind.2 (wp_physAddr ?_ fun hnot => hpanic _ s1 hs1 (.inr (Nat.not_lt.1 hnot)))
    refine ih (ht.next hk hcan) (fun i hi => ?_) (fun hpos => ?_) hs1
    · rw [← hnext]
      exact hlt (i + 1) (by omega)
    · obtain ⟨hvirt, hphys, hle⟩ := hfits hpos
      rw [← Nat.add_assoc, ← Nat.add_assoc]
      exact ⟨Nat.dvd_add hvirt dvd_rfl, Nat.dvd_add hphys dvd_rfl, hle⟩

theorem mapHuge_wp (hk : k ≤ 2) (ht : region.Reached t) (hrem : t + rem = region.size) (hI : I t s) :
    wp (mapHuge k flags rem (region.start + t) (phys + t)) s
      (fun out s' => ∃ t' rem', out = (rem', region.start + t', phys + t') ∧ t' + rem' = region.size ∧ region.Reached t' ∧
        I t' s') E := by
  rw [mapHuge]
  split_ifs with hfits
  · obtain ⟨-, hphys, hvirt⟩ := hfits
    have hle : rem / pageSize k * pageSize k ≤ rem := Nat.div_mul_le_self _ _
    have hlt : ∀ i < rem / pageSize k, t + i * pageSize k < region.size := fun i hi => by
      have := Nat.mul_lt_mul_of_pos_right hi (pageSize_pos k)
      omega
    refine wp_seq (mapPages_wp hstep hpanic hk ht hlt (fun _ => ⟨hvirt, hphys, by omega⟩) hI) (fun out s' hout => ?_)
      fun _ _ h => h
    obtain ⟨rfl, hreached, hs'⟩ := hout
    exact wp_pure.2 ⟨_, _, rfl, by omega, hreached, hs'⟩
  · exact wp_pure.2 ⟨t, rem, rfl, hrem, ht, hI⟩

omit hstep in
/-- The rule for `map`: `I` holds of the number of bytes that are mapped, up to the end of the last small page. -/
theorem map_wp (hstep : ∀ k t s, region.Touches k (region.start + t) → (0 < k → pageSize k ∣ phys + t) → I t s →
      wp (mapPage k (region.start + t) (phys + t) (flags ||| PageTableFlags.PRESENT)) s (fun _ => I (t + pageSize k)) E)
    (hI : I 0 s) :
    wp (map region phys flags) s (fun _ s' => region.Reached (divCeil region.size (pageSize 0) * pageSize 0) ∧
      I (divCeil region.size (pageSize 0) * pageSize 0) s') E := by
  rw [map]
  have hzero : region.Reached 0 := ⟨dvd_zero _, fun h x hle hge => by rwa [← hle.antisymm hge]⟩
  refine wp_seq (mapHuge_wp hstep hpanic le_rfl hzero (Nat.zero_add _) hI) (fun out s1 hs1 => ?_) fun _ _ h => h
  obtain ⟨t1, rem1, rfl, hrem1, ht1, hI1⟩ := hs1
  refine wp_seq (mapHuge_wp hstep hpanic (by norm_num) ht1 hrem1 hI1) (fun out s2 hs2 => ?_) fun _ _ h => h
  obtain ⟨t2, rem2, rfl, hrem2, ht2, hI2⟩ := hs2
  have hlt : ∀ i < divCeil rem2 (pageSize 0), t2 + i * pageSize 0 < region.size := fun i hi => by
    have := (lt_divCeil_iff (pageSize_pos 0)).1 hi
    omega
  have hall : t2 + divCeil rem2 (pageSize 0) * pageSize 0 = divCeil region.size (pageSize 0) * pageSize 0 := by
    rw [← divCeil_add (pageSize_pos 0) ht2.pages (by omega : t2 ≤ region.size), ← hrem2, Nat.add_sub_cancel_left]
  rw [← hall]
  refine wp_seq (mapPages_wp hstep hpanic (by norm_num) ht2 hlt (fun h => absurd h (lt_irrefl 0)) hI2)
    (fun _ s3 hs3 => wp_pure.2 hs3.2) fun _ _ h => h

omit hstep hpanic in
theorem map_keeps (hstep : ∀ k addr phys flags s, region.Touches k addr → P s → P (mapPage k addr phys flags s).2)
    (hP : P s) : P (map region phys flags s).2 := by
  have hmap := @map_wp s region flags (fun _ s => P s) _ (fun _ => P) phys (fun _ _ hs _ => hs)
    (fun k t s ht _ hs => wp_keeps.2 (hstep k _ _ _ s ht hs)) hP
  exact wp_keeps.1 (wp_mono hmap (fun _ _ h => h.2) fun _ _ h => h)

end Map

section Unmap

variable [Mapper]

theorem unmapPage_cases (k virt : ℕ) (s : VMemAllocator) :
    (∃ s', unmapPage k virt s = (.ok (.ok ()), s')) ∨ ∃ err, unmapPage k virt s = (.ok (.error err), s) := by
  simp only [unmapPage]
  split
  · exact .inl ⟨_, rfl⟩
  · exact .inr ⟨_, rfl⟩

variable {I : ℕ → VMemAllocator → Prop} {E : MemoryFault → VMemAllocator → Prop} {stop : ℕ}

/-- There is no huge page of level `k` at `curr` that could be unmapped. -/
def Passed (stop k curr : ℕ) (s : VMemAllocator) : Prop :=
  pageSize k ≤ stop - curr → pageSize k ∣ curr → ∀ s', unmapPage k curr s ≠ (.ok (.ok ()), s')

theorem unmapHuge_wp {k curr : ℕ}
    (hok : ∀ s', pageSize k ≤ stop - curr → pageSize k ∣ curr → unmapPage k curr s = (.ok (.ok ()), s') →
      I (curr + pageSize k) s') :
    wp (unmapHuge k curr stop) s
      (fun r s' => r = true ∧ I (curr + pageSize k) s' ∨ r = false ∧ s' = s ∧ Passed stop k curr s) E := by
  rw [unmapHuge]
  split_ifs with hfits
  · rcases unmapPage_cases k curr s with ⟨s', hrun⟩ | ⟨err, hrun⟩
    · refine wp_bind.2 (wp_of_run hrun (wp_pure.2 (.inl ⟨rfl, hok s' hfits.1 hfits.2 hrun⟩)))
    · refine wp_bind.2 (wp_of_run hrun (wp_pure.2 (.inr ⟨rfl, rfl, fun _ _ s' hrun' => ?_⟩)))
      rw [hrun] at hrun'
      cases hrun'
  · exact wp_pure.2 (.inr ⟨rfl, rfl, fun hle hdvd => absurd ⟨hle, hdvd⟩ hfits⟩)

theorem unmapLoop_wp (hstop : stop = region.start + region.size)
    (hok : ∀ k curr s s', region.Touches k curr → I curr s → unmapPage k curr s = (.ok (.ok ()), s') →
      I (curr + pageSize k) s')
    (hskip : ∀ curr s, region.Touches 0 curr → I curr s → unmapPage 0 curr s = (.ok (.error .pageNotMapped), s) →
      I (curr + pageSize 0) s)
    (hhuge : ∀ curr s, region.Touches 0 curr → I curr s → (∀ k, 0 < k → k ≤ 2 → Passed stop k curr s) →
      unmapPage 0 curr s = (.ok (.error .parentEntryHugePage), s) → E (.memory .invalidMapping) s)
    (hpanic : ∀ curr s, I curr s → ¬canonicalAddr curr → E .panic s) (fuel curr : ℕ) (hstart : region.start ≤ curr)
    (hmod : curr % pageSize 0 = region.start % pageSize 0) (hlow : region.start < 2 ^ 47 → curr < 2 ^ 47)
    (hfuel : stop - curr < fuel) (hI : I curr s) :
    wp (unmapLoop stop fuel curr) s
      (fun _ s' => ∃ last, stop ≤ last ∧ (region.start < 2 ^ 47 → last < 2 ^ 47) ∧ I last s') E := by
  induction fuel generalizing curr s with
  | zero => omega
  | succ fuel ih =>
    rw [unmapLoop]
    split_ifs with hlt
    swap
    · exact wp_pure.2 ⟨curr, Nat.not_lt.1 hlt, hlow, hI⟩
    have htouch : ∀ k, k ≤ 2 → (0 < k → pageSize k ∣ curr ∧ pageSize k ≤ stop - curr) → region.Touches k curr :=
      fun k hk hfits => ⟨hk, hstart, by omega, hlow,
        fun hpos => ⟨(hfits hpos).1, by have := (hfits hpos).2; omega⟩, hmod⟩
    have hnext : ∀ k s', k ≤ 2 → I (curr + pageSize k) s' →
        wp (virtAddr (curr + pageSize k) >>= fun c => unmapLoop stop fuel c) s'
          (fun _ s'' => ∃ last, stop ≤ last ∧ (region.start < 2 ^ 47 → last < 2 ^ 47) ∧ I last s'') E := by
      intro k s' hk hs'
      have hsize := pageSize_pos k
      refine wp_bind.2 (wp_virtAddr (fun hcan => ih _ (by omega) ?_ (fun h => canonicalAddr_lower hk hcan (hlow h))
        (by omega) hs') (hpanic _ _ hs'))
      rw [Nat.add_mod, Nat.mod_eq_zero_of_dvd (pageSize_dvd (Nat.zero_le k)), Nat.add_zero, Nat.mod_mod, hmod]
    have htwo := @unmapHuge_wp s _ I E stop 2 curr fun s' hle hd hrun =>
      hok 2 curr s s' (htouch 2 le_rfl fun _ => ⟨hd, hle⟩) hI hrun
    refine wp_seq htwo (fun r s1 hr => ?_) fun _ _ h => h
    rcases hr with ⟨rfl, hs1⟩ | ⟨rfl, rfl, hpassed⟩
    · exact hnext 2 s1 le_rfl hs1
    have hone := @unmapHuge_wp s1 _ I E stop 1 curr fun s' hle hd hrun =>
      hok 1 curr s1 s' (htouch 1 (by norm_num) fun _ => ⟨hd, hle⟩) hI hrun
    refine wp_seq hone (fun r s2 hr => ?_) fun _ _ h => h
    rcases hr with ⟨rfl, hs2⟩ | ⟨rfl, rfl, hpassed'⟩
    · exact hnext 1 s2 (by norm_num) hs2
    have hzero := htouch 0 (by norm_num) fun h => absurd h (lt_irrefl 0)
    rcases unmapPage_cases 0 curr s2 with ⟨s', hrun⟩ | ⟨err, hrun⟩
    · exact wp_bind.2 (wp_of_run hrun (hnext 0 s' (by norm_num) (hok 0 curr s2 s' hzero hI hrun)))
    · cases err with
      | pageNotMapped => exact wp_bind.2 (wp_of_run hrun (hnext 0 s2 (by norm_num) (hskip curr s2 hzero hI hrun)))
      | parentEntryHugePage =>
        refine wp_bind.2 (wp_of_run hrun (wp_fail.2 (hhuge curr s2 hzero hI (fun k hpos hk => ?_) hrun)))
        obtain rfl | rfl : k = 1 ∨ k = 2 := by omega
        · exact hpassed'
        · exact hpassed

/-- What `unmap` keeps on both exits, if the steps of its loop and the clean-up do. It does not return
from a region that leaves the lower half. -/
theorem unmap_keeps (hstep : ∀ k addr s, region.Touches k addr → P s → P (unmapPage k addr s).2)
    (hclean : ∀ last s, last + 1 = region.start + region.size → (region.start < 2 ^ 47 → last < 2 ^ 47) → P s →
      P (cleanUpAddrRange region.start last s).2)
    (hP : P s) :
    wp (unmap region) s (fun _ s' => (region.start < 2 ^ 47 → region.start + region.size < 2 ^ 47) ∧ P s')
      fun _ s' => P s' := by
  have hok : ∀ k curr s s', region.Touches k curr → P s → unmapPage k curr s = (.ok (.ok ()), s') → P s' := by
    intro k curr s s' ht hs hrun
    have hs' := hstep k curr s ht hs
    rwa [hrun] at hs'
  rw [unmap]
  refine wp_bind.2 (wp_virtAddr (fun _ => ?_) fun _ => hP)
  have hloop := @unmapLoop_wp s region _ (fun _ s => P s) (fun _ s => P s) _ rfl hok (fun _ _ _ hs _ => hs)
    (fun _ _ _ hs _ _ => hs) (fun _ _ hs _ => hs) (region.size + 1) region.start le_rfl rfl id (by omega) hP
  refine wp_seq hloop (fun _ s1 hs1 => ?_) fun _ _ h => h
  obtain ⟨last, hlast, hlow, hs1⟩ := hs1
  have hstop : region.start < 2 ^ 47 → region.start + region.size < 2 ^ 47 := fun h => hlast.trans_lt (hlow h)
  rw [virtSub]
  split_ifs with hpos
  · refine wp_bind.2 (wp_virtAddr (fun _ => ?_) fun _ => hs1)
    refine wp_mono (wp_keeps.2 (hclean _ s1 (Nat.sub_add_cancel hpos) (fun h => ?_) hs1)) (fun _ _ h => ⟨hstop, h⟩)
      fun _ _ h => h
    have := hstop h
    omega
  · exact wp_bind.2 (wp_fail.2 hs1)

end Unmap

section Calls

theorem free_keeps [Mapper] (hunmap : wp (unmap region) s
      (fun _ s' => (region.start < 2 ^ 47 → region.start + region.size < 2 ^ 47) ∧ P s') fun _ s' => P s')
    (hfree : ∀ s, (region.start < 2 ^ 47 → region.start + region.size < 2 ^ 47) → P s →
      P { s with allocator := s.allocator.free region.start region.size }) : P (free region s).2 := by
  refine wp_keeps.1 ?_
  rw [free]
  refine wp_seq hunmap (fun _ s1 hs1 => ?_) fun _ _ h => h
  exact wp_keeps.2 (hfree s1 hs1.1 hs1.2)

theorem onAllocator_run {α : Type} {f : RangeAllocator → α × RangeAllocator} {x : α} {a' : RangeAllocator}
    (h : f s.allocator = (x, a')) : onAllocator f s = (.ok x, { s with allocator := a' }) := by
  simp only [onAllocator, h]

theorem reserve_ok {a' : RangeAllocator} (hsize : region.size % PAGE_SIZE = 0) (hstart : region.start % PAGE_SIZE = 0)
    (h : s.allocator.reserve region.start region.size = (true, a')) :
    reserve region s = (.ok (), { s with allocator := a' }) := by
  have hstep := @onAllocator_run s _ (fun a => a.reserve region.start region.size) _ _ h
  rw [reserve, if_neg (not_not.2 hsize), if_neg (not_not.2 hstart)]
  show Prog.seq _ _ s = _
  rw [Prog.seq, hstep]
  rfl

theorem reserve_cases (region : VirtualRegion) (s : VMemAllocator) :
    (∃ a', region.size % PAGE_SIZE = 0 ∧ region.start % PAGE_SIZE = 0 ∧
      s.allocator.reserve region.start region.size = (true, a') ∧ reserve region s = (.ok (), { s with allocator := a' })) ∨
    ∃ a', (s.allocator = a' ∨ s.allocator.reserve region.start region.size = (false, a')) ∧
      reserve region s = (.error (.memory .invalidMapping), { s with allocator := a' }) := by
  rcases hrun : s.allocator.reserve region.start region.size with ⟨ok, a'⟩
  have hstep := @onAllocator_run s _ (fun a => a.reserve region.start region.size) _ _ hrun
  by_cases hsize : region.size % PAGE_SIZE = 0
  · by_cases hstart : region.start % PAGE_SIZE = 0
    · cases ok with
      | true => exact .inl ⟨a', hsize, hstart, rfl, reserve_ok hsize hstart hrun⟩
      | false =>
        refine .inr ⟨a', .inr rfl, ?_⟩
        rw [reserve, if_neg (not_not.2 hsize), if_neg (not_not.2 hstart)]
        show Prog.seq _ _ s = _
        rw [Prog.seq, hstep]
        rfl
    · refine .inr ⟨_, .inl rfl, ?_⟩
      rw [reserve, if_neg (not_not.2 hsize), if_pos hstart]
      rfl
  · refine .inr ⟨_, .inl rfl, ?_⟩
    rw [reserve, if_pos hsize]
    rfl

theorem alloc_cases (count : ℕ) (s : VMemAllocator) :
    alloc count s = (.ok none, s) ∨
    ∃ align start a', (align = pageSize 2 ∨ align = pageSize 1 ∨ align = pageSize 0) ∧
      s.allocator.allocate (wmul count (pageSize 0)) align = (some start, a') ∧
      alloc count s = (if canonicalAddr start then .ok (some ⟨start, wmul count (pageSize 0)⟩) else .error .panic,
        { s with allocator := a' }) := by
  rw [alloc]
  by_cases hcount : count = 0
  · rw [if_pos hcount]
    exact .inl rfl
  rw [if_neg hcount]
  have hcases : ∀ align, align = (if count % 0x40000 = 0 then pageSize 2 else if count % 0x200 = 0 then pageSize 1
      else pageSize 0) → align = pageSize 2 ∨ align = pageSize 1 ∨ align = pageSize 0 := by
    intro align halign
    rw [halign]
    split_ifs
    exacts [.inl rfl, .inr (.inl rfl), .inr (.inr rfl)]
  generalize halign : (if count % 0x40000 = 0 then pageSize 2 else if count % 0x200 = 0 then pageSize 1 else pageSize 0) =
    align
  cases hfrom : RangeAllocator.allocateFrom (wmul count (pageSize 0)) align [] s.allocator.ranges with
  | none =>
    have hres : s.allocator.allocate (wmul count (pageSize 0)) align = (none, s.allocator) := by
      rw [RangeAllocator.allocate, hfrom]
    refine .inl ?_
    show Prog.seq _ _ s = _
    rw [Prog.seq, @onAllocator_run s _ (fun a => a.allocate (wmul count (pageSize 0)) align) _ _ hres]
    rfl
  | some p =>
    have hres : s.allocator.allocate (wmul count (pageSize 0)) align = (some p.1, p.2) := by
      rw [RangeAllocator.allocate, hfrom]
    refine .inr ⟨align, p.1, p.2, hcases align halign.symm, hres, ?_⟩
    show Prog.seq _ _ s = _
    rw [Prog.seq, @onAllocator_run s _ (fun a => a.allocate (wmul count (pageSize 0)) align) _ _ hres]
    show Prog.seq (virtAddr p.1) _ _ = _
    rw [Prog.seq, virtAddr]
    split_ifs
    · rfl
    · rfl

theorem map_nothing [Mapper] (hsize : region.size = 0) (phys : ℕ) (flags : PageTableFlags) (s : VMemAllocator) :
    map region phys flags s = (.ok (), s) := by
  have hhuge : ∀ k flags virt phys, mapHuge k flags 0 virt phys = pure (0, virt, phys) := by
    intro k flags virt phys
    rw [mapHuge, if_neg]
    have := pageSize_pos k
    omega
  have hzero : divCeil 0 (pageSize 0) = 0 := by
    rw [divCeil, Nat.zero_add]
    exact Nat.div_eq_of_lt (Nat.sub_lt (pageSize_pos 0) Nat.one_pos)
  rw [map, hsize, hhuge, pure_bind]
  simp only [hhuge, pure_bind, hzero, mapPages]
  rfl

theorem wp_attempt {x : VMem Unit} {Q : Except MemoryError Unit → VMemAllocator → Prop} :
    wp (attempt x) s Q E ↔ wp x s (fun _ s' => Q (.ok ()) s') fun e s' =>
      match e with
      | .memory e => Q (.error e) s'
      | e => E e s' := by
  unfold wp attempt
  rcases x s with ⟨e | ⟨⟩, s'⟩
  · cases e <;> rfl
  · rfl

theorem mapFixed_keeps [Mapper] {phys : ℕ} (hreserve : P (reserve region s).2)
    (hmap : ∀ a', s.allocator.reserve region.start region.size = (true, a') → region.size ≠ 0 →
      P { s with allocator := a' } → P (map region phys flags { s with allocator := a' }).2)
    (hfree : ∀ s', region.size ≠ 0 → (∃ a', s.allocator.reserve region.start region.size = (true, a')) → P s' →
      P (free region s').2) : P (mapFixed region phys flags s).2 := by
  rw [mapFixed]
  rcases reserve_cases region s with ⟨a', -, -, hres, hrun⟩ | ⟨a', -, hrun⟩
  · rw [hrun] at hreserve
    refine wp_keeps.1 (wp_bind.2 (wp_of_run hrun ?_))
    by_cases hsize : region.size = 0
    · exact wp_bind.2 (wp_attempt.2 (wp_of_run (map_nothing hsize phys flags _) (wp_pure.2 hreserve)))
    · have hs1 := hmap a' hres hsize hreserve
      refine wp_bind.2 (wp_attempt.2 (wp_mono (wp_keeps.2 hs1) (fun _ s1 h => wp_pure.2 h) fun e s1 h => ?_))
      cases e with
      | memory e => exact wp_seq (wp_keeps.2 (hfree s1 hsize ⟨a', hres⟩ h)) (fun _ s2 h => wp_fail.2 h) fun _ _ h => h
      | panic => exact h
      | diverge => exact h
  · rw [hrun] at hreserve
    refine wp_keeps.1 (wp_bind.2 ?_)
    simp only [wp, hrun]
    exact hreserve

end Calls

end VMemAllocator

end MaramOS
