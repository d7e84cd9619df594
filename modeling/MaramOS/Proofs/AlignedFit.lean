import MaramOS.Proofs.Ranges

/-! What `allocate` and `reserve` promise about the set of free addresses: `reserve`
is all or nothing in every run of calls that do not wrap, and `allocate` is an
aligned first fit as long as no empty range is added to the list. -/

namespace MaramOS

open Intervals Prog

/-- What is added is not free yet, and no sum of addresses reaches `2 ^ 64`. The range may be empty. -/
def RangeOp.NonWrapping (a : RangeAllocator) : RangeOp → Prop
  | .addRange start stop => start ≤ stop ∧ stop < 2 ^ 64 ∧ Disjoint a.freeSet (Set.Ico start stop)
  | .free base size => base + size < 2 ^ 64 ∧ Disjoint a.freeSet (Set.Ico base (base + size))
  | .allocate size align => 0 < align ∧ RangeAllocator.NoWrap size align a.ranges
  | .reserve _ _ => True

def RangeOp.Nonempty : RangeOp → Prop
  | .addRange start stop => start < stop
  | .free _ size => 0 < size
  | _ => True

namespace RangeAllocator

variable {a a' : RangeAllocator} {l : List Range} {start stop size align base s : ℕ}

section Reserve

/-- Ranges that share no address and end below `2 ^ 64`. -/
structure Sound (a : RangeAllocator) : Prop where
  within : Within (2 ^ 64 - 1) a.ranges
  apart : Apart a.ranges

theorem Sound.free (h : a.Sound) (hend : base + size < 2 ^ 64) (hd : Disjoint a.freeSet (Set.Ico base (base + size))) :
    (a.free base size).Sound := by
  obtain ⟨hw, -, ha⟩ := free_weak (by norm_num) h.within (Nat.le_sub_one_of_lt hend)
  exact ⟨hw, (ha h.apart hd).1⟩

theorem Sound.apply (h : a.Sound) {op : RangeOp} (hok : op.NonWrapping a) : (op.apply a).Sound := by
  cases op with
  | addRange start stop =>
    obtain ⟨hle, hstop, hd⟩ := hok
    rw [RangeOp.apply, addRange_eq_free hle]
    rw [← Nat.add_sub_cancel' hle] at hd
    exact h.free (by omega) hd
  | free base size => exact h.free hok.1 hok.2
  | allocate size align =>
    rw [RangeOp.apply]
    rcases hrun : a.allocate size align with ⟨_ | start, a'⟩
    · rw [allocate_none hrun]
      exact h
    · obtain ⟨-, -, -, hw, ha⟩ := allocate_noWrap (by norm_num) h.within hok.1 hok.2 hrun
      exact ⟨hw, (ha h.apart).1⟩
  | reserve start size =>
    obtain ⟨hw, ha, -⟩ := reserve_weak (by norm_num) h.within (rfl : a.reserve start size = (_, _))
    exact ⟨hw, ha h.apart⟩

theorem sound_of_runs (h : Runs RangeOp.run (fun a op _ => op.NonWrapping a) new a) : a.Sound := by
  refine h.invariant Sound ⟨fun r hr => absurd hr List.not_mem_nil, .nil⟩ fun a op r a' hs hrun hok => ?_
  obtain rfl : op.apply a = a' := (Prod.mk.inj hrun).2
  exact hs.apply hok

theorem reserve_free {a' : RangeAllocator} (hrun : a.reserve start size = (true, a')) : start + size < 2 ^ 64 := by
  by_contra hover
  rw [reserve, if_pos (not_lt.1 hover)] at hrun
  cases hrun

/-- `reserve` takes all of a region or nothing. -/
theorem reserve_all_or_nothing (h : Runs RangeOp.run (fun a op _ => op.NonWrapping a) new a) (start size : ℕ) :
    ((a.reserve start size).1 = true ↔ start + size < 2 ^ 64 ∧ Set.Ico start (start + size) ⊆ a.freeSet) ∧
    ((a.reserve start size).1 = true → (a.reserve start size).2.freeSet = a.freeSet \ Set.Ico start (start + size)) ∧
    ((a.reserve start size).1 = false → (a.reserve start size).2.freeSet = a.freeSet) ∧
    (start < 2 ^ 64 → a.reserve start 0 = (true, a)) := by
  have hs := sound_of_runs h
  obtain ⟨-, -, hok, hfail, -⟩ := reserve_weak (by norm_num) hs.within (rfl : a.reserve start size = (_, _))
  refine ⟨⟨fun htrue => ⟨reserve_free (Prod.ext htrue rfl), (hok htrue).2.1⟩, fun hfree => ?_⟩,
    fun htrue => (hok htrue).2.2, hfail, fun hstart => ?_⟩
  · exact reserve_of_free (by norm_num) hs.within hfree.1 hfree.2
  · rw [reserve, if_neg (not_le.2 (by omega)), Nat.add_zero]
    simp only [if_true]

def emptyBetween : RangeAllocator :=
  (RangeOp.addRange 10 15).apply ((RangeOp.addRange 5 5).apply ((RangeOp.addRange 0 10).apply new))

theorem emptyBetween_ranges : emptyBetween.ranges = [⟨0, 10⟩, ⟨5, 0⟩, ⟨10, 5⟩] := by decide

theorem emptyBetween_runs : Runs RangeOp.run (fun a op _ => op.NonWrapping a) new emptyBetween := by
  have hfirst : (RangeOp.addRange 0 10).NonWrapping new := ⟨by norm_num, by norm_num, by simp [new, freeSet]⟩
  have hempty : (RangeOp.addRange 5 5).NonWrapping ((RangeOp.addRange 0 10).apply new) := by
    refine ⟨le_rfl, by norm_num, ?_⟩
    rw [Set.Ico_self]
    exact Set.disjoint_empty _
  have hranges : ((RangeOp.addRange 5 5).apply ((RangeOp.addRange 0 10).apply new)).ranges = [⟨0, 10⟩, ⟨5, 0⟩] := by decide
  have hlast : (RangeOp.addRange 10 15).NonWrapping ((RangeOp.addRange 5 5).apply ((RangeOp.addRange 0 10).apply new)) := by
    refine ⟨by norm_num, by norm_num, Set.disjoint_left.2 fun x hx hx' => ?_⟩
    obtain ⟨r, hr, -, hlt⟩ := mem_span.1 hx
    rw [hranges] at hr
    simp only [List.mem_cons, List.not_mem_nil, or_false] at hr
    rw [Set.mem_Ico] at hx'
    rcases hr with rfl | rfl <;> simp only at hlt <;> omega
  have hstart : Runs RangeOp.run (fun a op _ => op.NonWrapping a) new new := .start
  exact ((hstart.next hfirst).next hempty).next hlast

theorem reserve_all_or_nothing_across :
    (emptyBetween.reserve 2 10).1 = true ∧ (emptyBetween.reserve 2 10).2.freeSet = emptyBetween.freeSet \ Set.Ico 2 12 := by
  have htrue : (emptyBetween.reserve 2 10).1 = true := by decide
  exact ⟨htrue, (reserve_all_or_nothing emptyBetween_runs 2 10).2.1 htrue⟩

end Reserve

section Allocate

/-- Where an aligned block of free addresses can begin. -/
def Places (a : RangeAllocator) (size align : ℕ) : Set ℕ := {s | align ∣ s ∧ Set.Ico s (s + size) ⊆ a.freeSet}

theorem roundUp_le_of_dvd {n : ℕ} (h : n ≤ s) (hdvd : align ∣ s) : roundUp n align ≤ s := by
  rcases Nat.eq_zero_or_pos align with rfl | halign
  · rw [Nat.zero_dvd.1 hdvd] at h ⊢
    rw [Nat.le_zero.1 h, roundUp, if_pos rfl]
  · obtain ⟨k, rfl⟩ := hdvd
    exact roundUp_le halign (Dvd.intro k rfl) h

/-- A block of free addresses lies in one range, since no two ranges touch. -/
theorem Canonical.single_range (h : a.Canonical) (hsize : 0 < size) (hsub : Set.Ico s (s + size) ⊆ a.freeSet) :
    ∃ r ∈ a.ranges, r.start ≤ s ∧ s + size ≤ r.start + r.length := by
  obtain ⟨r, hr, hle, hlt⟩ := mem_span.1 (hsub ⟨le_rfl, by omega⟩)
  refine ⟨r, hr, hle, Nat.not_lt.1 fun hshort => ?_⟩
  -- the first address behind the range would be free
  have hfree : r.start + r.length ∈ a.freeSet := hsub ⟨by omega, hshort⟩
  obtain ⟨q, hq, hqle, hqlt⟩ := mem_span.1 hfree
  have hqr : q ≠ r := by
    rintro rfl
    omega
  have hapart : a.ranges.Pairwise fun r q => r.start + r.length < q.start ∨ q.start + q.length < r.start :=
    h.apart.imp fun hrq => .inl hrq
  have : Std.Symm fun r q : Range => r.start + r.length < q.start ∨ q.start + q.length < r.start := ⟨fun _ _ hrq => hrq.symm⟩
  rcases hapart.forall hq hr hqr with hbefore | hafter
  · omega
  · omega

theorem Canonical.places_iff (h : a.Canonical) (hsize : 0 < size) :
    s ∈ a.Places size align ↔ align ∣ s ∧ ∃ r ∈ a.ranges, r.start ≤ s ∧ s + size ≤ r.start + r.length := by
  refine and_congr_right fun _ => ⟨h.single_range hsize, ?_⟩
  rintro ⟨r, hr, hle, hend⟩ x hx
  exact mem_span.2 ⟨r, hr, hle.trans hx.1, hx.2.trans_le hend⟩

theorem Canonical.first_fit (h : a.Canonical) (hsize : 0 < size) (halign : 0 < align) (hno : NoWrap size align a.ranges) :
    (∃ s a', a.allocate size align = (some s, a') ∧ IsLeast (a.Places size align) s) ∨
    (a.allocate size align = (none, a) ∧ a.Places size align = ∅) := by
  have hfits : ∀ {r : Range} {s : ℕ}, r.start ≤ s → align ∣ s → s + size ≤ r.start + r.length →
      roundUp r.start align + size ≤ r.start + r.length := fun hle hdvd hend => by
    have := roundUp_le_of_dvd hle hdvd
    omega
  rcases @allocateFrom_cases _ _ _ [] h.bounded hno with ⟨hnone, hall⟩ | ⟨pre, r, rest, left, hsplit, hpre, hfit, -, hrun⟩
  · refine .inr ⟨by rw [allocate, hnone], Set.eq_empty_iff_forall_notMem.2 fun s hs => ?_⟩
    obtain ⟨hdvd, r, hr, hle, hend⟩ := (h.places_iff hsize).1 hs
    exact absurd (hfits hle hdvd hend) (not_le.2 (hall r hr))
  · refine .inl ⟨roundUp r.start align, _, by rw [allocate, hrun], ?_, fun s hs => ?_⟩
    · have hr : r ∈ a.ranges := hsplit ▸ List.mem_append_right _ List.mem_cons_self
      exact (h.places_iff hsize).2 ⟨dvd_roundUp halign, r, hr, le_roundUp _ _, hfit⟩
    · obtain ⟨hdvd, q, hq, hle, hend⟩ := (h.places_iff hsize).1 hs
      have hapart := h.apart
      rw [hsplit] at hq hapart
      rcases List.mem_append.1 hq with hq | hq
      · exact absurd (hfits hle hdvd hend) (not_le.2 (hpre q hq))
      · rcases List.mem_cons.1 hq with rfl | hq
        · exact roundUp_le_of_dvd hle hdvd
        · have hlater := (List.pairwise_cons.1 (List.pairwise_append.1 hapart).2.1).1 q hq
          omega

theorem Canonical.apply_nonWrapping (h : a.Canonical) {op : RangeOp} (hok : op.NonWrapping a) (hne : op.Nonempty) :
    (op.apply a).Canonical := by
  cases op with
  | addRange start stop => exact @Canonical.apply a h (.addRange start stop) ⟨hne, hok.2⟩
  | free base size => exact @Canonical.apply a h (.free base size) ⟨hne, hok⟩
  | allocate size align =>
    rw [RangeOp.apply]
    rcases hrun : a.allocate size align with ⟨_ | start, a'⟩
    · rw [allocate_none hrun]
      exact h
    · exact (allocate_spec h hok.1 hok.2 hrun).2.2.2.1
  | reserve start size =>
    by_cases hlt : start + size < 2 ^ 64
    · exact @Canonical.apply a h (.reserve start size) hlt
    · rw [RangeOp.apply, reserve, if_pos (not_lt.1 hlt)]
      exact h

/-- `allocate` finds the least aligned place with enough free addresses, if there is one. -/
theorem allocate_first_fit (h : Runs RangeOp.run (fun a op _ => op.NonWrapping a ∧ op.Nonempty) new a) (hsize : 0 < size)
    (halign : 0 < align) (hno : NoWrap size align a.ranges) :
    (∃ s a', a.allocate size align = (some s, a') ∧ IsLeast (a.Places size align) s) ∨
    (a.allocate size align = (none, a) ∧ a.Places size align = ∅) := by
  refine Canonical.first_fit ?_ hsize halign hno
  refine h.invariant Canonical canonical_new fun a op r a' hcan hrun hok => ?_
  obtain rfl : op.apply a = a' := (Prod.mk.inj hrun).2
  exact hcan.apply_nonWrapping hok.1 hok.2

/-- From 10 to 30 all is free, and the least multiple of 16 with eight free addresses is 16. -/
theorem allocate_first_fit_sixteen :
    ∃ a : RangeAllocator, a.ranges = [⟨10, 20⟩] ∧ IsLeast (a.Places 8 16) 16 := by
  have h : Runs RangeOp.run (fun a op _ => op.NonWrapping a ∧ op.Nonempty) new ((RangeOp.addRange 10 30).apply new) := by
    refine .call .start rfl ⟨⟨by norm_num, by norm_num, by simp [new, freeSet]⟩, ?_⟩
    show 10 < 30
    norm_num
  have hranges : ((RangeOp.addRange 10 30).apply new).ranges = [⟨10, 20⟩] := by decide
  have hno : NoWrap 8 16 ((RangeOp.addRange 10 30).apply new).ranges := by
    rw [hranges]
    exact ⟨by decide, fun _ => trivial⟩
  refine ⟨_, hranges, ?_⟩
  rcases allocate_first_fit h (by norm_num) (by norm_num) hno with ⟨s, a', hrun, hleast⟩ | ⟨hrun, -⟩
  · have hfound : (allocate ((RangeOp.addRange 10 30).apply new) 8 16).1 = some 16 := by decide
    rw [hrun] at hfound
    cases hfound
    exact hleast
  · have hfound : (allocate ((RangeOp.addRange 10 30).apply new) 8 16).1 = some 16 := by decide
    rw [hrun] at hfound
    cases hfound

/-- The empty range keeps the ranges around it from being merged. -/
theorem empty_range_hides_place :
    Runs RangeOp.run (fun a op _ => op.NonWrapping a) new emptyBetween ∧ NoWrap 15 1 emptyBetween.ranges ∧
      (emptyBetween.allocate 15 1).1 = none ∧ 0 ∈ emptyBetween.Places 15 1 := by
  refine ⟨emptyBetween_runs, ?_, by decide, one_dvd _, fun x hx => ?_⟩
  · rw [emptyBetween_ranges]
    exact ⟨by decide, fun _ => ⟨by decide, fun _ => ⟨by decide, fun _ => trivial⟩⟩⟩
  · rw [Set.mem_Ico] at hx
    refine mem_span.2 ?_
    rw [emptyBetween_ranges]
    by_cases hlow : x < 10
    · exact ⟨⟨0, 10⟩, by simp, by simp only; omega, by simp only; omega⟩
    · exact ⟨⟨10, 5⟩, by simp, by simp only; omega, by simp only; omega⟩

end Allocate

end RangeAllocator

end MaramOS
