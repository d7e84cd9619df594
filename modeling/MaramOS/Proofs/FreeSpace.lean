import MaramOS.Lib.Intervals
import MaramOS.Spec.RangeAllocator

/-! The range allocator on lists in any order, which may hold empty ranges: freeing a
region without any page leaves one in the list. The ranges end at or below `bound`, so
no sum wraps, and the operations on them are those on intervals. -/

namespace MaramOS

open Intervals
open List (map_append pairwise_map mem_cons_self mem_cons_of_mem map_cons forall_mem_cons not_mem_nil append_assoc)

def Range.ends (r : Range) : ℕ × ℕ := (r.start, r.start + r.length)

open Range (ends)

namespace RangeAllocator

variable {bound start stop size align base n : ℕ} {a a' : RangeAllocator} {l l' : List Range} {r : Range}

def freeSet (a : RangeAllocator) : Set ℕ := points (a.ranges.map ends)

/-- Sorted by start, with non-empty ranges that neither overlap nor touch. -/
structure Canonical (a : RangeAllocator) : Prop where
  nonempty : ∀ r ∈ a.ranges, 0 < r.length
  bounded : ∀ r ∈ a.ranges, r.start + r.length < 2 ^ 64
  apart : a.ranges.Pairwise fun r s => r.start + r.length < s.start

def span (l : List Range) : Set ℕ := points (l.map ends)

theorem mem_span {x : ℕ} : x ∈ span l ↔ ∃ r ∈ l, r.start ≤ x ∧ x < r.start + r.length := by
  rw [span, mem_points]
  constructor
  · rintro ⟨q, hq, hx⟩
    obtain ⟨r, hr, rfl⟩ := List.mem_map.1 hq
    exact ⟨r, hr, hx⟩
  · rintro ⟨r, hr, hx⟩
    exact ⟨r.ends, List.mem_map_of_mem hr, hx⟩

theorem span_cons : span (r :: l) = Set.Ico r.start (r.start + r.length) ∪ span l := points_cons

theorem span_nil : span [] = ∅ := points_nil

theorem span_append : span (l ++ l') = span l ∪ span l' := by
  rw [span, map_append, points_append]
  rfl

theorem span_perm (h : l.Perm l') : span l = span l' := points_perm (h.map _)

def Within (bound : ℕ) (l : List Range) : Prop := ∀ r ∈ l, r.start + r.length ≤ bound

def Apart (l : List Range) : Prop :=
  l.Pairwise fun r q => Disjoint (Set.Ico r.start (r.start + r.length)) (Set.Ico q.start (q.start + q.length))

theorem apart_iff : Apart l ↔ Intervals.Apart (l.map ends) := by
  rw [Apart, Intervals.Apart, pairwise_map]
  rfl

theorem apart_cons : Apart (r :: l) ↔ Disjoint (Set.Ico r.start (r.start + r.length)) (span l) ∧ Apart l := by
  rw [apart_iff, apart_iff]
  exact Intervals.apart_cons

theorem Apart.perm (h : Apart l) (hp : l.Perm l') : Apart l' := List.Pairwise.perm h hp fun hd => hd.symm

theorem within_iff : Within bound l ↔ ∀ q ∈ l.map ends, q.2 ≤ bound := by
  rw [List.forall_mem_map]
  rfl

theorem within_append : Within bound (l ++ l') ↔ Within bound l ∧ Within bound l' := List.forall_mem_append

theorem within_lt (h : Within bound l) (hb : bound < 2 ^ 64) (hr : r ∈ l) : wadd r.start r.length = r.start + r.length :=
  wadd_of_lt ((h r hr).trans_lt hb)

def Full (l : List Range) : Prop := ∀ r ∈ l, 0 < r.length

theorem full_iff : Full l ↔ ∀ q ∈ l.map ends, q.1 < q.2 := by
  rw [List.forall_mem_map]
  exact forall₂_congr fun r _ => Nat.lt_add_right_iff_pos.symm

theorem full_append : Full (l ++ l') ↔ Full l ∧ Full l' := List.forall_mem_append

theorem Canonical.intervals (h : a.Canonical) : Intervals.Canonical (a.ranges.map ends) :=
  ⟨full_iff.1 h.nonempty, pairwise_map.2 h.apart⟩

theorem Canonical.disjoint (h : a.Canonical) : Apart a.ranges := apart_iff.2 h.intervals.disjoint

theorem Canonical.within (h : a.Canonical) : Within (2 ^ 64 - 1) a.ranges :=
    fun r hr => Nat.le_sub_one_of_lt (h.bounded r hr)

theorem mergeFrom_spec (hb : bound < 2 ^ 64) (curr : Range) (l : List Range) (h : Within bound (curr :: l)) :
    (mergeFrom curr l).map ends = merge curr.ends (l.map ends) ∧ Within bound (mergeFrom curr l) := by
  induction l generalizing curr with
  | nil => exact ⟨rfl, h⟩
  | cons next rest ih =>
    have hcurr := h curr mem_cons_self
    have hnext := h next (mem_cons_of_mem _ mem_cons_self)
    have hrest := fun r hr => h r (mem_cons_of_mem _ (mem_cons_of_mem _ hr))
    rw [mergeFrom, map_cons, merge, within_lt h hb mem_cons_self]
    by_cases hadj : curr.start + curr.length = next.start
    · have hlen : wadd curr.length next.length = curr.length + next.length := wadd_of_lt (by omega)
      have hends : ends ⟨curr.start, curr.length + next.length⟩ = (curr.ends.1, next.ends.2) := by
        simp only [ends, Prod.mk.injEq, true_and]
        omega
      rw [if_pos hadj, if_pos (show curr.ends.2 = next.ends.1 from hadj), hlen, ← hends]
      refine ih _ (forall_mem_cons.2 ⟨?_, hrest⟩)
      show curr.start + (curr.length + next.length) ≤ bound
      omega
    · obtain ⟨hmap, hbound⟩ := ih next fun r hr => h r (mem_cons_of_mem _ hr)
      rw [if_neg hadj, if_neg (show ¬curr.ends.2 = next.ends.1 from hadj), map_cons, hmap]
      exact ⟨rfl, forall_mem_cons.2 ⟨hcurr, hbound⟩⟩

theorem coalesce_cases (l : List Range) : l = [] ∧ coalesce ⟨l⟩ = ⟨[]⟩ ∨
    ∃ curr rest, (curr :: rest).Perm l ∧ ((curr :: rest).map ends).Pairwise (fun p q => p.1 ≤ q.1) ∧
      coalesce ⟨l⟩ = ⟨mergeFrom curr rest⟩ := by
  have hperm := l.perm_insertionSort fun r s => r.start ≤ s.start
  have hsorted := l.pairwise_insertionSort fun r s => r.start ≤ s.start
  unfold coalesce
  cases hsort : l.insertionSort (fun r s => r.start ≤ s.start) with
  | nil =>
    rw [hsort] at hperm
    exact .inl ⟨hperm.nil_eq.symm, rfl⟩
  | cons curr rest =>
    rw [hsort] at hperm hsorted
    exact .inr ⟨curr, rest, hperm, pairwise_map.2 hsorted, rfl⟩

section Coalesce

variable (hb : bound < 2 ^ 64) (h : Within bound l)
include hb h

theorem coalesce_weak :
    Within bound (coalesce ⟨l⟩).ranges ∧ span (coalesce ⟨l⟩).ranges = span l ∧
      (Apart l → Apart (coalesce ⟨l⟩).ranges) := by
  rcases coalesce_cases l with ⟨rfl, heq⟩ | ⟨curr, rest, hperm, -, heq⟩
  · rw [heq]
    exact ⟨h, rfl, id⟩
  · obtain ⟨hmap, hw⟩ := mergeFrom_spec hb curr rest fun r hr => h r (hperm.mem_iff.1 hr)
    have hle : ∀ q ∈ (curr :: rest).map ends, q.1 ≤ q.2 := List.forall_mem_map.2 fun r _ => Nat.le_add_right _ _
    obtain ⟨hpts, ha⟩ := merge_spec curr.ends (rest.map ends) hle
    rw [← hmap] at hpts ha
    rw [heq]
    exact ⟨hw, hpts.trans (span_perm hperm), fun hapart => apart_iff.2 (ha (apart_iff.1 (hapart.perm hperm.symm)))⟩

theorem coalesce_sorted : (coalesce ⟨l⟩).ranges.Pairwise fun r q => r.start ≤ q.start := by
  rcases coalesce_cases l with ⟨rfl, heq⟩ | ⟨curr, rest, hperm, hsorted, heq⟩
  · rw [heq]
    exact .nil
  · obtain ⟨hmap, -⟩ := mergeFrom_spec hb curr rest fun r hr => h r (hperm.mem_iff.1 hr)
    have hmerge := (merge_sorted _ _ hsorted).2
    rw [← hmap, pairwise_map] at hmerge
    rw [heq]
    exact hmerge

theorem coalesce_canonical (ha : Apart l) (hf : Full l) : (coalesce ⟨l⟩).Canonical := by
  rcases coalesce_cases l with ⟨rfl, heq⟩ | ⟨curr, rest, hperm, hsorted, heq⟩
  · rw [heq]
    exact ⟨hf, fun r hr => absurd hr not_mem_nil, .nil⟩
  · obtain ⟨hmap, hw⟩ := mergeFrom_spec hb curr rest fun r hr => h r (hperm.mem_iff.1 hr)
    have hne : ∀ q ∈ (curr :: rest).map ends, q.1 < q.2 := full_iff.1 fun r hr => hf r (hperm.mem_iff.1 hr)
    have hcan := merge_canonical _ _ hne ((apart_iff.1 (ha.perm hperm.symm)).ordered hne hsorted)
    rw [← hmap] at hcan
    rw [heq]
    exact ⟨full_iff.2 hcan.nonempty, fun r hr => (hw r hr).trans_lt hb, pairwise_map.1 hcan.apart⟩

end Coalesce

theorem free_weak (hb : bound < 2 ^ 64) (h : Within bound a.ranges) (hend : base + size ≤ bound) :
    Within bound (a.free base size).ranges ∧
    span (a.free base size).ranges = span a.ranges ∪ Set.Ico base (base + size) ∧
    (Apart a.ranges → Disjoint (span a.ranges) (Set.Ico base (base + size)) → Apart (a.free base size).ranges ∧
      (Full a.ranges → 0 < size → (a.free base size).Canonical)) := by
  have hperm : (a.ranges ++ [(⟨base, size⟩ : Range)]).Perm (⟨base, size⟩ :: a.ranges) := List.perm_append_singleton _ _
  have hwithin : Within bound (a.ranges ++ [⟨base, size⟩]) := within_append.2 ⟨h, List.forall_mem_singleton.2 hend⟩
  obtain ⟨hw, hs, ha⟩ := coalesce_weak hb hwithin
  refine ⟨hw, ?_, fun hapart hd => ?_⟩
  · refine hs.trans ?_
    rw [span_perm hperm, span_cons, Set.union_comm]
  · have hall := (apart_cons.2 ⟨hd.symm, hapart⟩).perm hperm.symm
    exact ⟨ha hall, fun hf hpos => coalesce_canonical hb hwithin hall (full_append.2 ⟨hf, List.forall_mem_singleton.2 hpos⟩)⟩

theorem sweep_sound (hb : bound < 2 ^ 64) (h : Within bound l) {stop cursor c : ℕ} (hrun : sweep stop cursor l = some c) :
    Set.Ico cursor c ⊆ span l := by
  induction l generalizing cursor with
  | nil =>
    cases hrun
    rw [Set.Ico_self]
    exact Set.empty_subset _
  | cons r rest ih =>
    have ih := fun cursor => @ih (fun q hq => h q (mem_cons_of_mem _ hq)) cursor
    rw [sweep, within_lt h hb mem_cons_self] at hrun
    rw [span_cons]
    split_ifs at hrun with hpast hgap hdone
    · exact (ih cursor hrun).trans Set.subset_union_right
    · cases hrun
      exact fun x hx => .inl ⟨(not_lt.1 hgap).trans hx.1, hx.2⟩
    · intro x hx
      by_cases hxr : x < r.start + r.length
      · exact .inl ⟨(not_lt.1 hgap).trans hx.1, hxr⟩
      · exact .inr (ih _ hrun ⟨not_lt.1 hxr, hx.2⟩)

theorem sweep_complete {bound cursor : ℕ} (hb : bound < 2 ^ 64) (hw : Within bound l)
    (hs : l.Pairwise fun r q => r.start ≤ q.start) (hlt : cursor < stop) (hsub : Set.Ico cursor stop ⊆ span l) :
    ∃ c, sweep stop cursor l = some c ∧ stop ≤ c := by
  induction l generalizing cursor with
  | nil =>
    have hmem := hsub ⟨le_rfl, hlt⟩
    rw [span_nil] at hmem
    exact absurd hmem (Set.notMem_empty _)
  | cons r rest ih =>
    obtain ⟨hr, hrest⟩ := List.pairwise_cons.1 hs
    have hwr : Within bound rest := fun q hq => hw q (mem_cons_of_mem _ hq)
    rw [sweep, within_lt hw hb mem_cons_self]
    rw [span_cons] at hsub
    split_ifs with hpast hgap hdone
    · refine ih hwr hrest hlt fun x hx => (hsub hx).resolve_left fun hin => ?_
      exact absurd (hin.2.trans_le hpast) (not_lt.2 hx.1)
    · -- the ranges from here on begin behind the cursor
      rcases hsub ⟨le_rfl, hlt⟩ with hin | hin
      · exact absurd hin.1 (not_le.2 hgap)
      · obtain ⟨q, hq, hle, -⟩ := mem_span.1 hin
        have := hr q hq
        omega
    · exact ⟨_, rfl, hdone⟩
    · refine ih hwr hrest (not_le.1 hdone) fun x hx => ?_
      refine (hsub ⟨(not_le.1 hpast).le.trans hx.1, hx.2⟩).resolve_left fun hin => ?_
      exact absurd hin.2 (not_lt.2 hx.1)

theorem ends_between (start stop : ℕ) :
    (if start < stop then [(⟨start, wsub stop start⟩ : Range)] else []).map ends = Intervals.piece start stop := by
  rw [Intervals.piece]
  split_ifs with h
  · rw [wsub_of_le h.le]
    simp only [map_cons, List.map_nil, ends, Nat.add_sub_cancel' h.le]
  · rfl

theorem ends_cut (hr : r.start + r.length < 2 ^ 64) :
    (cut start stop r).map ends = trim start stop r.ends := by
  rw [cut, trim, wadd_of_lt hr]
  by_cases hout : r.start + r.length ≤ start ∨ stop ≤ r.start
  · rw [if_pos hout, if_pos (show r.ends.2 ≤ start ∨ stop ≤ r.ends.1 from hout)]
    rfl
  · rw [if_neg hout, if_neg (show ¬(r.ends.2 ≤ start ∨ stop ≤ r.ends.1) from hout), map_append, ends_between,
      ends_between]
    rfl

theorem flatMap_cut_weak (hb : bound < 2 ^ 64) (h : Within bound l) (hle : start ≤ stop) :
    Within bound (l.flatMap (cut start stop)) ∧ span (l.flatMap (cut start stop)) = span l \ Set.Ico start stop ∧
    (Apart l → Apart (l.flatMap (cut start stop))) ∧ (Full l → Full (l.flatMap (cut start stop))) := by
  have hmap : (l.flatMap (cut start stop)).map ends = (l.map ends).flatMap (trim start stop) := by
    rw [List.map_flatMap, List.flatMap_map]
    exact List.flatMap_congr fun r hr => ends_cut ((h r hr).trans_lt hb)
  rw [within_iff, apart_iff, apart_iff, full_iff, full_iff, span, hmap]
  obtain ⟨hpts, ha⟩ := trim_all hle
  refine ⟨fun q hq => ?_, hpts, ha, fun hf q hq => ?_⟩
  · obtain ⟨p, hp, hq⟩ := List.mem_flatMap.1 hq
    exact (mem_trim hq).1.trans (within_iff.1 h p hp)
  · obtain ⟨p, hp, hq⟩ := List.mem_flatMap.1 hq
    exact (mem_trim hq).2 (hf p hp)

/-- `reserve` takes a region only if all of it is free, and changes nothing else. -/
theorem reserve_weak (hb : bound < 2 ^ 64) (h : Within bound a.ranges) {ok : Bool}
    (hrun : a.reserve start size = (ok, a')) :
    Within bound a'.ranges ∧ (Apart a.ranges → Apart a'.ranges) ∧
    (ok = true → (size = 0 ∨ start + size ≤ bound) ∧ Set.Ico start (start + size) ⊆ span a.ranges ∧
      span a'.ranges = span a.ranges \ Set.Ico start (start + size)) ∧
    (ok = false → span a'.ranges = span a.ranges) ∧ (a.Canonical → a'.Canonical) := by
  have hco := coalesce_weak hb h
  have hcan : a.Canonical → a.coalesce.Canonical := fun hcan => coalesce_canonical hb h hcan.disjoint hcan.nonempty
  unfold reserve at hrun
  by_cases hover : 2 ^ 64 ≤ start + size
  · rw [if_pos hover] at hrun
    cases hrun
    exact ⟨h, id, fun hfalse => absurd hfalse (by decide), fun _ => rfl, id⟩
  rw [if_neg hover] at hrun
  by_cases hzero : start = start + size
  · simp only [if_pos hzero] at hrun
    cases hrun
    rw [← hzero, Set.Ico_self, Set.sdiff_empty]
    exact ⟨h, id, fun _ => ⟨.inl (by omega), Set.empty_subset _, rfl⟩, fun _ => rfl, id⟩
  simp only [if_neg hzero] at hrun
  cases hsweep : sweep (start + size) start a.coalesce.ranges with
  | none =>
    rw [hsweep] at hrun
    cases hrun
    exact ⟨hco.1, hco.2.2, fun hfalse => absurd hfalse (by decide), fun _ => hco.2.1, hcan⟩
  | some c =>
    rw [hsweep] at hrun
    simp only at hrun
    split_ifs at hrun with hshort
    · cases hrun
      exact ⟨hco.1, hco.2.2, fun hfalse => absurd hfalse (by decide), fun _ => hco.2.1, hcan⟩
    · cases hrun
      have hsub := sweep_sound hb hco.1 hsweep
      obtain ⟨hw, hs, ha, hf⟩ := flatMap_cut_weak hb hco.1 (Nat.le_add_right start size)
      obtain ⟨hw', hs', ha'⟩ := coalesce_weak hb hw
      have hin : Set.Ico start (start + size) ⊆ span a.ranges := by
        rw [← hco.2.1]
        exact (Set.Ico_subset_Ico_right (Nat.not_lt.1 hshort)).trans hsub
      refine ⟨hw', fun hapart => ha' (ha (hco.2.2 hapart)), fun _ => ⟨.inr ?_, hin, ?_⟩,
        fun hfalse => absurd hfalse (by decide),
        fun hold => coalesce_canonical hb hw (ha (hcan hold).disjoint) (hf (hcan hold).nonempty)⟩
      · obtain ⟨r, hr, -, hlast⟩ := mem_span.1 (hin ⟨(by omega : start ≤ start + size - 1), by omega⟩)
        have := h r hr
        omega
      · exact hs'.trans (hs.trans (by rw [hco.2.1]))

theorem reserve_of_free (hb : bound < 2 ^ 64) (h : Within bound a.ranges) (hlt : start + size < 2 ^ 64)
    (hsub : Set.Ico start (start + size) ⊆ a.freeSet) : (a.reserve start size).1 = true := by
  unfold reserve
  rw [if_neg (not_le.2 hlt)]
  by_cases hzero : start = start + size
  · simp only [if_pos hzero]
  simp only [if_neg hzero]
  obtain ⟨hw, hs, -⟩ := coalesce_weak hb h
  have hsub' : Set.Ico start (start + size) ⊆ span a.coalesce.ranges := hsub.trans hs.symm.subset
  obtain ⟨c, hc, hle⟩ := sweep_complete hb hw (coalesce_sorted hb h) (by omega) hsub'
  rw [hc]
  simp only [if_neg (not_lt.2 hle)]

/-- The multiple of `align` that `next_multiple_of` is meant to find. -/
def roundUp (n align : ℕ) : ℕ := if n % align = 0 then n else n + (align - n % align)

theorem le_roundUp (n align : ℕ) : n ≤ roundUp n align := by
  unfold roundUp
  split_ifs <;> omega

theorem dvd_roundUp (h : 0 < align) : align ∣ roundUp n align := by
  unfold roundUp
  split_ifs with hn
  · exact Nat.dvd_of_mod_eq_zero hn
  · have hlt := Nat.mod_lt n h
    have hdiv := Nat.div_add_mod n align
    refine ⟨n / align + 1, ?_⟩
    rw [Nat.mul_add, Nat.mul_one]
    omega

theorem nextMultipleOf_eq (h : roundUp n align < 2 ^ 64) : nextMultipleOf n align = roundUp n align := by
  unfold nextMultipleOf roundUp at *
  split_ifs with hn
  · rfl
  · rw [if_neg hn] at h
    exact wadd_of_lt h

/-- The addresses that the loop of `allocate` computes stay below `2 ^ 64`. -/
def NoWrap (size align : ℕ) : List Range → Prop
  | [] => True
  | r :: rest => roundUp r.start align + size < 2 ^ 64 ∧
    (r.start + r.length < roundUp r.start align + size → NoWrap size align rest)

theorem roundUp_le {n : ℕ} (halign : 0 < align) (hdvd : align ∣ bound) (hn : n ≤ bound) : roundUp n align ≤ bound := by
  unfold roundUp
  split_ifs with hmod
  · exact hn
  · obtain ⟨q, rfl⟩ := hdvd
    have hdiv := Nat.div_add_mod n align
    have hlt := Nat.mod_lt n halign
    have hq : n / align < q := (Nat.div_lt_iff_lt_mul halign).2 (by
      rcases Nat.lt_or_eq_of_le hn with hlt' | heq
      · rwa [Nat.mul_comm]
      · exact absurd (by rw [heq, Nat.mul_mod_right]) hmod)
    have hmul := Nat.mul_le_mul_left align hq
    rw [Nat.mul_succ] at hmul
    omega

theorem noWrap_of_bound (hb : bound + size < 2 ^ 64) (h : Within bound l) (halign : 0 < align) (hdvd : align ∣ bound) :
    NoWrap size align l := by
  induction l with
  | nil => trivial
  | cons r rest ih =>
    have hr := h r mem_cons_self
    have hround := roundUp_le halign hdvd (show r.start ≤ bound by omega)
    exact ⟨by omega, fun _ => ih fun q hq => h q (mem_cons_of_mem _ hq)⟩

/-- The exits of the loop of `allocate`: no range is large enough, or the first one that is gives way to what
is left of it. -/
theorem allocateFrom_cases {done : List Range} (hb : ∀ r ∈ l, r.start + r.length < 2 ^ 64) (hno : NoWrap size align l) :
    (allocateFrom size align done l = none ∧ ∀ r ∈ l, r.start + r.length < roundUp r.start align + size) ∨
    ∃ pre r rest left, l = pre ++ r :: rest ∧ (∀ q ∈ pre, q.start + q.length < roundUp q.start align + size) ∧
      roundUp r.start align + size ≤ r.start + r.length ∧
      left.map ends = Intervals.piece r.start (roundUp r.start align) ++
        Intervals.piece (roundUp r.start align + size) (r.start + r.length) ∧
      allocateFrom size align done l = some (roundUp r.start align, coalesce ⟨done ++ pre ++ rest ++ left⟩) := by
  induction l generalizing done with
  | nil => exact .inl ⟨rfl, fun r hr => absurd hr not_mem_nil⟩
  | cons r rest ih =>
    obtain ⟨hsum, hnext⟩ := hno
    have hr := hb r mem_cons_self
    rw [allocateFrom, nextMultipleOf_eq (by omega), wadd_of_lt hsum, wadd_of_lt hr]
    simp only
    by_cases hskip : r.start + r.length < roundUp r.start align + size
    · rw [if_pos hskip]
      rcases @ih (done ++ [r]) (fun q hq => hb q (mem_cons_of_mem _ hq)) (hnext hskip) with
        ⟨hnone, hall⟩ | ⟨pre, q, rest', left, rfl, hpre, hfit, hleft, hrun⟩
      · exact .inl ⟨hnone, forall_mem_cons.2 ⟨hskip, hall⟩⟩
      · refine .inr ⟨r :: pre, q, rest', left, rfl, forall_mem_cons.2 ⟨hskip, hpre⟩, hfit, hleft, ?_⟩
        rw [hrun, append_assoc done, List.singleton_append]
    · rw [if_neg hskip]
      have htail : wsub (r.start + r.length) (roundUp r.start align + size) ≠ 0 ↔
          roundUp r.start align + size < r.start + r.length := by
        rw [wsub_of_le (not_lt.1 hskip)]
        omega
      have hnil : done ++ rest = done ++ [] ++ rest := by rw [List.append_nil]
      rw [append_assoc (done ++ rest), hnil]
      refine .inr ⟨[], r, rest, _, rfl, fun q hq => absurd hq not_mem_nil, not_lt.1 hskip, ?_, rfl⟩
      simp only [htail, map_append, ends_between]

theorem allocateFrom_weak {done : List Range} (hb : bound < 2 ^ 64) (h : Within bound (done ++ l)) (halign : 0 < align)
    (hno : NoWrap size align l) (hrun : allocateFrom size align done l = some (start, a')) :
    align ∣ start ∧ start + size ≤ bound ∧ Set.Ico start (start + size) ⊆ span (done ++ l) ∧ Within bound a'.ranges ∧
    (Apart (done ++ l) → Apart a'.ranges ∧ span a'.ranges = span (done ++ l) \ Set.Ico start (start + size) ∧
      (Full (done ++ l) → a'.Canonical)) := by
  have hbound : ∀ r ∈ l, r.start + r.length < 2 ^ 64 := fun r hr => (h r (List.mem_append_right _ hr)).trans_lt hb
  rcases @allocateFrom_cases _ _ _ done hbound hno with ⟨hnone, -⟩ | ⟨pre, r, rest, left, rfl, -, hfit, hleft, hrun'⟩
  · rw [hnone] at hrun
    cases hrun
  rw [hrun'] at hrun
  obtain ⟨rfl, rfl⟩ := Prod.mk.inj (Option.some.inj hrun)
  have hr := h r (List.mem_append_right _ (List.mem_append_right _ mem_cons_self))
  have hle := le_roundUp r.start align
  have hin : Set.Ico (roundUp r.start align) (roundUp r.start align + size) ⊆ Set.Ico r.start (r.start + r.length) :=
    Set.Ico_subset_Ico hle hfit
  have hperm : (done ++ (pre ++ r :: rest)).Perm (r :: (done ++ pre ++ rest)) := by
    rw [← append_assoc]
    exact List.perm_middle
  have hspan : span left = Set.Ico r.start (r.start + r.length) \
    Set.Ico (roundUp r.start align) (roundUp r.start align + size) := by
    rw [span, hleft]
    exact points_pieces (r := r.ends) (by simp only [ends]; omega) (by simp only [ends]; omega)
  have hpiece : ∀ q ∈ left.map ends, q.1 < q.2 ∧ q.2 ≤ r.start + r.length := fun q hq => by
    rw [hleft, List.mem_append, mem_piece, mem_piece] at hq
    rcases hq with ⟨hlt, rfl⟩ | ⟨hlt, rfl⟩
    · exact ⟨hlt, by omega⟩
    · exact ⟨hlt, le_rfl⟩
  have hold : Within bound (done ++ pre ++ rest ++ left) := within_append.2
    ⟨fun q hq => h q (hperm.mem_iff.2 (mem_cons_of_mem _ hq)), within_iff.2 fun q hq => (hpiece q hq).2.trans hr⟩
  rw [span_perm hperm, span_cons]
  obtain ⟨hw, hs, ha⟩ := coalesce_weak hb hold
  refine ⟨dvd_roundUp halign, by omega, hin.trans Set.subset_union_left, hw, fun hapart => ?_⟩
  obtain ⟨hd, hapart⟩ := apart_cons.1 (hapart.perm hperm)
  have hall : Apart (done ++ pre ++ rest ++ left) := by
    rw [apart_iff, map_append, Intervals.apart_append, hleft, ← hleft]
    refine ⟨apart_iff.1 hapart, ?_, ?_⟩
    · rw [hleft]
      exact apart_pieces (r := r.ends) (Nat.le_add_right _ _)
    · show Disjoint (span _) (span left)
      rw [hspan]
      exact hd.symm.mono_right Set.sdiff_subset
  refine ⟨ha hall, ?_, fun hf => coalesce_canonical hb hold hall (full_append.2 ⟨fun q hq => ?_, ?_⟩)⟩
  · rw [hs, span_append, hspan, Set.union_sdiff_distrib, Set.union_comm]
    congr 1
    exact (sdiff_eq_left.2 (hd.symm.mono_right hin)).symm
  · exact hf q (hperm.mem_iff.2 (mem_cons_of_mem _ hq))
  · exact full_iff.2 fun q hq => (hpiece q hq).1

theorem allocate_none (hrun : a.allocate size align = (none, a')) : a' = a := by
  unfold allocate at hrun
  split at hrun
  · exact (Prod.mk.inj hrun).2.symm
  · cases hrun

theorem allocate_noWrap (hb : bound < 2 ^ 64) (h : Within bound a.ranges) (halign : 0 < align)
    (hno : NoWrap size align a.ranges) (hrun : a.allocate size align = (some start, a')) :
    align ∣ start ∧ start + size ≤ bound ∧ Set.Ico start (start + size) ⊆ span a.ranges ∧ Within bound a'.ranges ∧
    (Apart a.ranges → Apart a'.ranges ∧ span a'.ranges = span a.ranges \ Set.Ico start (start + size) ∧
      (Full a.ranges → a'.Canonical)) := by
  unfold allocate at hrun
  cases hfrom : allocateFrom size align [] a.ranges with
  | none =>
    rw [hfrom] at hrun
    cases hrun
  | some found =>
    rw [hfrom] at hrun
    obtain ⟨hstart, rfl⟩ := Prod.mk.inj hrun
    obtain rfl := Option.some.inj hstart
    exact @allocateFrom_weak _ _ _ _ _ _ [] hb h halign hno hfrom

end RangeAllocator

end MaramOS
