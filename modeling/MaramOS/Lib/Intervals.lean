import Mathlib.Data.List.Sort
import Mathlib.Data.Set.Lattice
import Mathlib.Order.Interval.Set.Basic
import Mathlib.Tactic
import Mathlib.Order.CompletePartialOrder

/-! Finite unions of half-open intervals of a linear order, held as lists of end
points. A canonical list is sorted, without empty and without touching intervals,
and there is only one for each set of points. -/

namespace Intervals

open List

variable {α : Type*} [LinearOrder α]

def points (l : List (α × α)) : Set α := {x | ∃ r ∈ l, x ∈ Set.Ico r.1 r.2}

/-- Intervals that share no point, in any order. Some may be empty. -/
def Apart (l : List (α × α)) : Prop := l.Pairwise fun a b => Disjoint (Set.Ico a.1 a.2) (Set.Ico b.1 b.2)

structure Canonical (l : List (α × α)) : Prop where
  nonempty : ∀ r ∈ l, r.1 < r.2
  apart : l.Pairwise fun a b => a.2 < b.1

/-- Join `c` with the intervals that begin where it ends. -/
def merge (c : α × α) : List (α × α) → List (α × α)
  | [] => [c]
  | r :: l => if c.2 = r.1 then merge (c.1, r.2) l else c :: merge r l

def piece (a b : α) : List (α × α) := if a < b then [(a, b)] else []

def trim (a b : α) (r : α × α) : List (α × α) := if r.2 ≤ a ∨ b ≤ r.1 then [r] else piece r.1 a ++ piece b r.2

variable {l l1 l2 : List (α × α)} {c r q : α × α} {a b x : α} {f : α × α → List (α × α)}

theorem mem_points : x ∈ points l ↔ ∃ r ∈ l, r.1 ≤ x ∧ x < r.2 := Iff.rfl

@[simp] theorem points_nil : points ([] : List (α × α)) = ∅ := by
  ext x
  simp [mem_points]

@[simp] theorem points_cons : points (r :: l) = Set.Ico r.1 r.2 ∪ points l := by
  ext x
  simp [mem_points]

@[simp] theorem points_append : points (l1 ++ l2) = points l1 ∪ points l2 := by
  ext x
  simp only [mem_points, mem_append, Set.mem_union]
  constructor
  · rintro ⟨r, h | h, hx⟩
    · exact .inl ⟨r, h, hx⟩
    · exact .inr ⟨r, h, hx⟩
  · rintro (⟨r, h, hx⟩ | ⟨r, h, hx⟩)
    · exact ⟨r, .inl h, hx⟩
    · exact ⟨r, .inr h, hx⟩

theorem points_perm (h : l1.Perm l2) : points l1 = points l2 := by
  ext x
  simp only [mem_points, h.mem_iff]

theorem points_flatMap {s : Set α} (h : ∀ r ∈ l, points (f r) = Set.Ico r.1 r.2 \ s) :
    points (l.flatMap f) = points l \ s := by
  induction l with
  | nil => simp
  | cons r l ih =>
    rw [flatMap_cons, points_append, points_cons, Set.union_sdiff_distrib, h r mem_cons_self,
      ih fun r hr => h r (mem_cons_of_mem _ hr)]

theorem apart_append : Apart (l1 ++ l2) ↔ Apart l1 ∧ Apart l2 ∧ Disjoint (points l1) (points l2) := by
  rw [Apart, pairwise_append]
  refine and_congr_right fun _ => and_congr_right fun _ => ⟨fun h => Set.disjoint_left.2 ?_, fun h r hr q hq => ?_⟩
  · rintro x ⟨r, hr, hx⟩ ⟨q, hq, hx'⟩
    exact Set.disjoint_left.1 (h r hr q hq) hx hx'
  · exact Set.disjoint_left.2 fun x hx hx' => Set.disjoint_left.1 h ⟨r, hr, hx⟩ ⟨q, hq, hx'⟩

theorem apart_singleton : Apart [r] := pairwise_singleton _ _

theorem apart_cons : Apart (r :: l) ↔ Disjoint (Set.Ico r.1 r.2) (points l) ∧ Apart l := by
  have happ : Apart ([r] ++ l) ↔ _ := apart_append
  rw [points_cons, points_nil, Set.union_empty] at happ
  exact happ.trans ⟨fun h => h.2.symm, fun h => ⟨apart_singleton, h.symm⟩⟩

theorem Apart.flatMap (h : Apart l) (hf : ∀ r ∈ l, Apart (f r) ∧ points (f r) ⊆ Set.Ico r.1 r.2) :
    Apart (l.flatMap f) ∧ points (l.flatMap f) ⊆ points l := by
  induction l with
  | nil => exact ⟨.nil, by simp⟩
  | cons r l ih =>
    obtain ⟨hd, hl⟩ := apart_cons.1 h
    obtain ⟨hs, hsub⟩ := ih hl fun r hr => hf r (mem_cons_of_mem _ hr)
    obtain ⟨hr, hin⟩ := hf r mem_cons_self
    rw [flatMap_cons, points_append, points_cons]
    exact ⟨apart_append.2 ⟨hr, hs, hd.mono hin hsub⟩, Set.union_subset_union hin hsub⟩

theorem mem_piece : q ∈ piece a b ↔ a < b ∧ q = (a, b) := by
  rw [piece]
  split_ifs with h <;> simp [h]

@[simp] theorem points_piece : points (piece a b) = Set.Ico a b := by
  rw [piece]
  split_ifs with h
  · rw [points_cons, points_nil, Set.union_empty]
  · rw [points_nil, Set.Ico_eq_empty h]

theorem apart_piece : Apart (piece a b) := by
  rw [piece]
  split_ifs
  · exact apart_singleton
  · exact .nil

theorem apart_pieces (hab : a ≤ b) : Apart (piece r.1 a ++ piece b r.2) := by
  refine apart_append.2 ⟨apart_piece, apart_piece, ?_⟩
  rw [points_piece, points_piece]
  exact Set.disjoint_left.2 fun x hx hx' => absurd (hx.2.trans_le hab) (not_lt.2 hx'.1)

theorem points_pieces (ha : a ≤ r.2) (hb : r.1 ≤ b) :
    points (piece r.1 a ++ piece b r.2) = Set.Ico r.1 r.2 \ Set.Ico a b := by
  ext x
  simp only [points_append, points_piece, Set.mem_union, Set.mem_Ico, Set.mem_sdiff]
  grind

theorem trim_spec (hab : a ≤ b) : Apart (trim a b r) ∧ points (trim a b r) = Set.Ico r.1 r.2 \ Set.Ico a b := by
  unfold trim
  split_ifs with hout
  · refine ⟨apart_singleton, ?_⟩
    ext x
    simp only [points_cons, points_nil, Set.union_empty, Set.mem_Ico, Set.mem_sdiff]
    grind
  · rw [not_or, not_le, not_le] at hout
    exact ⟨apart_pieces hab, points_pieces hout.1.le hout.2.le⟩

theorem mem_trim (hq : q ∈ trim a b r) : q.2 ≤ r.2 ∧ (r.1 < r.2 → q.1 < q.2) := by
  unfold trim at hq
  split_ifs at hq with hout
  · rw [mem_singleton.1 hq]
    exact ⟨le_rfl, id⟩
  · rw [not_or, not_le, not_le] at hout
    rcases mem_append.1 hq with hq | hq
    · obtain ⟨hlt, rfl⟩ := mem_piece.1 hq
      exact ⟨hout.1.le, fun _ => hlt⟩
    · obtain ⟨hlt, rfl⟩ := mem_piece.1 hq
      exact ⟨le_rfl, fun _ => hlt⟩

theorem trim_all (hab : a ≤ b) : points (l.flatMap (trim a b)) = points l \ Set.Ico a b ∧
    (Apart l → Apart (l.flatMap (trim a b))) := by
  refine ⟨points_flatMap fun r _ => (trim_spec hab).2, fun h => (h.flatMap fun r _ => ⟨(trim_spec hab).1, ?_⟩).1⟩
  rw [(trim_spec hab).2]
  exact Set.sdiff_subset

theorem Canonical.disjoint (h : Canonical l) : Apart l := by
  refine h.apart.imp fun {a b} hab => Set.disjoint_left.2 ?_
  rintro x ⟨-, hx⟩ ⟨hx', -⟩
  exact absurd (hx.trans hab) (not_lt.2 hx')

theorem canonical_cons : Canonical (r :: l) ↔ r.1 < r.2 ∧ (∀ s ∈ l, r.2 < s.1) ∧ Canonical l := by
  constructor
  · rintro ⟨hne, ha⟩
    rw [pairwise_cons] at ha
    exact ⟨hne r mem_cons_self, ha.1, fun s hs => hne s (mem_cons_of_mem _ hs), ha.2⟩
  · rintro ⟨hr, hl, h⟩
    refine ⟨fun s hs => ?_, pairwise_cons.2 ⟨hl, h.apart⟩⟩
    rcases mem_cons.1 hs with rfl | hs
    · exact hr
    · exact h.nonempty s hs

theorem Apart.ordered (h : Apart l) (hne : ∀ r ∈ l, r.1 < r.2) (hs : l.Pairwise fun a b => a.1 ≤ b.1) :
    l.Pairwise fun a b => a.2 ≤ b.1 := by
  refine List.Pairwise.imp_of_mem (fun {a b} _ hb hab => ?_) (hs.and h)
  by_contra hlt
  exact Set.disjoint_left.1 hab.2 ⟨hab.1, not_le.1 hlt⟩ ⟨le_rfl, hne b hb⟩

theorem merge_spec (c : α × α) (l : List (α × α)) (hle : ∀ s ∈ c :: l, s.1 ≤ s.2) :
    points (merge c l) = points (c :: l) ∧ (Apart (c :: l) → Apart (merge c l)) := by
  induction l generalizing c with
  | nil => exact ⟨rfl, id⟩
  | cons r l ih =>
    have hc := hle c mem_cons_self
    have hr := hle r (mem_cons_of_mem _ mem_cons_self)
    unfold merge
    split_ifs with h
    · have hjoin : Set.Ico c.1 r.2 = Set.Ico c.1 c.2 ∪ Set.Ico r.1 r.2 := by
        rw [← h, Set.Ico_union_Ico_eq_Ico hc (h ▸ hr)]
      obtain ⟨hpts, ha⟩ := ih (c.1, r.2) (forall_mem_cons.2 ⟨hc.trans (h.trans_le hr), fun s hs =>
        hle s (mem_cons_of_mem _ (mem_cons_of_mem _ hs))⟩)
      refine ⟨?_, fun hapart => ha ?_⟩
      · rw [hpts, points_cons, points_cons, points_cons, ← Set.union_assoc, hjoin]
      · obtain ⟨hd, hrest⟩ := apart_cons.1 hapart
        obtain ⟨hd', hl⟩ := apart_cons.1 hrest
        rw [points_cons, Set.disjoint_union_right] at hd
        refine apart_cons.2 ⟨?_, hl⟩
        rw [hjoin, Set.disjoint_union_left]
        exact ⟨hd.2, hd'⟩
    · obtain ⟨hpts, ha⟩ := ih r fun s hs => hle s (mem_cons_of_mem _ hs)
      refine ⟨by rw [points_cons, hpts, ← points_cons], fun hapart => ?_⟩
      obtain ⟨hd, hrest⟩ := apart_cons.1 hapart
      exact apart_cons.2 ⟨by rwa [hpts], ha hrest⟩

theorem merge_sorted (c : α × α) (l : List (α × α)) (h : (c :: l).Pairwise fun a b => a.1 ≤ b.1) :
    (∀ s ∈ merge c l, c.1 ≤ s.1) ∧ (merge c l).Pairwise fun a b => a.1 ≤ b.1 := by
  induction l generalizing c with
  | nil =>
    refine ⟨fun s hs => ?_, pairwise_singleton _ _⟩
    rw [mem_singleton.1 hs]
  | cons r l ih =>
    obtain ⟨hc, hrest⟩ := pairwise_cons.1 h
    unfold merge
    split_ifs
    · exact ih _ (pairwise_cons.2 ⟨fun s hs => hc s (mem_cons_of_mem _ hs), (pairwise_cons.1 hrest).2⟩)
    · obtain ⟨hfirst, hsorted⟩ := ih r hrest
      have hall : ∀ s ∈ merge r l, c.1 ≤ s.1 := fun s hs => (hc r mem_cons_self).trans (hfirst s hs)
      exact ⟨forall_mem_cons.2 ⟨le_rfl, hall⟩, pairwise_cons.2 ⟨hall, hsorted⟩⟩

theorem merge_canonical (c : α × α) (l : List (α × α)) (hne : ∀ s ∈ c :: l, s.1 < s.2)
    (hord : (c :: l).Pairwise fun a b => a.2 ≤ b.1) : Canonical (merge c l) := by
  induction l generalizing c with
  | nil => exact ⟨hne, pairwise_singleton _ _⟩
  | cons r l ih =>
    obtain ⟨hc, hrl⟩ := pairwise_cons.1 hord
    have hcne := hne c mem_cons_self
    have hrne := hne r (mem_cons_of_mem _ mem_cons_self)
    have hle := hc r mem_cons_self
    unfold merge
    split_ifs with h
    · refine ih (c.1, r.2) (forall_mem_cons.2 ⟨hcne.trans_le (hle.trans hrne.le), fun s hs => ?_⟩)
        (pairwise_cons.2 (pairwise_cons.1 hrl))
      exact hne s (mem_cons_of_mem _ (mem_cons_of_mem _ hs))
    · have hsorted := hrl.imp_of_mem fun {a b} ha _ hab => (hne a (mem_cons_of_mem _ ha)).le.trans hab
      refine canonical_cons.2 ⟨hcne, fun s hs => ?_, ih r (fun s hs => hne s (mem_cons_of_mem _ hs)) hrl⟩
      exact (lt_of_le_of_ne hle h).trans_le ((merge_sorted r l hsorted).1 s hs)

theorem Canonical.le_points (h : Canonical (r :: l)) (hx : x ∈ points (r :: l)) : r.1 ≤ x := by
  obtain ⟨hr, hl, -⟩ := canonical_cons.1 h
  obtain ⟨s, hs, hsx, -⟩ := hx
  rcases mem_cons.1 hs with rfl | hs
  · exact hsx
  · exact hr.le.trans ((hl s hs).le.trans hsx)

theorem Canonical.right_notMem (h : Canonical (r :: l)) : r.2 ∉ points (r :: l) := by
  obtain ⟨-, hl, -⟩ := canonical_cons.1 h
  rintro ⟨s, hs, hle, hlt⟩
  rcases mem_cons.1 hs with rfl | hs
  · exact lt_irrefl _ hlt
  · exact absurd (hl s hs) (not_lt.2 hle)

theorem Canonical.points_tail (h : Canonical (r :: l)) : points l = points (r :: l) \ Set.Ico r.1 r.2 := by
  obtain ⟨hd, -⟩ := apart_cons.1 h.disjoint
  rw [points_cons, Set.union_sdiff_left]
  exact hd.symm.sdiff_eq_left.symm

theorem Canonical.unique (h1 : Canonical l1) (h2 : Canonical l2) (hp : points l1 = points l2) : l1 = l2 := by
  induction l1 generalizing l2 with
  | nil =>
    cases l2 with
    | nil => rfl
    | cons r l =>
      have hr : r.1 ∈ points (r :: l) := ⟨r, mem_cons_self, le_rfl, (canonical_cons.1 h2).1⟩
      rw [← hp, points_nil] at hr
      exact absurd hr (Set.notMem_empty _)
  | cons r l ih =>
    have hr : r.1 ∈ points (r :: l) := ⟨r, mem_cons_self, le_rfl, (canonical_cons.1 h1).1⟩
    cases l2 with
    | nil =>
      rw [hp, points_nil] at hr
      exact absurd hr (Set.notMem_empty _)
    | cons r' l' =>
      have hr' : r'.1 ∈ points (r' :: l') := ⟨r', mem_cons_self, le_rfl, (canonical_cons.1 h2).1⟩
      have hleft : r.1 = r'.1 := le_antisymm (h1.le_points (hp ▸ hr')) (h2.le_points (hp ▸ hr))
      have hright : r.2 = r'.2 := by
        rcases lt_trichotomy r.2 r'.2 with hlt | heq | hlt
        · have hin : r.2 ∈ points (r' :: l') :=
            ⟨r', mem_cons_self, hleft ▸ (canonical_cons.1 h1).1.le, hlt⟩
          exact absurd (hp ▸ hin) h1.right_notMem
        · exact heq
        · have hin : r'.2 ∈ points (r :: l) :=
            ⟨r, mem_cons_self, hleft ▸ (canonical_cons.1 h2).1.le, hlt⟩
          exact absurd (hp ▸ hin) h2.right_notMem
      have heq : r = r' := Prod.ext hleft hright
      subst heq
      rw [ih (canonical_cons.1 h1).2.2 (canonical_cons.1 h2).2.2 (by rw [h1.points_tail, h2.points_tail, hp])]

end Intervals
