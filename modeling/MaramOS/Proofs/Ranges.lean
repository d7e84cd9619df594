import MaramOS.Proofs.FreeSpace

/-! The range allocator keeps a set of addresses in canonical form. Every operation
leaves ranges in some order and one pass of `coalesce` restores the form, so that
a set of free addresses has one representation and freeing undoes allocating. -/

namespace MaramOS

open Intervals Prog

theorem Range.ends_injective : Function.Injective Range.ends := by
  rintro ⟨s, n⟩ ⟨s', n'⟩ h
  simp only [Range.ends, Prod.mk.injEq] at h
  obtain ⟨rfl, h⟩ := h
  rw [Nat.add_left_cancel h]

namespace RangeAllocator

variable {a b : RangeAllocator} {start stop base size align : ℕ} {a' : RangeAllocator}

theorem Canonical.ext (ha : a.Canonical) (hb : b.Canonical) (h : a.freeSet = b.freeSet) : a = b := by
  cases a
  cases b
  congr 1
  exact List.map_injective_iff.2 Range.ends_injective (ha.intervals.unique hb.intervals h)

theorem free_spec (h : a.Canonical) (hpos : 0 < size) (hlt : base + size < 2 ^ 64)
    (hd : Disjoint a.freeSet (Set.Ico base (base + size))) :
    (a.free base size).Canonical ∧ (a.free base size).freeSet = a.freeSet ∪ Set.Ico base (base + size) := by
  obtain ⟨-, hs, ha⟩ := free_weak (by norm_num) h.within (Nat.le_sub_one_of_lt hlt)
  exact ⟨(ha h.disjoint hd).2 h.nonempty hpos, hs⟩

theorem addRange_eq_free (h : start ≤ stop) : a.addRange start stop = a.free start (stop - start) := by
  rw [addRange, free, wsub_of_le h]

theorem allocate_spec (h : a.Canonical) (halign : 0 < align) (hno : NoWrap size align a.ranges)
    (hrun : a.allocate size align = (some start, a')) :
    align ∣ start ∧ start + size < 2 ^ 64 ∧ Set.Ico start (start + size) ⊆ a.freeSet ∧
    a'.Canonical ∧ a'.freeSet = a.freeSet \ Set.Ico start (start + size) := by
  obtain ⟨hdvd, hend, hsub, -, ha⟩ := allocate_noWrap (by norm_num) h.within halign hno hrun
  obtain ⟨-, hset, hcan⟩ := ha h.disjoint
  exact ⟨hdvd, by omega, hsub, hcan h.nonempty, hset⟩

/-- `reserve` succeeds if and only if the whole range is free, and then takes it. -/
theorem reserve_spec (h : a.Canonical) (hlt : start + size < 2 ^ 64) :
    (Set.Ico start (start + size) ⊆ a.freeSet ∧ ∃ a', a.reserve start size = (true, a') ∧ a'.Canonical ∧
      a'.freeSet = a.freeSet \ Set.Ico start (start + size)) ∨
    (¬Set.Ico start (start + size) ⊆ a.freeSet ∧ a.reserve start size = (false, a)) := by
  rcases hrun : a.reserve start size with ⟨ok, a'⟩
  obtain ⟨-, -, hok, hfail, hcan⟩ := reserve_weak (by norm_num) h.within hrun
  cases ok with
  | true => exact .inl ⟨(hok rfl).2.1, a', rfl, hcan h, (hok rfl).2.2⟩
  | false =>
    refine .inr ⟨fun hsub => ?_, by rw [(hcan h).ext h (hfail rfl)]⟩
    have htrue := reserve_of_free (by norm_num) h.within hlt hsub
    rw [hrun] at htrue
    cases htrue

theorem free_restores (h : a.Canonical) (h' : a'.Canonical) (hpos : 0 < size) (hlt : base + size < 2 ^ 64)
    (hin : Set.Ico base (base + size) ⊆ a.freeSet) (hset : a'.freeSet = a.freeSet \ Set.Ico base (base + size)) :
    a'.free base size = a := by
  have hd : Disjoint a'.freeSet (Set.Ico base (base + size)) := by
    rw [hset]
    exact Set.disjoint_sdiff_left
  obtain ⟨hcan, hfree⟩ := free_spec h' hpos hlt hd
  refine hcan.ext h ?_
  rw [hfree, hset, Set.sdiff_union_of_subset hin]

end RangeAllocator

inductive RangeOp
  | addRange (start stop : ℕ)
  | free (base size : ℕ)
  | allocate (size align : ℕ)
  | reserve (start size : ℕ)

namespace RangeOp

def apply : RangeOp → RangeAllocator → RangeAllocator
  | .addRange start stop, a => a.addRange start stop
  | .free base size, a => a.free base size
  | .allocate size align, a => (a.allocate size align).2
  | .reserve start size, a => (a.reserve start size).2

def run (op : RangeOp) : Prog Fault RangeAllocator Unit := Prog.modify op.apply

/-- What is added is a non-empty range of addresses that are not free, an allocation has a size
and an alignment that is a power of two, and no address sum reaches `2 ^ 64`. -/
def Allowed (a : RangeAllocator) : RangeOp → Prop
  | .addRange start stop => start < stop ∧ stop < 2 ^ 64 ∧ Disjoint a.freeSet (Set.Ico start stop)
  | .free base size => 0 < size ∧ base + size < 2 ^ 64 ∧ Disjoint a.freeSet (Set.Ico base (base + size))
  | .allocate size align => 0 < size ∧ (∃ k, align = 2 ^ k) ∧ RangeAllocator.NoWrap size align a.ranges
  | .reserve start size => start + size < 2 ^ 64

end RangeOp

namespace RangeAllocator

variable {a : RangeAllocator}

theorem canonical_new : new.Canonical := ⟨by simp [new], by simp [new], .nil⟩

theorem Canonical.apply (h : a.Canonical) {op : RangeOp} (hok : op.Allowed a) : (op.apply a).Canonical := by
  cases op with
  | addRange start stop =>
    obtain ⟨hlt, hstop, hd⟩ := hok
    rw [RangeOp.apply, addRange_eq_free hlt.le]
    rw [← Nat.add_sub_cancel' hlt.le] at hd
    exact (free_spec h (by omega) (by omega) hd).1
  | free base size =>
    obtain ⟨hpos, hlt, hd⟩ := hok
    exact (free_spec h hpos hlt hd).1
  | allocate size align =>
    obtain ⟨hpos, ⟨k, rfl⟩, hno⟩ := hok
    rw [RangeOp.apply]
    rcases hrun : a.allocate size (2 ^ k) with ⟨_ | start, a'⟩
    · rw [allocate_none hrun]
      exact h
    · exact (allocate_spec h (by positivity) hno hrun).2.2.2.1
  | reserve start size =>
    rw [RangeOp.apply]
    rcases reserve_spec h hok with ⟨-, a', hrun, hcan, -⟩ | ⟨-, hrun⟩
    · rw [hrun]
      exact hcan
    · rw [hrun]
      exact h

theorem canonical_of_runs (h : Runs RangeOp.run (fun a op _ => op.Allowed a) new a) : a.Canonical := by
  refine h.invariant Canonical canonical_new fun a op r a' hcan hrun hok => ?_
  obtain rfl : op.apply a = a' := (Prod.mk.inj hrun).2
  exact hcan.apply hok

/-- In every run the free list is canonical, each operation changes the free set by exactly its own
range, and freeing what was allocated or reserved gives the same list back. -/
theorem free_list_canonical (h : Runs RangeOp.run (fun a op _ => op.Allowed a) new a) :
    a.Canonical ∧
    (∀ start stop, (RangeOp.addRange start stop).Allowed a →
      (a.addRange start stop).freeSet = a.freeSet ∪ Set.Ico start stop) ∧
    (∀ base size, (RangeOp.free base size).Allowed a →
      (a.free base size).freeSet = a.freeSet ∪ Set.Ico base (base + size)) ∧
    (∀ size align, (RangeOp.allocate size align).Allowed a → ∀ found a', a.allocate size align = (found, a') →
      (found = none ∧ a' = a) ∨ ∃ start, found = some start ∧ align ∣ start ∧
        Set.Ico start (start + size) ⊆ a.freeSet ∧ a'.freeSet = a.freeSet \ Set.Ico start (start + size) ∧
        a'.free start size = a) ∧
    (∀ start size, (RangeOp.reserve start size).Allowed a → ∀ done a', a.reserve start size = (done, a') →
      (done = true ↔ Set.Ico start (start + size) ⊆ a.freeSet) ∧
      (done = false → a' = a) ∧
      (done = true → a'.freeSet = a.freeSet \ Set.Ico start (start + size) ∧ (0 < size → a'.free start size = a))) := by
  have hcan := canonical_of_runs h
  refine ⟨hcan, ?_, ?_, ?_, ?_⟩
  · rintro start stop ⟨hlt, hstop, hd⟩
    rw [addRange_eq_free hlt.le]
    rw [← Nat.add_sub_cancel' hlt.le] at hd
    rw [(free_spec hcan (by omega) (by omega) hd).2, Nat.add_sub_cancel' hlt.le]
  · rintro base size ⟨hpos, hlt, hd⟩
    exact (free_spec hcan hpos hlt hd).2
  · rintro size align ⟨hpos, ⟨k, rfl⟩, hno⟩ found a' hrun
    cases found with
    | none => exact .inl ⟨rfl, allocate_none hrun⟩
    | some start =>
      obtain ⟨hdvd, hlt, hin, hcan', hset⟩ := allocate_spec hcan (by positivity) hno hrun
      exact .inr ⟨start, rfl, hdvd, hin, hset, free_restores hcan hcan' hpos hlt hin hset⟩
  · rintro start size hlt done a' hrun
    rcases reserve_spec hcan hlt with ⟨hin, a'', hrun', hcan', hset⟩ | ⟨hout, hrun'⟩
    · rw [hrun'] at hrun
      obtain ⟨rfl, rfl⟩ := Prod.mk.inj hrun
      exact ⟨by simpa using hin, by simp, fun _ => ⟨hset, fun hpos => free_restores hcan hcan' hpos hlt hin hset⟩⟩
    · rw [hrun'] at hrun
      obtain ⟨rfl, rfl⟩ := Prod.mk.inj hrun
      exact ⟨by simpa using hout, by simp, by simp⟩

/-- A run that adds a range and takes the middle of it. -/
theorem free_list_canonical_middle :
    ∃ a : RangeAllocator, a.ranges = [⟨0, 4096⟩, ⟨12288, 4096⟩] ∧ a.Canonical := by
  have h : Runs RangeOp.run (fun a op _ => op.Allowed a) new
      ((RangeOp.reserve 4096 8192).apply ((RangeOp.addRange 0 16384).apply new)) := by
    refine .call (.call .start rfl ?_) rfl (show 4096 + 8192 < 2 ^ 64 by norm_num)
    exact ⟨by norm_num, by norm_num, by simp [new, freeSet]⟩
  exact ⟨_, by decide, (free_list_canonical h).1⟩

end RangeAllocator

end MaramOS
