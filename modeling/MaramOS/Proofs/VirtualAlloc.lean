import MaramOS.Proofs.FreeSpace
import MaramOS.Proofs.Virt

/-! The regions that `VMemAllocator::alloc` hands out. The size in bytes and the end of
the region are computed modulo `2 ^ 64`, and only the reduced end is compared with
the end of a free range. -/

namespace MaramOS

open RangeAllocator

variable {size align count : ℕ} {l : List Range} {r : Range} {s : VMemAllocator}

namespace RangeAllocator

/-- The test that the loop of `allocate` makes, with the sums as the machine forms them. -/
def passes (size align : ℕ) (r : Range) : Bool :=
  decide ((roundUp r.start align + size) % 2 ^ 64 ≤ r.start + r.length)

theorem passes_iff : passes size align r = true ↔ (roundUp r.start align + size) % 2 ^ 64 ≤ r.start + r.length :=
  decide_eq_true_iff

theorem nextMultipleOf_mod (h : r.start < 2 ^ 64) : nextMultipleOf r.start align = roundUp r.start align % 2 ^ 64 := by
  rw [nextMultipleOf, roundUp]
  split_ifs
  · rw [Nat.mod_eq_of_lt h]
  · rfl

theorem allocateFrom_start (hb : ∀ r ∈ l, r.start + r.length < 2 ^ 64) (done : List Range) (size align : ℕ) :
    (allocateFrom (size % 2 ^ 64) align done l).map Prod.fst =
      (l.find? (passes size align)).map fun r => roundUp r.start align % 2 ^ 64 := by
  induction l generalizing done with
  | nil => rfl
  | cons r rest ih =>
    have hr := hb r List.mem_cons_self
    have hend : wadd (roundUp r.start align % 2 ^ 64) (size % 2 ^ 64) = (roundUp r.start align + size) % 2 ^ 64 := by
      rw [wadd, ← Nat.add_mod]
    rw [allocateFrom, nextMultipleOf_mod (by omega), hend, wadd_of_lt hr]
    simp only
    by_cases hpass : (roundUp r.start align + size) % 2 ^ 64 ≤ r.start + r.length
    · rw [if_neg (not_lt.2 hpass), List.find?_cons_of_pos (passes_iff.2 hpass)]
      rfl
    · rw [if_pos (not_le.1 hpass), List.find?_cons_of_neg fun htrue => hpass (passes_iff.1 htrue)]
      exact ih (fun q hq => hb q (List.mem_cons_of_mem _ hq)) _

end RangeAllocator

namespace VMemAllocator

def alignment (count : ℕ) : ℕ :=
  if count % 0x40000 = 0 then pageSize 2 else if count % 0x200 = 0 then pageSize 1 else pageSize 0

theorem alignment_dvd (count : ℕ) : alignment count ∣ 2 ^ 64 := by
  rw [alignment]
  split_ifs
  all_goals exact pow_dvd_pow 2 (by norm_num)

theorem alignment_pos (count : ℕ) : 0 < alignment count := Nat.pos_of_dvd_of_pos (alignment_dvd count) (by norm_num)

theorem alloc_result (hb : ∀ r ∈ s.allocator.ranges, r.start + r.length < 2 ^ 64) (hcount : count ≠ 0) :
    (alloc count s).1 =
      match s.allocator.ranges.find? (passes (count * pageSize 0) (alignment count)) with
      | none => .ok none
      | some r =>
        if canonicalAddr (roundUp r.start (alignment count) % 2 ^ 64) then
          .ok (some ⟨roundUp r.start (alignment count) % 2 ^ 64, wmul count (pageSize 0)⟩)
        else .error .panic := by
  have hfrom := allocateFrom_start hb [] (count * pageSize 0) (alignment count)
  rw [alloc, if_neg hcount]
  change (Prog.seq (onAllocator fun a => a.allocate (wmul count (pageSize 0)) (alignment count)) _ s).1 = _
  rw [Prog.seq, onAllocator, RangeAllocator.allocate]
  change (allocateFrom (wmul count (pageSize 0)) (alignment count) [] s.allocator.ranges).map Prod.fst = _ at hfrom
  cases hrun : allocateFrom (wmul count (pageSize 0)) (alignment count) [] s.allocator.ranges with
  | none =>
    rw [hrun] at hfrom
    rw [Option.map_eq_none_iff.1 hfrom.symm]
    rfl
  | some found =>
    rw [hrun] at hfrom
    obtain ⟨r, hr, hstart⟩ := Option.map_eq_some_iff.1 hfrom.symm
    rw [hr]
    change (Prog.seq (virtAddr found.1) _ _).1 = _
    rw [Prog.seq, virtAddr, ← hstart]
    split_ifs with hcan
    · exact (if_pos hcan).symm
    · exact (if_neg hcan).symm

/-- A region of exactly `count` pages in one free range. -/
def Contained (count : ℕ) (s : VMemAllocator) (region : VirtualRegion) : Prop :=
  region.size = count * 4096 ∧ region.start + region.size ≤ 2 ^ 64 ∧
    ∃ r ∈ s.allocator.ranges, r.start ≤ region.start ∧ region.start + region.size ≤ r.start + r.length

/-- The first free range whose end is not below the reduced end of an aligned block really holds the block.
The block may also begin at zero, if it was rounded up to `2 ^ 64`, and lie in a range that begins there; and
`VirtAddr::new` panics on an address that is not canonical. -/
def Exact (count : ℕ) (s : VMemAllocator) : Prop :=
  ∀ r, s.allocator.ranges.find? (passes (count * 4096) (alignment count)) = some r →
    roundUp r.start (alignment count) + count * 4096 ≤ r.start + r.length ∨
    (2 ^ 64 ≤ roundUp r.start (alignment count) ∧ ∃ q ∈ s.allocator.ranges, q.start = 0 ∧ count * 4096 ≤ q.length) ∨
    canonicalAddr (roundUp r.start (alignment count) % 2 ^ 64) = false

theorem contained_of_exact (hb : ∀ r ∈ s.allocator.ranges, r.start + r.length < 2 ^ 64) (hr : r ∈ s.allocator.ranges)
    (h : roundUp r.start (alignment count) + count * 4096 ≤ r.start + r.length ∨
      2 ^ 64 ≤ roundUp r.start (alignment count) ∧ ∃ q ∈ s.allocator.ranges, q.start = 0 ∧ count * 4096 ≤ q.length) :
    Contained count s ⟨roundUp r.start (alignment count) % 2 ^ 64, count * 4096 % 2 ^ 64⟩ := by
  rcases h with hfit | ⟨hover, q, hq, hzero, hlen⟩
  · have hend := hb r hr
    have hle := le_roundUp r.start (alignment count)
    rw [Nat.mod_eq_of_lt (by omega), Nat.mod_eq_of_lt (by omega)]
    exact ⟨rfl, by simp only; omega, r, hr, hle, hfit⟩
  · have hend := hb q hq
    have hround := roundUp_le (alignment_pos count) (alignment_dvd count) (show r.start ≤ 2 ^ 64 by have := hb r hr; omega)
    rw [hround.antisymm hover, Nat.mod_self, Nat.mod_eq_of_lt (by omega)]
    exact ⟨rfl, by simp only; omega, q, hq, by simp only; omega, by simp only; omega⟩

theorem exact_of_contained (hb : ∀ r ∈ s.allocator.ranges, r.start + r.length < 2 ^ 64) (hr : r ∈ s.allocator.ranges)
    (hpass : (roundUp r.start (alignment count) + count * 4096) % 2 ^ 64 ≤ r.start + r.length)
    (h : Contained count s ⟨roundUp r.start (alignment count) % 2 ^ 64, count * 4096 % 2 ^ 64⟩) :
    roundUp r.start (alignment count) + count * 4096 ≤ r.start + r.length ∨
      2 ^ 64 ≤ roundUp r.start (alignment count) ∧ ∃ q ∈ s.allocator.ranges, q.start = 0 ∧ count * 4096 ≤ q.length := by
  obtain ⟨hsize, -, q, hq, hle, hlast⟩ := h
  have hend := hb q hq
  have hround := roundUp_le (alignment_pos count) (alignment_dvd count) (show r.start ≤ 2 ^ 64 by have := hb r hr; omega)
  simp only at hsize hle hlast
  rw [hsize] at hlast
  by_cases hover : 2 ^ 64 ≤ roundUp r.start (alignment count)
  · rw [hround.antisymm hover, Nat.mod_self] at hle hlast
    exact .inr ⟨hover, q, hq, by omega, by omega⟩
  · rw [Nat.mod_eq_of_lt (not_le.1 hover)] at hlast
    rw [Nat.mod_eq_of_lt (by omega)] at hpass
    exact .inl hpass

/-- What `alloc` hands out lies in a free range exactly if the first range that passes its test really holds
the region. -/
theorem alloc_contained_iff (hb : ∀ r ∈ s.allocator.ranges, r.start + r.length < 2 ^ 64) :
    (∀ region s', alloc count s = (.ok (some region), s') → Contained count s region) ↔ count = 0 ∨ Exact count s := by
  by_cases hcount : count = 0
  · refine iff_of_true (fun region s' hrun => ?_) (.inl hcount)
    rw [alloc, if_pos hcount] at hrun
    cases hrun
  have hres := alloc_result hb hcount
  rw [or_iff_right hcount]
  constructor
  · intro h r hfind
    rw [or_iff_not_imp_left, ← not_imp_not]
    intro hcan
    rw [not_or, Bool.not_eq_false] at hcan
    rw [not_not]
    have hmem := List.mem_of_find?_eq_some hfind
    have hpass : (roundUp r.start (alignment count) + count * 4096) % 2 ^ 64 ≤ r.start + r.length :=
      passes_iff.1 (List.find?_some hfind)
    have hret : (alloc count s).1 =
        .ok (some ⟨roundUp r.start (alignment count) % 2 ^ 64, wmul count (pageSize 0)⟩) := by
      rw [hres]
      change List.find? (passes (count * pageSize 0) (alignment count)) _ = _ at hfind
      rw [hfind]
      exact if_pos hcan.2
    rcases exact_of_contained hb hmem hpass (h _ _ (Prod.ext hret rfl)) with hfit | hzero
    · exact hfit
    · exact absurd hzero hcan.1
  · intro h region s' hrun
    have hret : (alloc count s).1 = .ok (some region) := by rw [hrun]
    rw [hres] at hret
    split at hret
    · cases hret
    · rename_i r hfind
      split_ifs at hret with hcan
      cases hret
      refine contained_of_exact hb (List.mem_of_find?_eq_some hfind) ?_
      rcases h r hfind with hfit | hzero | hnot
      · exact .inl hfit
      · exact .inr hzero
      · rw [hcan] at hnot
        cases hnot

def fourPages : VMemAllocator := ⟨fun _ => .empty, ⟨[⟨4096, 16384⟩]⟩, ⟨[], [], []⟩⟩

theorem alloc_contained_iff_two :
    (alloc 2 fourPages).1 = .ok (some ⟨4096, 8192⟩) ∧ Contained 2 fourPages ⟨4096, 8192⟩ := by
  have hrun : (alloc 2 fourPages).1 = .ok (some ⟨4096, 8192⟩) := by decide +kernel
  have hb : ∀ r ∈ fourPages.allocator.ranges, r.start + r.length < 2 ^ 64 := by decide
  refine ⟨hrun, (alloc_contained_iff hb).2 (.inr fun r hfind => .inl ?_) _ _ (Prog.run_of_result hrun)⟩
  have hmem := List.mem_singleton.1 (List.mem_of_find?_eq_some hfind)
  rw [hmem]
  decide

/-- The size of `2 ^ 52 + 1` pages wraps to one page, and the end of `2 ^ 52 - 1` pages wraps to zero. -/
theorem wrapped_alloc_escapes :
    Apart fourPages.allocator.ranges ∧
    (alloc (2 ^ 52 + 1) fourPages).1 = .ok (some ⟨4096, 4096⟩) ∧
    (alloc (2 ^ 52 - 1) fourPages).1 = .ok (some ⟨4096, 2 ^ 64 - 4096⟩) ∧
    ¬Contained (2 ^ 52 + 1) fourPages ⟨4096, 4096⟩ ∧ ¬Contained (2 ^ 52 - 1) fourPages ⟨4096, 2 ^ 64 - 4096⟩ := by
  refine ⟨List.pairwise_singleton _ _, by decide +kernel, by decide +kernel, fun h => ?_, fun h => ?_⟩
  · exact absurd h.1 (by norm_num)
  · obtain ⟨-, -, r, hr, -, hlast⟩ := h
    rw [List.mem_singleton.1 hr] at hlast
    exact absurd hlast (by norm_num)

end VMemAllocator

end MaramOS
