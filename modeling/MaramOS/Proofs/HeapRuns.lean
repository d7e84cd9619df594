import MaramOS.Proofs.Allocation

/-! Runs of the allocator: blocks are pushed, and then ranges are allocated,
written to and freed in any order. In every state that is reached the memory is
settled, so live ranges share no memory and none is lost. -/

namespace MaramOS

open List BuddySystem DyadicBlock

namespace BuddyAllocator

variable {minOrder orderCount slabBlocks : ℕ} {hasSlab : Bool}

/-- The allocator after the blocks, given by address and order, were pushed from the last to the first. -/
def started (minOrder orderCount slabBlocks : ℕ) (hasSlab : Bool) (mem : Memory) :
    List (ℕ × ℕ) → BuddyAllocator minOrder orderCount slabBlocks hasSlab
  | [] => new minOrder orderCount slabBlocks hasSlab mem
  | b :: blocks => (started minOrder orderCount slabBlocks hasSlab mem blocks).push b.1 b.2

def pushed (minOrder : ℕ) (blocks : List (ℕ × ℕ)) : Multiset ℕ :=
  (blocks.map fun b => run b.1 (blockSize minOrder b.2)).sum

/-- The blocks may be pushed: they are aligned and share no memory. -/
structure Blocks (minOrder orderCount : ℕ) (blocks : List (ℕ × ℕ)) : Prop where
  order : ∀ b ∈ blocks, b.2 ≤ maxOrder orderCount
  aligned : ∀ b ∈ blocks, blockSize minOrder b.2 ∣ b.1
  nonzero : ∀ b ∈ blocks, b.1 ≠ 0
  disjoint : blocks.Pairwise fun b b' =>
    b.1 + blockSize minOrder b.2 ≤ b'.1 ∨ b'.1 + blockSize minOrder b'.2 ≤ b.1

/-- The states with the ranges that are live in them. The holder of a range may write to it. -/
inductive Reached (h0 : BuddyAllocator minOrder orderCount slabBlocks hasSlab) :
    BuddyAllocator minOrder orderCount slabBlocks hasSlab → List (ℕ × ℕ) → Prop
  | start : Reached h0 h0 []
  | alloc {h h' live count a} : Reached h0 h live → 0 < count → count < 2 ^ 64 →
      h.allocRange count = .ok (some a, h') → Reached h0 h' ((a, count) :: live)
  | full {h h' live count} : Reached h0 h live → 0 < count → count < 2 ^ 64 →
      h.allocRange count = .ok (none, h') → Reached h0 h' live
  | free {h h' live r} : Reached h0 h live → r ∈ live → h.freeRange r.1 r.2 = .ok h' → Reached h0 h' (live.erase r)
  | write {h live r mem'} : Reached h0 h live → r ∈ live →
      (∀ w, w ∉ run r.1 (r.2 * 2 ^ minOrder) → mem' w = h.mem w) → Reached h0 { h with mem := mem' } live

section Start

variable {blocks : List (ℕ × ℕ)}

def pools : List (ℕ × ℕ) → Pools
  | [] => fun _ => []
  | b :: blocks => Function.update (pools blocks) b.2 (b.1 :: pools blocks b.2)

theorem mem_pools {a k : ℕ} : a ∈ pools blocks k ↔ (a, k) ∈ blocks := by
  induction blocks with
  | nil => simp [pools]
  | cons b blocks ih =>
    rw [pools, mem_cons]
    by_cases hk : k = b.2
    · subst hk
      rw [Function.update_self, mem_cons, ih]
      simp [Prod.ext_iff]
    · rw [Function.update_of_ne hk, ih]
      simp [Prod.ext_iff, hk]

theorem pushed_cons (b : ℕ × ℕ) :
    pushed minOrder (b :: blocks) = run b.1 (2 ^ (b.2 + minOrder)) + pushed minOrder blocks := by
  rw [pushed, map_cons, sum_cons]
  rfl

theorem cells_pools (horder : ∀ b ∈ blocks, b.2 ≤ maxOrder orderCount) :
    cells minOrder (maxOrder orderCount) (pools blocks) = pushed minOrder blocks := by
  induction blocks with
  | nil =>
    rw [cells]
    exact Finset.sum_eq_zero fun k _ => rfl
  | cons b blocks ih =>
    rw [pools, cells_push (horder b mem_cons_self), ih fun b' hb' => horder b' (mem_cons_of_mem _ hb'),
      pushed_cons, add_comm]

theorem mem_pushed {x : ℕ} : x ∈ pushed minOrder blocks ↔ ∃ b ∈ blocks, x ∈ run b.1 (blockSize minOrder b.2) := by
  induction blocks with
  | nil => simp [pushed]
  | cons b blocks ih =>
    rw [pushed_cons, Multiset.mem_add, ih, exists_mem_cons_iff]
    rfl

theorem Blocks.addressable (h : Blocks minOrder orderCount blocks)
    (hend : ∀ b ∈ blocks, b.1 + blockSize minOrder b.2 < 2 ^ 64) : Addressable (pushed minOrder blocks) := by
  refine ⟨?_, fun hzero => ?_, fun x hx => ?_⟩
  · have hdisj := h.disjoint
    clear h hend
    induction blocks with
    | nil => exact Multiset.nodup_zero
    | cons b blocks ih =>
      rw [pairwise_cons] at hdisj
      rw [pushed_cons, Multiset.nodup_add]
      refine ⟨nodup_run _ _, ih hdisj.2, Multiset.disjoint_left.2 fun hx hx' => ?_⟩
      obtain ⟨b', hb', hx'⟩ := mem_pushed.1 hx'
      have hb := hdisj.1 b' hb'
      rw [mem_run] at hx hx'
      simp only [blockSize] at hb hx'
      omega
  · obtain ⟨b, hb, hx⟩ := mem_pushed.1 hzero
    rw [mem_run] at hx
    exact h.nonzero b hb (by omega)
  · obtain ⟨b, hb, hx⟩ := mem_pushed.1 hx
    have := hend b hb
    rw [mem_run] at hx
    omega

theorem Blocks.tail {b : ℕ × ℕ} (h : Blocks minOrder orderCount (b :: blocks)) : Blocks minOrder orderCount blocks where
  order b' hb' := h.order b' (mem_cons_of_mem _ hb')
  aligned b' hb' := h.aligned b' (mem_cons_of_mem _ hb')
  nonzero b' hb' := h.nonzero b' (mem_cons_of_mem _ hb')
  disjoint := h.disjoint.of_cons

theorem started_settled (h : Blocks minOrder orderCount blocks)
    (hend : ∀ b ∈ blocks, b.1 + blockSize minOrder b.2 < 2 ^ 64) (mem : Memory) :
    (started minOrder orderCount slabBlocks hasSlab mem blocks).Settled (pushed minOrder blocks) []
      ⟨pools blocks, [], [], 0⟩ := by
  have hshows : (started minOrder orderCount slabBlocks hasSlab mem blocks).Shows (pools blocks) ∧
      (started minOrder orderCount slabBlocks hasSlab mem blocks).slab = PageSlab.new slabBlocks (2 ^ minOrder) := by
    induction blocks with
    | nil => exact ⟨fun k _ => .nil, rfl⟩
    | cons b blocks ih =>
      have haddr := h.addressable hend
      rw [pushed_cons, add_comm, ← cells_pools h.tail.order] at haddr
      obtain ⟨hs, hslab⟩ := ih h.tail fun b' hb' => hend b' (mem_cons_of_mem _ hb')
      obtain ⟨hpush, hframe⟩ := push_spec hs haddr
      exact ⟨hpush, hframe.slab.trans hslab⟩
  refine ⟨⟨hshows.1, fun k a ha => h.aligned (a, k) (mem_pools.1 ha), ?_, ?_, ?_, ?_, ?_, ?_, ?_, h.addressable hend⟩, rfl,
    ?_, .nil⟩
  · rw [hshows.2]
    rfl
  · rw [hshows.2]
    rfl
  · exact fun s hs => absurd hs not_mem_nil
  · exact fun hne => absurd rfl hne
  · exact fun s hs => absurd hs not_mem_nil
  · exact fun r hr => absurd hr not_mem_nil
  · rw [Placement.all, cells_pools h.order]
    exact ((add_zero _).trans (add_zero _)).trans (add_zero _)
  · exact fun s hs => absurd hs not_mem_nil

end Start

namespace Settled

variable {h : BuddyAllocator minOrder orderCount slabBlocks hasSlab} {memory : Multiset ℕ} {live : List (ℕ × ℕ)}
  {p : Placement}

theorem ranged_le_rounded {l : List (ℕ × ℕ)} (hl : ∀ r ∈ l, r.2 < 2 ^ 64) :
    ranged (2 ^ minOrder) l ≤ rounded minOrder l := by
  induction l with
  | nil => exact le_rfl
  | cons r l ih =>
    rw [ranged_cons, rounded_cons]
    refine add_le_add ?_ (ih fun r' hr' => hl r' (mem_cons_of_mem _ hr'))
    have hle : r.2 * 2 ^ minOrder ≤ 2 ^ (orderOf r.2 + minOrder) := by
      rw [Nat.pow_add]
      exact Nat.mul_le_mul_right _ (le_two_pow_orderOf (hl r mem_cons_self))
    rw [← Nat.add_sub_cancel' hle, run_add]
    exact Multiset.le_add_right _ _

section

variable (hp : h.Settled memory live p)
include hp

theorem accounts :
    cells minOrder (maxOrder orderCount) p.free + ranged (2 ^ minOrder) (p.slots.flatMap SlabSlot.ranges) +
      (ranged (2 ^ minOrder) (p.slots.flatMap SlabSlot.live) + rounded minOrder p.whole) = memory := by
  rw [← hp.all, Placement.all, hp.loose, heldBy_eq]
  abel

theorem live_le : ranged (2 ^ minOrder) live ≤
    ranged (2 ^ minOrder) (p.slots.flatMap SlabSlot.live) + rounded minOrder p.whole := by
  rw [ranged_perm hp.live, Placement.live, ranged_append, add_comm]
  exact add_le_add le_rfl (ranged_le_rounded fun r hr => (hp.whole r hr).2.1)

theorem live_le_memory : ranged (2 ^ minOrder) live ≤ memory := by
  rw [← hp.accounts]
  exact hp.live_le.trans (Multiset.le_add_left _ _)

theorem write (hsized : Sized minOrder orderCount hasSlab) {r : ℕ × ℕ} (hr : r ∈ live)
    {mem' : Memory} (hmem : ∀ w, w ∉ run r.1 (r.2 * 2 ^ minOrder) → mem' w = h.mem w) :
    ({ h with mem := mem' } : BuddyAllocator minOrder orderCount slabBlocks hasSlab).Settled memory live p := by
  have hnodup := hp.addressable.nodup
  rw [← hp.accounts] at hnodup
  have hdisj : ∀ w ∈ cells minOrder (maxOrder orderCount) p.free +
      ranged (2 ^ minOrder) (p.slots.flatMap SlabSlot.ranges), mem' w = h.mem w := by
    intro w hw
    refine hmem w fun hin => Multiset.disjoint_left.1 (Multiset.nodup_add.1 hnodup).2.2 hw ?_
    exact Multiset.mem_of_le hp.live_le (mem_ranged.2 ⟨r, hr, hin⟩)
  refine ⟨⟨?_, hp.aligned, hp.blocks, hp.size, fun s hs => ?_, hp.noSlab, hp.uneven, hp.whole, hp.all, hp.addressable⟩,
    hp.loose, hp.busy, hp.live⟩
  · exact hp.shows.congr rfl fun w hw => hdisj w (Multiset.mem_add.2 (.inl hw))
  · refine (hp.slots s hs).frame (Nat.le_of_dvd (Nat.two_pow_pos _) (hp.unit_dvd hsized hs)) fun w hw => hdisj w ?_
    obtain ⟨r', hr', hw⟩ := mem_ranged.1 hw
    exact Multiset.mem_add.2 (.inr (mem_ranged.2 ⟨r', mem_flatMap.2 ⟨s, hs, hr'⟩, hw⟩))

end

end Settled

theorem Reached.settled {h0 h : BuddyAllocator minOrder orderCount slabBlocks hasSlab} {memory : Multiset ℕ}
    {live : List (ℕ × ℕ)} {p0 : Placement} (hsized : Sized minOrder orderCount hasSlab) (hreach : Reached h0 h live)
    (h0settled : h0.Settled memory [] p0) :
    ∃ p, h.Settled memory live p ∧
      (NoBuddies minOrder (maxOrder orderCount) p0.free → NoBuddies minOrder (maxOrder orderCount) p.free) := by
  induction hreach with
  | start => exact ⟨p0, h0settled, id⟩
  | alloc _ hcount hcount64 hrun ih =>
    obtain ⟨p, hp, hno⟩ := ih
    rcases hp.allocRange hsized hcount hcount64 with hnone | ⟨a', h'', p', hsome, hp', -, hno'⟩
    · rw [hrun] at hnone
      cases hnone
    · rw [hrun] at hsome
      cases hsome
      exact ⟨p', hp', fun h => hno' (hno h)⟩
  | full _ hcount hcount64 hrun ih =>
    obtain ⟨p, hp, hno⟩ := ih
    rcases hp.allocRange hsized hcount hcount64 with hnone | ⟨a', h'', p', hsome, -⟩
    · rw [hrun] at hnone
      cases hnone
      exact ⟨p, hp, hno⟩
    · rw [hrun] at hsome
      cases hsome
  | free _ hr hrun ih =>
    obtain ⟨p, hp, hno⟩ := ih
    obtain ⟨h'', p', hfree, hp', -, hno'⟩ := hp.freeRange hsized hr
    rw [hrun] at hfree
    cases hfree
    exact ⟨p', hp', fun h => hno' (hno h)⟩
  | write _ hr hmem ih =>
    obtain ⟨p, hp, hno⟩ := ih
    exact ⟨p, hp.write hsized hr hmem, hno⟩

section Safety

/-- What holds of the live ranges of a state, and of the memory around them. -/
structure Safe (h : BuddyAllocator minOrder orderCount slabBlocks hasSlab) (live : List (ℕ × ℕ)) (memory : Multiset ℕ) :
    Prop where
  inside : ∀ r ∈ live, ∀ x ∈ run r.1 (r.2 * 2 ^ minOrder), x ∈ memory
  nonzero : ∀ r ∈ live, r.1 ≠ 0
  aligned : ∀ r ∈ live, 2 ^ minOrder ∣ r.1 ∧ (r.2.isPowerOfTwo → r.2 * 2 ^ minOrder ∣ r.1)
  disjoint : live.Pairwise fun r r' => Disjoint (run r.1 (r.2 * 2 ^ minOrder)) (run r'.1 (r'.2 * 2 ^ minOrder))
  accounts : ∃ (free : Pools) (slots : List SlabSlot) (whole : List (ℕ × ℕ)), h.Shows free ∧
    h.slab.blocks = slots.map SlabSlot.block ∧
    (∀ s ∈ slots, s.Good (2 ^ minOrder) (maxOrder orderCount) h.mem) ∧
    live.Perm (whole ++ slots.flatMap SlabSlot.live) ∧
    cells minOrder (maxOrder orderCount) free + ranged (2 ^ minOrder) (slots.flatMap SlabSlot.ranges) +
      (ranged (2 ^ minOrder) (slots.flatMap SlabSlot.live) + rounded minOrder whole) = memory
  alloc_returns : ∀ count, 0 < count → count < 2 ^ 64 → ∃ r h', h.allocRange count = .ok (r, h')
  free_returns : ∀ r ∈ live, ∃ h', h.freeRange r.1 r.2 = .ok h'

variable {h : BuddyAllocator minOrder orderCount slabBlocks hasSlab} {memory : Multiset ℕ} {live : List (ℕ × ℕ)}
  {p : Placement} {count a : ℕ}

theorem Settled.proper (hp : h.Settled memory live p) {r : ℕ × ℕ} (hr : r ∈ live) :
    0 < r.2 ∧ 2 ^ minOrder ∣ r.1 ∧ (r.2.isPowerOfTwo → r.2 * 2 ^ minOrder ∣ r.1) := by
  rcases mem_append.1 (hp.live.subset hr) with hwhole | hslab
  · obtain ⟨hpos, hlt, -, hd⟩ := hp.whole r hwhole
    refine ⟨hpos, (pow_dvd_pow 2 (Nat.le_add_left _ _)).trans hd, fun hpow => ?_⟩
    rwa [Nat.pow_add, two_pow_orderOf hlt hpow] at hd
  · obtain ⟨s, hs, hr'⟩ := mem_flatMap.1 hslab
    have hgood := hp.slots s hs
    obtain ⟨hpos, hd⟩ := (hgood.carves (hgood.used_of_live hr')).proper r (mem_append_right _ hr')
    exact ⟨hpos, hd, fun hpow => absurd hpow (hp.uneven s hs r hr')⟩

theorem Settled.safe (hsized : Sized minOrder orderCount hasSlab) (hp : h.Settled memory live p) : h.Safe live memory where
  inside r hr x hx := Multiset.mem_of_le hp.live_le_memory (mem_ranged.2 ⟨r, hr, hx⟩)
  nonzero r hr hzero := by
    have hself := self_mem_ranged (Nat.two_pow_pos minOrder) hr (hp.proper hr).1
    rw [hzero] at hself
    exact hp.addressable.pos (Multiset.mem_of_le hp.live_le_memory hself)
  aligned r hr := (hp.proper hr).2
  disjoint := ranged_pairwise (Multiset.nodup_of_le hp.live_le_memory hp.addressable.nodup)
  accounts := ⟨p.free, p.slots, p.whole, hp.shows, hp.blocks, hp.slots, hp.live, hp.accounts⟩
  alloc_returns count hcount hcount64 := by
    rcases hp.allocRange hsized hcount hcount64 with hrun | ⟨a, h', -, hrun, -⟩
    · exact ⟨_, _, hrun⟩
    · exact ⟨_, _, hrun⟩
  free_returns r hr := by
    obtain ⟨h', -, hrun, -⟩ := hp.freeRange hsized hr
    exact ⟨h', hrun⟩

def afterAlloc (h : BuddyAllocator minOrder orderCount slabBlocks hasSlab) (count : ℕ) :
    BuddyAllocator minOrder orderCount slabBlocks hasSlab :=
  match h.allocRange count with
  | .ok (_, h') => h'
  | .error _ => h

def afterFree (h : BuddyAllocator minOrder orderCount slabBlocks hasSlab) (addr count : ℕ) :
    BuddyAllocator minOrder orderCount slabBlocks hasSlab :=
  match h.freeRange addr count with
  | .ok h' => h'
  | .error _ => h

theorem allocRange_afterAlloc {r : Option ℕ} (hrun : (h.allocRange count).toOption.map Prod.fst = some r) :
    h.allocRange count = .ok (r, h.afterAlloc count) := by
  rw [afterAlloc]
  rcases hx : h.allocRange count with e | ⟨r', h'⟩
  · rw [hx] at hrun
    cases hrun
  · rw [hx] at hrun
    cases hrun
    rfl

theorem freeRange_afterFree (hrun : (h.freeRange a count).toOption.isSome = true) :
    h.freeRange a count = .ok (h.afterFree a count) := by
  rw [afterFree]
  rcases hx : h.freeRange a count with e | h'
  · rw [hx] at hrun
    cases hrun
  · rfl

theorem Reached.alloc_of_addr {h0 h : BuddyAllocator minOrder orderCount slabBlocks hasSlab} {live : List (ℕ × ℕ)}
    {count a : ℕ} (hreach : Reached h0 h live) (hcount : 0 < count) (hcount64 : count < 2 ^ 64)
    (hrun : (h.allocRange count).toOption.map Prod.fst = some (some a)) :
    Reached h0 (h.afterAlloc count) ((a, count) :: live) :=
  hreach.alloc hcount hcount64 (allocRange_afterAlloc hrun)

theorem Reached.free_of_ok {h0 : BuddyAllocator minOrder orderCount slabBlocks hasSlab}
    (hreach : Reached h0 h ((a, count) :: live)) (hrun : (h.freeRange a count).toOption.isSome = true) :
    Reached h0 (h.afterFree a count) live := by
  have hstep := hreach.free mem_cons_self (freeRange_afterFree hrun)
  rwa [erase_cons_head] at hstep

/-- With a slab, every state that is reached is safe, if no block ends at the end of the address space. -/
theorem allocator_safe (hmin : 4 ≤ minOrder) (hone : 1 ≤ orderCount) (hcount : orderCount ≤ 32)
    (hsum : minOrder + orderCount ≤ 63) {blocks : List (ℕ × ℕ)} (hblocks : Blocks minOrder orderCount blocks)
    (hend : ∀ b ∈ blocks, b.1 + blockSize minOrder b.2 < 2 ^ 64) (mem : Memory)
    {h : BuddyAllocator minOrder orderCount slabBlocks true} {live : List (ℕ × ℕ)}
    (hreach : Reached (started minOrder orderCount slabBlocks true mem blocks) h live) :
    h.Safe live (pushed minOrder blocks) := by
  have hsized : Sized minOrder orderCount true := ⟨by omega, hone, by omega, fun _ => hmin, fun _ => hcount⟩
  obtain ⟨p, hp, -⟩ := hreach.settled hsized (started_settled hblocks hend mem)
  exact hp.safe hsized

/-- The kernel heap: one block of the highest order. -/
def heap : BuddyAllocator 4 17 64 true := started 4 17 64 true (fun _ => 0) [(2 ^ 20, 16)]

theorem heap_blocks : Blocks 4 17 [(2 ^ 20, 16)] ∧ ∀ b ∈ [(2 ^ 20, 16)], b.1 + blockSize 4 b.2 < 2 ^ 64 :=
  ⟨⟨by decide, by decide, by decide, pairwise_singleton _ _⟩, by decide⟩

theorem heap_reached : Reached heap (heap.afterAlloc 3) [(2 ^ 20, 3)] :=
  Reached.start.alloc_of_addr (by norm_num) (by norm_num) (by decide +kernel)

theorem allocator_safe_heap : (heap.afterAlloc 3).Safe [(2 ^ 20, 3)] (pushed 4 [(2 ^ 20, 16)]) :=
  allocator_safe (by norm_num) (by norm_num) (by norm_num) (by norm_num) heap_blocks.1 heap_blocks.2 (fun _ => 0)
    heap_reached

/-- One block that ends at the end of the address space. -/
def topmost : BuddyAllocator 4 4 1 true := started 4 4 1 true (fun _ => 0) [(2 ^ 64 - 128, 3)]

theorem topmost_blocks : Blocks 4 4 [(2 ^ 64 - 128, 3)] ∧ ∀ b ∈ [(2 ^ 64 - 128, 3)], b.1 + blockSize 4 b.2 ≤ 2 ^ 64 :=
  ⟨⟨by decide, by decide, by decide, pairwise_singleton _ _⟩, by decide⟩

theorem topmost_reached : Reached topmost ((topmost.afterAlloc 5).afterFree (2 ^ 64 - 128) 5) [] :=
  (Reached.start.alloc_of_addr (by norm_num) (by norm_num) (by decide +kernel)).free_of_ok (by decide +kernel)

/-- The end of the slab block wraps to zero, so a freed range goes to the free lists and stays in the slab as well: later
two live ranges overlap. -/
theorem topmost_overlap : Blocks 4 4 [(2 ^ 64 - 128, 3)] ∧
    (∀ b ∈ [(2 ^ 64 - 128, 3)], b.1 + blockSize 4 b.2 ≤ 2 ^ 64) ∧
    ∃ h : BuddyAllocator 4 4 1 true, Reached (started 4 4 1 true (fun _ => 0) [(2 ^ 64 - 128, 3)]) h
      [(2 ^ 64 - 48, 3), (2 ^ 64 - 128, 8)] ∧
      2 ^ 64 - 48 ∈ run (2 ^ 64 - 48) (3 * 2 ^ 4) ∧ 2 ^ 64 - 48 ∈ run (2 ^ 64 - 128) (8 * 2 ^ 4) := by
  refine ⟨topmost_blocks.1, topmost_blocks.2,
    (((topmost.afterAlloc 5).afterFree (2 ^ 64 - 128) 5).afterAlloc 8).afterAlloc 3, ?_, mem_run.2 (by norm_num),
    mem_run.2 (by norm_num)⟩
  have hstep := @Reached.alloc_of_addr _ _ _ _ _ _ _ 8 (2 ^ 64 - 128) topmost_reached (by norm_num) (by norm_num)
    (by decide +kernel)
  exact hstep.alloc_of_addr (by norm_num) (by norm_num) (by decide +kernel)

end Safety

section Merging

variable {h : BuddyAllocator minOrder orderCount slabBlocks hasSlab} {memory : Multiset ℕ} {p : Placement}

theorem Settled.idle (hp : h.Settled memory [] p) :
    (∀ b ∈ h.slab.blocks, b.used = false) ∧ cells minOrder (maxOrder orderCount) p.free = memory := by
  have hnil := hp.live.nil_eq
  rw [Placement.live, eq_comm, append_eq_nil_iff, flatMap_eq_nil_iff] at hnil
  have hunused : ∀ s ∈ p.slots, s.block.used = false := by
    intro s hs
    by_contra hused
    exact hp.busy s hs (Bool.eq_true_of_not_eq_false hused) (hnil.2 s hs)
  have hranges : p.slots.flatMap SlabSlot.ranges = [] :=
    flatMap_eq_nil_iff.2 fun s hs => ((hp.slots s hs).empty (hunused s hs)).1
  refine ⟨fun b hb => ?_, ?_⟩
  · rw [hp.blocks] at hb
    obtain ⟨s, hs, rfl⟩ := mem_map.1 hb
    exact hunused s hs
  · rw [← hp.accounts, hranges, flatMap_eq_nil_iff.2 hnil.2, hnil.1]
    exact ((add_zero _).trans (add_zero _)).symm

/-- No free list of a reached state holds buddies, and once everything is freed the blocks are as they were pushed. -/
theorem allocator_merges (hsized : Sized minOrder orderCount hasSlab) {blocks : List (ℕ × ℕ)}
    (hblocks : Blocks minOrder orderCount blocks) (hend : ∀ b ∈ blocks, b.1 + blockSize minOrder b.2 < 2 ^ 64)
    (hno : ∀ b ∈ blocks, b.2 < maxOrder orderCount → (buddyOf minOrder b.1 b.2, b.2) ∉ blocks) (mem : Memory)
    {live : List (ℕ × ℕ)} (hreach : Reached (started minOrder orderCount slabBlocks hasSlab mem blocks) h live) :
    ∃ free : Pools, h.Shows free ∧
      (∀ k < maxOrder orderCount, ∀ a ∈ free k, buddyOf minOrder a k ∉ free k) ∧
      (live = [] → (∀ k ≤ maxOrder orderCount, ∀ a, a ∈ free k ↔ (a, k) ∈ blocks) ∧
        ∀ b ∈ h.slab.blocks, b.used = false) := by
  have hstart := @started_settled _ _ slabBlocks hasSlab _ hblocks hend mem
  have hno₀ : NoBuddies minOrder (maxOrder orderCount) (pools blocks) := fun k hk a ha hbuddy =>
    hno (a, k) (mem_pools.1 ha) hk (mem_pools.1 hbuddy)
  obtain ⟨p, hp, hkeep⟩ := hreach.settled hsized hstart
  have hno' := hkeep hno₀
  refine ⟨p.free, hp.shows, hno', ?_⟩
  rintro rfl
  obtain ⟨hunused, hcells⟩ := hp.idle
  refine ⟨fun k hk a => ?_, hunused⟩
  rw [← mem_pools]
  exact pools_unique hp.aligned hno' hp.addressable_free.nodup hstart.aligned hno₀
    (hcells.trans (cells_pools hblocks.order).symm) hk a

theorem allocator_merges_heap : ∃ free : Pools, ((heap.afterAlloc 3).afterFree (2 ^ 20) 3).Shows free ∧
    (∀ k < 16, ∀ a ∈ free k, buddyOf 4 a k ∉ free k) ∧
    (∀ k ≤ 16, ∀ a, a ∈ free k ↔ (a, k) ∈ [(2 ^ 20, 16)]) ∧
    ∀ b ∈ ((heap.afterAlloc 3).afterFree (2 ^ 20) 3).slab.blocks, b.used = false := by
  obtain ⟨free, hshows, hno, hidle⟩ := allocator_merges ⟨by norm_num, by norm_num, by norm_num, by norm_num, by norm_num⟩
    heap_blocks.1 heap_blocks.2 (by decide) (fun _ => 0) (heap_reached.free_of_ok (by decide +kernel))
  exact ⟨free, hshows, hno, hidle rfl⟩

/-- After everything was freed, the slab still keeps the block that ends at the end of the address space. -/
theorem topmost_kept : Blocks 4 4 [(2 ^ 64 - 128, 3)] ∧
    (∀ b ∈ [(2 ^ 64 - 128, 3)], b.1 + blockSize 4 b.2 ≤ 2 ^ 64) ∧
    (∀ b ∈ [(2 ^ 64 - 128, 3)], b.2 < maxOrder 4 → (buddyOf 4 b.1 b.2, b.2) ∉ [(2 ^ 64 - 128, 3)]) ∧
    ∃ h : BuddyAllocator 4 4 1 true, Reached (started 4 4 1 true (fun _ => 0) [(2 ^ 64 - 128, 3)]) h [] ∧
      ∃ b ∈ h.slab.blocks, b.used = true := by
  refine ⟨topmost_blocks.1, topmost_blocks.2, by decide, _, topmost_reached, ?_⟩
  decide +kernel

end Merging

end BuddyAllocator

end MaramOS
