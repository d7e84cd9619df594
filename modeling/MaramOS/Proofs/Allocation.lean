import MaramOS.Proofs.Slots

/-! The allocator as a whole. All memory that was pushed is at every moment in a
free block, in a slot of the slab or in a block that was handed out whole. Each
call moves memory between these three and loses nothing. -/

namespace MaramOS

open List BuddySystem DyadicBlock
open Multiset (mem_add mem_of_le nodup_add le_add_right disjoint_left)
open SlabSlot (opened)

section Orders

theorem trailingZeros_two_pow {k : ℕ} (hk : k < 64) : trailingZeros (2 ^ k) = k := by
  have hfind : (List.range 64).find? (fun i => (2 ^ k).testBit i) = some k := by
    rw [List.find?_range_eq_some]
    refine ⟨by rw [Nat.testBit_two_pow_self], mem_range.2 hk, fun j hj => ?_⟩
    rw [Nat.testBit_two_pow_of_ne (by omega)]
    rfl
  rw [trailingZeros, hfind]
  rfl

variable {c : ℕ}

theorem orderOf_eq (hc : c < 2 ^ 64) : orderOf c = Nat.clog 2 c := by
  have hle : Nat.clog 2 c ≤ 64 := Nat.clog_le_of_le_pow hc.le
  rw [orderOf, nextPowerOfTwo]
  rcases Nat.lt_or_eq_of_le hle with hlt | heq
  · rw [Nat.mod_eq_of_lt (Nat.pow_lt_pow_right (by norm_num) hlt), trailingZeros_two_pow hlt]
  · -- the power wraps to zero, which has 64 trailing zeros
    rw [heq, Nat.mod_self]
    rfl

theorem le_two_pow_orderOf (hc : c < 2 ^ 64) : c ≤ 2 ^ orderOf c := by
  rw [orderOf_eq hc]
  exact Nat.le_pow_clog (by norm_num) c

theorem two_pow_orderOf (hc : c < 2 ^ 64) (hpow : c.isPowerOfTwo) : 2 ^ orderOf c = c := by
  obtain ⟨k, rfl⟩ := hpow
  rw [orderOf_eq hc, Nat.clog_pow 2 k (by norm_num)]

end Orders

/-- The cells of blocks that were handed out whole: the lengths are rounded up. -/
def rounded (minOrder : ℕ) (l : List (ℕ × ℕ)) : Multiset ℕ :=
  (l.map fun r => run r.1 (2 ^ (orderOf r.2 + minOrder))).sum

variable {minOrder : ℕ}

theorem rounded_cons (r : ℕ × ℕ) (l : List (ℕ × ℕ)) :
    rounded minOrder (r :: l) = run r.1 (2 ^ (orderOf r.2 + minOrder)) + rounded minOrder l := by
  rw [rounded, map_cons, sum_cons]
  rfl

theorem rounded_perm {l l' : List (ℕ × ℕ)} (h : l.Perm l') : rounded minOrder l = rounded minOrder l' :=
  (h.map _).sum_eq

/-- The parameters for which a block has room for the words kept in it. -/
structure Sized (minOrder orderCount : ℕ) (hasSlab : Bool) : Prop where
  word : 3 ≤ minOrder
  orders : 1 ≤ orderCount
  fits : minOrder + orderCount ≤ 64
  record : hasSlab = true → 4 ≤ minOrder
  count32 : hasSlab = true → orderCount ≤ 32

/-- Where the memory is. `loose` is a block on its way from one place to another. -/
structure Placement where
  free : Pools
  slots : List SlabSlot
  whole : List (ℕ × ℕ)
  loose : Multiset ℕ

namespace Placement

def live (p : Placement) : List (ℕ × ℕ) := p.whole ++ p.slots.flatMap SlabSlot.live

def all (minOrder orderCount : ℕ) (p : Placement) : Multiset ℕ :=
  cells minOrder (BuddyAllocator.maxOrder orderCount) p.free + heldBy (2 ^ minOrder) p.slots + rounded minOrder p.whole +
    p.loose

end Placement

namespace BuddyAllocator

variable {minOrder orderCount slabBlocks : ℕ} {hasSlab : Bool}

structure Placed (h : BuddyAllocator minOrder orderCount slabBlocks hasSlab) (pushed : Multiset ℕ) (p : Placement) :
    Prop where
  shows : h.Shows p.free
  aligned : Aligned minOrder p.free
  blocks : h.slab.blocks = p.slots.map SlabSlot.block
  size : h.slab.blockSize = 2 ^ minOrder
  slots : ∀ s ∈ p.slots, s.Good (2 ^ minOrder) (maxOrder orderCount) h.mem
  noSlab : p.slots ≠ [] → hasSlab = true
  uneven : ∀ s ∈ p.slots, ∀ r ∈ s.live, ¬r.2.isPowerOfTwo
  whole : ∀ r ∈ p.whole, 0 < r.2 ∧ r.2 < 2 ^ 64 ∧ orderOf r.2 ≤ maxOrder orderCount ∧ 2 ^ (orderOf r.2 + minOrder) ∣ r.1
  all : p.all minOrder orderCount = pushed
  addressable : Addressable pushed

namespace Placed

variable {h h' : BuddyAllocator minOrder orderCount slabBlocks hasSlab} {pushed : Multiset ℕ} {p : Placement}

section Parts

theorem addressable_all (hp : h.Placed pushed p) : Addressable (p.all minOrder orderCount) := by
  rw [hp.all]
  exact hp.addressable

theorem addressable_free (hp : h.Placed pushed p) : Addressable (cells minOrder (maxOrder orderCount) p.free) :=
  hp.addressable_all.mono (by
    rw [Placement.all, add_assoc, add_assoc]
    exact le_add_right _ _)

theorem addressable_slots (hp : h.Placed pushed p) : Addressable (heldBy (2 ^ minOrder) p.slots) :=
  hp.addressable_all.mono (by
    rw [Placement.all, add_assoc, add_right_comm, add_comm _ (heldBy _ _)]
    exact le_add_right _ _)

theorem disjoint (hp : h.Placed pushed p) :
    Disjoint (cells minOrder (maxOrder orderCount) p.free) (heldBy (2 ^ minOrder) p.slots) ∧
    Disjoint (cells minOrder (maxOrder orderCount) p.free + heldBy (2 ^ minOrder) p.slots) (rounded minOrder p.whole) ∧
    Disjoint (cells minOrder (maxOrder orderCount) p.free + heldBy (2 ^ minOrder) p.slots + rounded minOrder p.whole)
      p.loose := by
  have hnodup := hp.addressable_all.nodup
  rw [Placement.all, nodup_add, nodup_add, nodup_add] at hnodup
  exact ⟨hnodup.1.1.2.2, hnodup.1.2.2, hnodup.2.2⟩

variable {x : ℕ}

theorem whole_slots (hp : h.Placed pushed p) (hx : x ∈ rounded minOrder p.whole) :
    x ∉ heldBy (2 ^ minOrder) p.slots :=
  fun hs => disjoint_left.1 hp.disjoint.2.1 (mem_add.2 (.inr hs)) hx

theorem loose_rest (hp : h.Placed pushed p) (hx : x ∈ p.loose) :
    x ∉ cells minOrder (maxOrder orderCount) p.free ∧ x ∉ heldBy (2 ^ minOrder) p.slots := by
  have hrest := fun hmem => disjoint_left.1 hp.disjoint.2.2 hmem hx
  rw [mem_add, mem_add] at hrest
  exact ⟨fun hfree => hrest (.inl (.inl hfree)), fun hslot => hrest (.inl (.inr hslot))⟩

variable (hsized : Sized minOrder orderCount hasSlab) (hp : h.Placed pushed p)
include hsized hp

theorem unit_dvd {s : SlabSlot} (hs : s ∈ p.slots) : 16 ∣ 2 ^ minOrder :=
  pow_dvd_pow 2 (hsized.record (hp.noSlab (ne_nil_of_mem hs)))

theorem slots_frame {mem' : Memory} (hsame : ∀ w ∈ heldBy (2 ^ minOrder) p.slots, mem' w = h.mem w) :
    ∀ s ∈ p.slots, s.Good (2 ^ minOrder) (maxOrder orderCount) mem' := by
  intro s hs
  refine (hp.slots s hs).frame (Nat.le_of_dvd (Nat.two_pow_pos _) (hp.unit_dvd hsized hs)) fun w hw => hsame w ?_
  exact mem_of_le (held_le_heldBy hs) (mem_add.2 (.inl hw))

end Parts

section Blocks

variable {a k : ℕ}

theorem alloc (hsized : Sized minOrder orderCount hasSlab) (hp : h.Placed pushed p) (hloose : p.loose = 0) (k : ℕ) :
    match take minOrder (maxOrder orderCount) p.free k with
    | none => h.alloc k = (none, h)
    | some (a, free') => ∃ h', h.alloc k = (some a, h') ∧ k ≤ maxOrder orderCount ∧ 2 ^ (k + minOrder) ∣ a ∧
        h'.Placed pushed { p with free := free', loose := run a (2 ^ (k + minOrder)) } := by
  have hspec := alloc_spec hp.shows hp.addressable_free k
  cases htake : take minOrder (maxOrder orderCount) p.free k with
  | none =>
    rw [htake] at hspec
    exact hspec
  | some q =>
    obtain ⟨a, free'⟩ := q
    rw [htake] at hspec
    obtain ⟨h', hrun, hshows, hframe⟩ := hspec
    obtain ⟨j, rest, -, hkj, hj, -⟩ := take_some htake
    obtain ⟨hd, haligned⟩ := aligned_take htake hp.aligned
    refine ⟨h', hrun, by omega, hd, ?_⟩
    exact {
      shows := hshows
      aligned := haligned
      blocks := by rw [hframe.slab, hp.blocks]
      size := by rw [hframe.slab, hp.size]
      slots := hp.slots_frame hsized fun w hw =>
        hframe.mem w fun hfree => disjoint_left.1 hp.disjoint.1 hfree hw
      noSlab := hp.noSlab
      uneven := hp.uneven
      whole := hp.whole
      all := by
        rw [← hp.all, Placement.all, Placement.all, hloose, cells_take htake]
        abel
      addressable := hp.addressable }

theorem keep {c : ℕ} (hp : h.Placed pushed p) (hloose : p.loose = run a (2 ^ (orderOf c + minOrder))) (hc : 0 < c)
    (hc64 : c < 2 ^ 64) (hk : orderOf c ≤ maxOrder orderCount) (hd : 2 ^ (orderOf c + minOrder) ∣ a) :
    h.Placed pushed { p with whole := (a, c) :: p.whole, loose := 0 } where
  shows := hp.shows
  aligned := hp.aligned
  blocks := hp.blocks
  size := hp.size
  slots := hp.slots
  noSlab := hp.noSlab
  uneven := hp.uneven
  whole r hr := by
    rcases mem_cons.1 hr with rfl | hr
    · exact ⟨hc, hc64, hk, hd⟩
    · exact hp.whole r hr
  all := by
    rw [← hp.all, Placement.all, Placement.all, hloose, rounded_cons]
    abel
  addressable := hp.addressable

theorem drop {r : ℕ × ℕ} (hp : h.Placed pushed p) (hloose : p.loose = 0) (hr : r ∈ p.whole) :
    h.Placed pushed { p with whole := p.whole.erase r, loose := run r.1 (2 ^ (orderOf r.2 + minOrder)) } where
  shows := hp.shows
  aligned := hp.aligned
  blocks := hp.blocks
  size := hp.size
  slots := hp.slots
  noSlab := hp.noSlab
  uneven := hp.uneven
  whole r' hr' := hp.whole r' (mem_of_mem_erase hr')
  all := by
    rw [← hp.all, Placement.all, Placement.all, hloose, rounded_perm (perm_cons_erase hr), rounded_cons]
    abel
  addressable := hp.addressable

theorem give (hsized : Sized minOrder orderCount hasSlab) (hp : h.Placed pushed p)
    (hloose : p.loose = run a (2 ^ (k + minOrder))) (hk : k ≤ maxOrder orderCount) (hd : 2 ^ (k + minOrder) ∣ a) :
    ∃ h', h.free a k = .ok h' ∧
      h'.Placed pushed { p with free := give minOrder (maxOrder orderCount - k) p.free a k, loose := 0 } := by
  have haddr : Addressable (cells minOrder (maxOrder orderCount) p.free + run a (2 ^ (k + minOrder))) := by
    have heq : p.all minOrder orderCount = cells minOrder (maxOrder orderCount) p.free + run a (2 ^ (k + minOrder)) +
        (heldBy (2 ^ minOrder) p.slots + rounded minOrder p.whole) := by
      rw [Placement.all, hloose]
      abel
    refine hp.addressable_all.mono ?_
    rw [heq]
    exact le_add_right _ _
  obtain ⟨h', hrun, hshows, hframe⟩ := free_spec hp.shows hp.aligned hk hd haddr
  refine ⟨h', hrun, ?_⟩
  exact {
    shows := hshows
    aligned := aligned_give hp.aligned hd
    blocks := by rw [hframe.slab, hp.blocks]
    size := by rw [hframe.slab, hp.size]
    slots := hp.slots_frame hsized fun w hw => hframe.mem w fun htouched => by
      rcases mem_add.1 htouched with hfree | hrun
      · exact disjoint_left.1 hp.disjoint.1 hfree hw
      · exact (hp.loose_rest (by rwa [hloose])).2 hw
    noSlab := hp.noSlab
    uneven := hp.uneven
    whole := hp.whole
    all := by
      rw [← hp.all, Placement.all, Placement.all, hloose, cells_give (by omega) hd]
      abel
    addressable := hp.addressable }

end Blocks

section Ranges

variable {a c k count : ℕ} {l1 l2 : List SlabSlot} {s : SlabSlot}

theorem replace (hsized : Sized minOrder orderCount hasSlab) (hp : h.Placed pushed p) (hslots : p.slots = l1 ++ s :: l2)
    {s' : SlabSlot} {mem' : Memory} {slab' : PageSlab slabBlocks} {loose' : Multiset ℕ}
    (hslab : slab' = { h.slab with blocks := (l1 ++ s' :: l2).map SlabSlot.block })
    (hgood : s'.Good (2 ^ minOrder) (maxOrder orderCount) mem') (huneven : ∀ r ∈ s'.live, ¬r.2.isPowerOfTwo)
    (hheld : s'.held (2 ^ minOrder) + loose' = s.held (2 ^ minOrder) + p.loose)
    (hmem : ∀ w, w ∉ s.held (2 ^ minOrder) → mem' w = h.mem w) :
    ({ h with slab := slab', mem := mem' } : BuddyAllocator minOrder orderCount slabBlocks hasSlab).Placed pushed
      { p with slots := l1 ++ s' :: l2, loose := loose' } := by
  have hs : s ∈ p.slots := by rw [hslots]; simp
  have hnodup := hp.addressable_slots.nodup
  rw [hslots, heldBy_split] at hnodup
  have hother : ∀ t, t ∈ l1 ++ l2 → t ∈ p.slots := by
    intro t ht
    rw [hslots]
    exact mem_middle.2 (.inr ht)
  exact {
    shows := hp.shows.congr rfl fun w hw => hmem w fun hheld =>
      disjoint_left.1 hp.disjoint.1 hw (mem_of_le (held_le_heldBy hs) hheld)
    aligned := hp.aligned
    blocks := by simp only [hslab]
    size := by simp only [hslab, hp.size]
    slots := by
      intro t ht
      rcases mem_middle.1 ht with rfl | ht
      · exact hgood
      · have hunit := Nat.le_of_dvd (Nat.two_pow_pos _) (hp.unit_dvd hsized hs)
        refine (hp.slots t (hother t ht)).frame hunit fun w hw => hmem w fun hin => ?_
        -- the slots share no cell
        refine disjoint_left.1 (Multiset.nodup_add.1 hnodup).2.2 hin (mem_of_le (held_le_heldBy ht) ?_)
        exact mem_add.2 (.inl hw)
    noSlab := fun _ => hp.noSlab (ne_nil_of_mem hs)
    uneven := by
      intro t ht
      rcases mem_middle.1 ht with rfl | ht
      · exact huneven
      · exact hp.uneven t (hother t ht)
    whole := hp.whole
    all := by
      have hsum : ∀ x y z : Multiset ℕ, x + (s'.held (2 ^ minOrder) + y) + z + loose' =
          x + (s.held (2 ^ minOrder) + y) + z + p.loose := by
        intro x y z
        calc x + (s'.held (2 ^ minOrder) + y) + z + loose'
            = s'.held (2 ^ minOrder) + loose' + (x + y + z) := by abel
          _ = x + (s.held (2 ^ minOrder) + y) + z + p.loose := by rw [hheld]; abel
      rw [← hp.all, Placement.all, Placement.all, hslots]
      simp only [heldBy_split]
      exact hsum _ _ _
    addressable := hp.addressable }

theorem slabAllocate (hsized : Sized minOrder orderCount true) {h : BuddyAllocator minOrder orderCount slabBlocks true}
    (hp : h.Placed pushed p) (hcount : 0 < count) (huneven : ¬count.isPowerOfTwo) :
    h.slabAllocate count = .ok (none, h) ∧ (∀ s ∈ p.slots, ∀ r ∈ s.ranges, r.2 < count) ∨
    ∃ l1 s l2 a s' h', p.slots = l1 ++ s :: l2 ∧ (∃ r ∈ s.ranges, count ≤ r.2) ∧ s'.live = (a, count) :: s.live ∧
      h.slabAllocate count = .ok (some a, h') ∧ h'.Placed pushed { p with slots := l1 ++ s' :: l2 } := by
  have h16 : 16 ∣ 2 ^ minOrder := pow_dvd_pow 2 (hsized.record rfl)
  have hspec := allocateFrom_spec hp.slots h16 (Nat.two_pow_pos _) hp.addressable_slots hcount
  rw [← hp.blocks, ← hp.size] at hspec
  rcases hspec with ⟨hrun, hall⟩ | ⟨l1, s, l2, a, s', mem', hslots, hserves, hrun⟩
  · refine .inl ⟨?_, hall⟩
    rw [BuddyAllocator.slabAllocate, PageSlab.allocate, hrun]
    rfl
  · have hs : s ∈ p.slots := by rw [hslots]; simp
    rw [hp.size] at hserves
    have hplaced := hp.replace hsized hslots rfl hserves.good (fun r hr => ?_) (by rw [hserves.held]) hserves.mem
    · refine .inr ⟨l1, s, l2, a, s', _, hslots, hserves.fits, hserves.live, ?_, hplaced⟩
      rw [BuddyAllocator.slabAllocate, PageSlab.allocate, hrun]
      rfl
    · rw [hserves.live] at hr
      rcases mem_cons.1 hr with rfl | hr
      · exact huneven
      · exact hp.uneven s hs r hr

theorem addBlock (hsized : Sized minOrder orderCount true) {h : BuddyAllocator minOrder orderCount slabBlocks true}
    (hp : h.Placed pushed p) (hloose : p.loose = run a (2 ^ (k + minOrder))) (hk : k ≤ maxOrder orderCount)
    (hd : 2 ^ (k + minOrder) ∣ a) :
    (∃ l1 gone l2 slab' mem', p.slots = l1 ++ gone ++ l2 ∧ (∀ s ∈ gone, s.ranges = [] ∧ s.live = []) ∧
      h.slab.addBlock a (2 ^ k) h.mem = (true, slab', mem') ∧
      ({ h with slab := slab', mem := mem' } : BuddyAllocator minOrder orderCount slabBlocks true).Placed pushed
        { p with slots := l1 ++ opened a k :: l2, loose := 0 }) ∨
    h.slab.addBlock a (2 ^ k) h.mem = (false, h.slab, h.mem) := by
  rcases @addBlock_spec _ _ _ a k _ _ _ hp.slots hp.blocks with ⟨l1, gone, l2, hslots, hgone, hrun⟩ | hrun
  swap
  · exact .inr hrun
  refine .inl ⟨l1, gone, l2, _, _, hslots, hgone, hrun, ?_⟩
  have hself : a ∈ p.loose := by
    rw [hloose]
    exact self_mem_run (Nat.two_pow_pos _)
  have hzero : a ≠ 0 := by
    rintro rfl
    refine hp.addressable_all.pos (mem_add.2 (.inr hself))
  have hunit : 2 ^ 4 ≤ 2 ^ (k + minOrder) :=
    Nat.pow_le_pow_right (by norm_num) (show 4 ≤ k + minOrder by have := hsized.record rfl; omega)
  have hwrite : ∀ w, w ∉ p.loose → FreeRange.write h.mem a ⟨0, 2 ^ k⟩ w = h.mem w := by
    intro w hw
    rw [hloose, mem_run] at hw
    rw [FreeRange.write, Function.update_of_ne (by omega), Function.update_of_ne (by omega)]
  have hempty : heldBy (2 ^ minOrder) gone = 0 := by
    refine sum_eq_zero fun x hx => ?_
    obtain ⟨s, hs, rfl⟩ := mem_map.1 hx
    rw [SlabSlot.held, (hgone s hs).1, (hgone s hs).2]
    rfl
  have hopened : (opened a k).held (2 ^ minOrder) = p.loose := by
    rw [hloose, Nat.pow_add, SlabSlot.held]
    exact (congrArg (· + ranged _ []) (ranged_cons _)).trans ((add_zero _).trans (add_zero _))
  have hcases : ∀ t, t ∈ l1 ++ opened a k :: l2 → t = opened a k ∨ t ∈ p.slots := by
    intro t ht
    rw [hslots]
    simp only [mem_append, mem_cons] at ht ⊢
    tauto
  exact {
    shows := hp.shows.congr rfl fun w hw => hwrite w fun hin => (hp.loose_rest hin).1 hw
    aligned := hp.aligned
    blocks := rfl
    size := hp.size
    slots := by
      intro t ht
      rcases hcases t ht with rfl | ht
      · have htop : maxOrder orderCount < 32 := by
          have := hsized.count32 rfl
          have := hsized.orders
          rw [maxOrder]
          omega
        exact opened_good hk htop (by rwa [← Nat.pow_add]) hzero
      · exact hp.slots_frame hsized (fun w hw => hwrite w fun hin => (hp.loose_rest hin).2 hw) t ht
    noSlab := fun _ => rfl
    uneven := by
      intro t ht
      rcases hcases t ht with rfl | ht
      · exact fun r hr => absurd hr not_mem_nil
      · exact hp.uneven t ht
    whole := hp.whole
    all := by
      rw [← hp.all, Placement.all, Placement.all, hslots]
      simp only [heldBy_append, heldBy_cons, hempty, hopened]
      abel
    addressable := hp.addressable }

theorem slabFree (hsized : Sized minOrder orderCount hasSlab) (hp : h.Placed pushed p)
    (hslots : p.slots = l1 ++ s :: l2) (hloose : p.loose = 0) (hr : (a, c) ∈ s.live) :
    s.live.erase (a, c) ≠ [] ∧ (∃ slab' mem', h.slab.free a c h.mem = (none, slab', mem') ∧
      ({ h with slab := slab', mem := mem' } : BuddyAllocator minOrder orderCount slabBlocks hasSlab).Placed pushed
        { p with slots := l1 ++ s.freed a c :: l2 }) ∨
    s.live.erase (a, c) = [] ∧ ∃ slab' mem' s' base k, h.slab.free a c h.mem = (some (base, 2 ^ k), slab', mem') ∧
      k ≤ maxOrder orderCount ∧ 2 ^ (k + minOrder) ∣ base ∧ s'.block.used = false ∧ s'.live = [] ∧
      ({ h with slab := slab', mem := mem' } : BuddyAllocator minOrder orderCount slabBlocks hasSlab).Placed pushed
        { p with slots := l1 ++ s' :: l2, loose := run base (2 ^ (k + minOrder)) } := by
  have hs : s ∈ p.slots := by rw [hslots]; simp
  have h16 := hp.unit_dvd hsized hs
  have hgood := hp.slots s hs
  have hused := hgood.used_of_live hr
  have hslots' := hp.slots
  have haddr := hp.addressable_slots
  have hblocks := hp.blocks
  rw [hslots] at hslots' haddr hblocks
  obtain ⟨hfreed, hheld, hrun⟩ := free_slot hslots' h16 (Nat.two_pow_pos _) haddr hblocks hp.size hr
  have hc := ((hgood.carves hused).proper (a, c) (mem_append_right _ hr)).1
  have hmem : ∀ w, w ∉ s.held (2 ^ minOrder) → s.released a c h.mem w = h.mem w := fun w hw =>
    SlabSlot.released_mem (fun hin => hw (mem_of_le (SlabSlot.live_le_held hr) hin)) hc
      (Nat.le_of_dvd (Nat.two_pow_pos _) h16)
  by_cases hnil : s.live.erase (a, c) = []
  · rw [if_pos hnil] at hrun
    obtain ⟨k, hk, htotal, hd⟩ := hgood.order hused
    have hcells := hgood.held_eq hused
    rw [htotal, ← Nat.pow_add] at hcells
    rw [htotal] at hrun
    refine .inr ⟨hnil, _, _, ⟨{ (s.freed a c).block with used := false }, [], []⟩, _, k, hrun, hk, by rwa [Nat.pow_add],
      rfl, rfl, ?_⟩
    refine hp.replace hsized hslots rfl ⟨fun hfalse => ?_, fun hfalse => ?_, fun _ => ⟨rfl, rfl⟩⟩ (fun r hr => ?_) ?_ hmem
    · cases hfalse
    · cases hfalse
    · exact absurd hr not_mem_nil
    · rw [hcells, hloose, add_zero]
      exact zero_add _
  · rw [if_neg hnil] at hrun
    refine .inl ⟨hnil, _, _, hrun, ?_⟩
    refine hp.replace hsized hslots rfl hfreed (fun r hr => hp.uneven s hs r (mem_of_mem_erase hr)) ?_ hmem
    rw [hheld]

end Ranges

end Placed

/-- The memory is where `p` says, no block is on its way and no slot is kept without need. -/
structure Settled (h : BuddyAllocator minOrder orderCount slabBlocks hasSlab) (pushed : Multiset ℕ) (live : List (ℕ × ℕ))
    (p : Placement) : Prop extends h.Placed pushed p where
  loose : p.loose = 0
  busy : ∀ s ∈ p.slots, s.block.used = true → s.live ≠ []
  live : live.Perm p.live

namespace Settled

variable {h : BuddyAllocator minOrder orderCount slabBlocks hasSlab} {pushed : Multiset ℕ} {live : List (ℕ × ℕ)}
  {p : Placement} {count a c : ℕ} {l1 l2 : List SlabSlot} {s : SlabSlot} {slab : PageSlab slabBlocks} {mem : Memory}

theorem live_slots (whole : List (ℕ × ℕ)) :
    (whole ++ (l1 ++ s :: l2).flatMap SlabSlot.live).Perm (s.live ++ (whole ++ (l1 ++ l2).flatMap SlabSlot.live)) := by
  rw [flatMap_append, flatMap_append, flatMap_cons]
  refine perm_iff_count.2 fun r => ?_
  simp only [count_append]
  omega

theorem served {h' : BuddyAllocator minOrder orderCount slabBlocks hasSlab} {s' : SlabSlot}
    (hplaced : h'.Placed pushed { p with slots := l1 ++ s' :: l2 }) (hloose : p.loose = 0)
    (hslots : p.slots = l1 ++ s :: l2) (hlive : live.Perm p.live) (hnew : s'.live = (a, count) :: s.live)
    (hbusy : ∀ t ∈ l1 ++ l2, t.block.used = true → t.live ≠ []) :
    h'.Settled pushed ((a, count) :: live) { p with slots := l1 ++ s' :: l2 } where
  toPlaced := hplaced
  loose := hloose
  busy := by
    intro t ht
    rcases mem_middle.1 ht with rfl | ht
    · intro _
      rw [hnew]
      exact cons_ne_nil _ _
    · exact hbusy t ht
  live := by
    rw [Placement.live, hslots] at hlive
    refine (((hlive.trans (live_slots _)).cons _).trans ?_).trans (live_slots p.whole).symm
    rw [hnew]
    rfl

theorem slabAllocate_opened (hsized : Sized minOrder orderCount true)
    {h : BuddyAllocator minOrder orderCount slabBlocks true} {l1 gone l2 : List SlabSlot} {k : ℕ}
    (hplaced : h.Placed pushed { p with slots := l1 ++ opened a k :: l2, loose := 0 })
    (hslots : p.slots = l1 ++ gone ++ l2) (hgone : ∀ s ∈ gone, s.ranges = [] ∧ s.live = [])
    (hfull : ∀ s ∈ p.slots, ∀ r ∈ s.ranges, r.2 < count) (hbusy : ∀ s ∈ p.slots, s.block.used = true → s.live ≠ [])
    (hlive : live.Perm p.live) (hcount : 0 < count) (huneven : ¬count.isPowerOfTwo) (hk : count ≤ 2 ^ k) :
    ∃ a' h' p', h.slabAllocate count = .ok (some a', h') ∧ h'.Settled pushed ((a', count) :: live) p' ∧
      p'.whole = p.whole ∧ p'.free = p.free := by
  have hold : ∀ t ∈ l1 ++ l2, t ∈ p.slots := by
    intro t ht
    rw [hslots]
    simp only [mem_append] at ht ⊢
    tauto
  have hlive' : live.Perm (p.whole ++ (l1 ++ opened a k :: l2).flatMap SlabSlot.live) := by
    have hnil : gone.flatMap SlabSlot.live = [] := flatMap_eq_nil_iff.2 fun s hs => (hgone s hs).2
    rw [Placement.live, hslots, flatMap_append, flatMap_append, hnil, append_nil] at hlive
    rw [flatMap_append, flatMap_cons]
    exact hlive
  rcases hplaced.slabAllocate hsized hcount huneven with ⟨-, hall⟩ | ⟨l3, s, l4, a', s', h', hslots', hfits, hnew, hrun, hp'⟩
  · exact absurd (hall (opened a k) (by simp) (a, 2 ^ k) mem_cons_self) (by simp only; omega)
  · -- only the opened block has a range that is long enough
    obtain ⟨r, hr, hfits⟩ := hfits
    have hsame : l1 ++ opened a k :: l2 = l3 ++ s :: l4 := hslots'
    have hperm : (s :: (l3 ++ l4)).Perm (opened a k :: (l1 ++ l2)) :=
      perm_middle.symm.trans ((List.Perm.of_eq hsame.symm).trans perm_middle)
    obtain rfl : s = opened a k := by
      rcases mem_cons.1 (hperm.subset mem_cons_self) with heq | hmem
      · exact heq
      · exact absurd (hfull s (hold s hmem) r hr) (by omega)
    refine ⟨a', h', _, hrun, served hp' rfl hslots' hlive' hnew fun t ht => hbusy t (hold t ?_), rfl, rfl⟩
    exact hperm.cons_inv.subset ht

theorem allocRange (hsized : Sized minOrder orderCount hasSlab) (hp : h.Settled pushed live p) (hcount : 0 < count)
    (hcount64 : count < 2 ^ 64) :
    h.allocRange count = .ok (none, h) ∨
    ∃ a h' p', h.allocRange count = .ok (some a, h') ∧ h'.Settled pushed ((a, count) :: live) p' ∧
      (p'.whole = (a, count) :: p.whole ∨ p'.whole = p.whole) ∧
      (NoBuddies minOrder (maxOrder orderCount) p.free → NoBuddies minOrder (maxOrder orderCount) p'.free) := by
  have halloc := hp.alloc hsized hp.loose (orderOf count)
  -- a block that is handed out whole
  have hkeep : ∀ {a : ℕ} {free' : Pools} {h' : BuddyAllocator minOrder orderCount slabBlocks hasSlab},
      orderOf count ≤ maxOrder orderCount → 2 ^ (orderOf count + minOrder) ∣ a →
      h'.Placed pushed { p with free := free', loose := run a (2 ^ (orderOf count + minOrder)) } →
      h'.Settled pushed ((a, count) :: live) { p with free := free', whole := (a, count) :: p.whole, loose := 0 } :=
    fun hk hd hplaced => {
      toPlaced := hplaced.keep rfl hcount hcount64 hk hd
      loose := rfl
      busy := hp.busy
      live := hp.live.cons _ }
  rw [BuddyAllocator.allocRange]
  cases hslab : (hasSlab && !decide count.isPowerOfTwo) with
  | false =>
    rw [if_neg (by decide)]
    cases htake : take minOrder (maxOrder orderCount) p.free (orderOf count) with
    | none =>
      rw [htake] at halloc
      exact .inl (by rw [halloc])
    | some q =>
      obtain ⟨a, free'⟩ := q
      rw [htake] at halloc
      obtain ⟨h', hrun, hk, hd, hplaced⟩ := halloc
      exact .inr ⟨a, h', _, by rw [hrun], hkeep hk hd hplaced, .inl rfl, noBuddies_take htake⟩
  | true =>
    rw [if_pos rfl]
    rw [Bool.and_eq_true, Bool.not_eq_true', decide_eq_false_iff_not] at hslab
    obtain ⟨rfl, huneven⟩ := hslab
    rcases hp.slabAllocate hsized hcount huneven with ⟨hrun, hfull⟩ | ⟨l1, s, l2, a, s', h', hslots, -, hnew, hrun, hplaced⟩
    swap
    · refine .inr ⟨a, h', _, ?_, served hplaced hp.loose hslots hp.live hnew fun t ht => hp.busy t ?_, .inr rfl, id⟩
      · rw [hrun]
        rfl
      · rw [hslots]
        exact mem_middle.2 (.inr ht)
    simp only [hrun]
    cases htake : take minOrder (maxOrder orderCount) p.free (orderOf count) with
    | none =>
      rw [htake] at halloc
      refine .inl ?_
      simp only [Bind.bind, Except.bind, halloc]
    | some q =>
      obtain ⟨a, free'⟩ := q
      rw [htake] at halloc
      obtain ⟨h2, halloc, hk, hd, hplaced⟩ := halloc
      have hlt : orderOf count < 32 := by
        have := hsized.count32 rfl
        have := hsized.orders
        rw [maxOrder] at hk
        omega
      have htotal : 2 ^ orderOf count % 2 ^ 32 = 2 ^ orderOf count :=
        Nat.mod_eq_of_lt (Nat.pow_lt_pow_right (by norm_num) hlt)
      rcases hplaced.addBlock hsized rfl hk hd with ⟨l1, gone, l2, slab', mem', hslots, hgone, hadd, hplaced'⟩ | hadd
      · obtain ⟨a', h', p', hrun', hsettled, hwhole, hfree⟩ :=
          @slabAllocate_opened _ _ _ _ _ { p with free := free' } _ _ hsized _
          _ _ _ _ hplaced' hslots hgone hfull hp.busy hp.live hcount huneven (le_two_pow_orderOf hcount64)
        refine .inr ⟨a', h', p', ?_, hsettled, .inr hwhole, fun hno => ?_⟩
        · simp only [Bind.bind, Except.bind, halloc, htotal, hadd]
          exact hrun'
        · rw [hfree]
          exact noBuddies_take htake hno
      · refine .inr ⟨a, h2, _, ?_, hkeep hk hd hplaced, .inl rfl, noBuddies_take htake⟩
        simp only [Bind.bind, Except.bind, halloc, htotal, hadd]

theorem owns_whole (hp : h.Settled pushed live p) (hwhole : (a, c) ∈ p.whole) : h.slab.owns a = false := by
  have hself : a ∈ rounded minOrder p.whole := by
    rw [rounded_perm (perm_cons_erase hwhole), rounded_cons]
    exact mem_add.2 (.inl (self_mem_run (Nat.two_pow_pos _)))
  rw [PageSlab.owns, findBlock_none hp.slots (Nat.two_pow_pos _) hp.addressable_slots hp.blocks hp.size
    (hp.whole_slots hself)]
  rfl

theorem owns_slot (hp : h.Settled pushed live p) (hslots : p.slots = l1 ++ s :: l2) (hr : (a, c) ∈ s.live) :
    0 < c ∧ (hasSlab && h.slab.owns a) = true := by
  have hs : s ∈ p.slots := by
    rw [hslots]
    exact mem_middle.2 (.inl rfl)
  have hgood := hp.slots s hs
  have hc := ((hgood.carves (hgood.used_of_live hr)).proper (a, c) (mem_append_right _ hr)).1
  have hslots' := hp.slots
  have haddr := hp.addressable_slots
  have hblocks := hp.blocks
  rw [hslots] at hslots' haddr hblocks
  rw [Bool.and_eq_true]
  refine ⟨hc, hp.noSlab (ne_nil_of_mem hs), ?_⟩
  rw [PageSlab.owns, findBlock_some hslots' (Nat.two_pow_pos _) haddr hblocks hp.size
    (mem_of_le (SlabSlot.live_le_held hr) (self_mem_run (Nat.mul_pos hc (Nat.two_pow_pos minOrder))))]
  rfl

theorem freeRange_kept (hc : 0 < c) (howns : (hasSlab && h.slab.owns a) = true)
    (hrun : h.slab.free a c h.mem = (none, slab, mem)) :
    h.freeRange a c = .ok { h with slab := slab, mem := mem } := by
  rw [BuddyAllocator.freeRange, if_neg (by omega), howns, hrun]
  exact if_pos rfl

theorem freeRange_given {base total : ℕ} (hc : 0 < c) (howns : (hasSlab && h.slab.owns a) = true)
    (hrun : h.slab.free a c h.mem = (some (base, total), slab, mem)) :
    h.freeRange a c = free { h with slab := slab, mem := mem } base (trailingZeros total) := by
  rw [BuddyAllocator.freeRange, if_neg (by omega), howns, hrun]
  exact if_pos rfl

section

variable (hsized : Sized minOrder orderCount hasSlab) (hp : h.Settled pushed live p)
include hsized hp

theorem freeRange_whole (hwhole : (a, c) ∈ p.whole) :
    ∃ h' p', h.freeRange a c = .ok h' ∧ h'.Settled pushed (live.erase (a, c)) p' ∧ p'.whole = p.whole.erase (a, c) ∧
      (NoBuddies minOrder (maxOrder orderCount) p.free → NoBuddies minOrder (maxOrder orderCount) p'.free) := by
  have hlive := hp.live.erase (a, c)
  obtain ⟨hc, -, hk, hd⟩ := hp.whole (a, c) hwhole
  obtain ⟨h', hrun, hplaced⟩ := (hp.drop hp.loose hwhole).give hsized rfl hk hd
  refine ⟨h', _, ?_, ⟨hplaced, rfl, hp.busy, ?_⟩, rfl, fun hno => noBuddies_give hno (Nat.add_sub_cancel' hk)⟩
  · rw [BuddyAllocator.freeRange, if_neg (by simp only at hc; omega), hp.owns_whole hwhole, Bool.and_false,
      if_neg (by decide)]
    exact hrun
  · rwa [Placement.live, erase_append_left _ hwhole] at hlive

theorem freeRange_slot (hslots : p.slots = l1 ++ s :: l2) (hr : (a, c) ∈ s.live) :
    ∃ h' p', h.freeRange a c = .ok h' ∧ h'.Settled pushed (live.erase (a, c)) p' ∧ p'.whole = p.whole ∧
      (NoBuddies minOrder (maxOrder orderCount) p.free → NoBuddies minOrder (maxOrder orderCount) p'.free) := by
  obtain ⟨hc, howns⟩ := hp.owns_slot hslots hr
  have hlive' : ∀ s' : SlabSlot, s'.live = s.live.erase (a, c) →
      (live.erase (a, c)).Perm (p.whole ++ (l1 ++ s' :: l2).flatMap SlabSlot.live) := by
    intro s' hs'
    have hlive := hp.live.erase (a, c)
    rw [Placement.live, hslots] at hlive
    refine hlive.trans (((live_slots p.whole).erase _).trans ?_)
    rw [erase_append_left _ hr, ← hs']
    exact (live_slots p.whole).symm
  have hbusy : ∀ t ∈ l1 ++ l2, t.block.used = true → t.live ≠ [] := by
    intro t ht
    refine hp.busy t ?_
    rw [hslots]
    exact mem_middle.2 (.inr ht)
  rcases hp.slabFree hsized hslots hp.loose hr with ⟨hnil, slab', mem', hrun, hplaced⟩ |
    ⟨hnil, slab', mem', s', base, k, hrun, hk, hd, hunused, hnone, hplaced⟩
  · refine ⟨_, _, freeRange_kept hc howns hrun, ⟨hplaced, hp.loose, fun t ht => ?_, hlive' (s.freed a c) rfl⟩, rfl, id⟩
    rcases mem_middle.1 ht with rfl | ht
    · exact fun _ => hnil
    · exact hbusy t ht
  · obtain ⟨h', hgive, hplaced'⟩ := hplaced.give hsized rfl hk hd
    refine ⟨h', _, ?_, ⟨hplaced', rfl, fun t ht hused => ?_, hlive' s' (by rw [hnone, hnil])⟩, rfl,
      fun hno => noBuddies_give hno (Nat.add_sub_cancel' hk)⟩
    · have hk64 : k < 64 := by
        have := hsized.fits
        have := hsized.orders
        rw [maxOrder] at hk
        omega
      rw [freeRange_given hc howns hrun, trailingZeros_two_pow hk64]
      exact hgive
    · rcases mem_middle.1 ht with rfl | ht
      · rw [hunused] at hused
        cases hused
      · exact hbusy t ht hused

theorem freeRange (hr : (a, c) ∈ live) :
    ∃ h' p', h.freeRange a c = .ok h' ∧ h'.Settled pushed (live.erase (a, c)) p' ∧
      ((a, c) ∈ p.whole ∧ p'.whole = p.whole.erase (a, c) ∨ (a, c) ∉ p.whole ∧ p'.whole = p.whole) ∧
      (NoBuddies minOrder (maxOrder orderCount) p.free → NoBuddies minOrder (maxOrder orderCount) p'.free) := by
  by_cases hwhole : (a, c) ∈ p.whole
  · obtain ⟨h', p', hrun, hsettled, heq, hno⟩ := hp.freeRange_whole hsized hwhole
    exact ⟨h', p', hrun, hsettled, .inl ⟨hwhole, heq⟩, hno⟩
  · have hslab := (mem_append.1 (hp.live.subset hr)).resolve_left hwhole
    obtain ⟨s, hs, hr'⟩ := mem_flatMap.1 hslab
    obtain ⟨l1, l2, hslots⟩ := append_of_mem hs
    obtain ⟨h', p', hrun, hsettled, heq, hno⟩ := hp.freeRange_slot hsized hslots hr'
    exact ⟨h', p', hrun, hsettled, .inr ⟨hwhole, heq⟩, hno⟩

end

end Settled

end BuddyAllocator

end MaramOS
