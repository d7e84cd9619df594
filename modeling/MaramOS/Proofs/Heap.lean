import MaramOS.Proofs.HeapRuns
import MaramOS.Spec.Heap
import Mathlib.Order.CompletePartialOrder

/-! The kernel heap over whole runs: pointers are aligned as their layouts ask, live
allocations share no bytes, and what an allocation takes out of the free memory comes
back with its deallocation. -/

namespace MaramOS

open BuddySystem DyadicBlock

namespace Placement

/-- The units that a live range took: a whole block, or the range itself. -/
def units (minOrder : ℕ) (p : Placement) (r : ℕ × ℕ) : Multiset ℕ :=
  if r ∈ p.whole then run r.1 (2 ^ (orderOf r.2 + minOrder)) else run r.1 (r.2 * 2 ^ minOrder)

def taken (minOrder : ℕ) (p : Placement) : Multiset ℕ :=
  ranged (2 ^ minOrder) (p.slots.flatMap SlabSlot.live) + rounded minOrder p.whole

end Placement

namespace BuddyAllocator

variable {minOrder orderCount slabBlocks : ℕ} {hasSlab : Bool}
  {h h' : BuddyAllocator minOrder orderCount slabBlocks hasSlab} {memory F F' : Multiset ℕ} {live live' : List (ℕ × ℕ)}
  {p p' : Placement} {r : ℕ × ℕ}

section FreeMemory

/-- The memory in the free lists and in the free ranges of the slab. -/
def IsFree (h : BuddyAllocator minOrder orderCount slabBlocks hasSlab) (F : Multiset ℕ) : Prop :=
  ∃ (free : Pools) (slots : List SlabSlot), h.Shows free ∧ h.slab.blocks = slots.map SlabSlot.block ∧
    (∀ s ∈ slots, s.Good (2 ^ minOrder) (maxOrder orderCount) h.mem) ∧
    F = cells minOrder (maxOrder orderCount) free + ranged (2 ^ minOrder) (slots.flatMap SlabSlot.ranges)

open Classical in
/-- The free memory of a state; a state whose lists are broken has none. -/
noncomputable def freeMemory (h : BuddyAllocator minOrder orderCount slabBlocks hasSlab) : Multiset ℕ :=
  if hF : ∃ F, h.IsFree F then hF.choose else 0

theorem ranges_unique {unit top : ℕ} {mem : Memory} {slots slots' : List SlabSlot}
    (hblocks : slots.map SlabSlot.block = slots'.map SlabSlot.block) (hgood : ∀ s ∈ slots, s.Good unit top mem)
    (hgood' : ∀ s ∈ slots', s.Good unit top mem) :
    slots.flatMap SlabSlot.ranges = slots'.flatMap SlabSlot.ranges := by
  induction slots generalizing slots' with
  | nil =>
    rw [List.map_nil, eq_comm, List.map_eq_nil_iff] at hblocks
    rw [hblocks]
  | cons s slots ih =>
    cases slots' with
    | nil => cases hblocks
    | cons s' slots' =>
      obtain ⟨hblock, hrest⟩ := List.cons.inj hblocks
      obtain ⟨hs, hslots⟩ := List.forall_mem_cons.1 hgood
      obtain ⟨hs', hslots'⟩ := List.forall_mem_cons.1 hgood'
      rw [List.flatMap_cons, List.flatMap_cons, ih hrest hslots hslots']
      congr 1
      cases hused : s.block.used with
      | false => rw [(hs.empty hused).1, (hs'.empty (hblock ▸ hused)).1]
      | true =>
        have hcarves := hs'.carves (hblock ▸ hused)
        rw [← hblock] at hcarves
        exact (hs.carves hused).unique hcarves

theorem IsFree.unique (hF : h.IsFree F) (hF' : h.IsFree F') : F = F' := by
  obtain ⟨free, slots, hshows, hblocks, hgood, rfl⟩ := hF
  obtain ⟨free', slots', hshows', hblocks', hgood', rfl⟩ := hF'
  rw [ranges_unique (hblocks.symm.trans hblocks') hgood hgood']
  congr 1
  refine Finset.sum_congr rfl fun k hk => ?_
  have hle : k ≤ maxOrder orderCount := Nat.lt_succ_iff.1 (Finset.mem_range.1 hk)
  rw [(hshows k hle).unique (hshows' k hle)]

theorem IsFree.eq (hF : h.IsFree F) : h.freeMemory = F := by
  have hex : ∃ F, h.IsFree F := ⟨F, hF⟩
  rw [freeMemory, dif_pos hex]
  exact hex.choose_spec.unique hF

end FreeMemory

section Units

theorem Settled.freeMemory_add (hp : h.Settled memory live p) : h.freeMemory + p.taken minOrder = memory := by
  have hF : h.IsFree (cells minOrder (maxOrder orderCount) p.free + ranged (2 ^ minOrder)
    (p.slots.flatMap SlabSlot.ranges)) :=
    ⟨p.free, p.slots, hp.shows, hp.blocks, hp.slots, rfl⟩
  rw [hF.eq]
  exact hp.accounts

theorem Settled.live_nodup (hp : h.Settled memory live p) : live.Nodup := by
  have hdisjoint := ranged_pairwise (Multiset.nodup_of_le hp.live_le_memory hp.addressable.nodup)
  refine hdisjoint.imp_of_mem fun {r r'} hr _ hrr' heq => ?_
  subst heq
  have hself := self_mem_run (a := r.1) (Nat.mul_pos (hp.proper hr).1 (Nat.two_pow_pos minOrder))
  exact Multiset.disjoint_left.1 hrr' hself hself

theorem taken_gain (hlive : live.Perm p.live) (hlive' : (r :: live).Perm p'.live) (hnodup : (r :: live).Nodup)
    (hwhole : p'.whole.Perm (r :: p.whole) ∨ p'.whole = p.whole) :
    p'.taken minOrder = p'.units minOrder r + p.taken minOrder := by
  rw [Placement.live] at hlive hlive'
  rw [Placement.taken, Placement.units]
  rcases hwhole with hwhole | hwhole
  · have hslots : (p'.slots.flatMap SlabSlot.live).Perm (p.slots.flatMap SlabSlot.live) := by
      have hall := (hwhole.append_right (p'.slots.flatMap SlabSlot.live)).symm.trans (hlive'.symm.trans (hlive.cons r))
      rw [List.cons_append] at hall
      exact (List.perm_append_left_iff _).1 hall.cons_inv
    rw [if_pos (hwhole.symm.subset List.mem_cons_self), ranged_perm hslots, rounded_perm hwhole, rounded_cons,
      Placement.taken]
    abel
  · have hslots : (p'.slots.flatMap SlabSlot.live).Perm (r :: p.slots.flatMap SlabSlot.live) := by
      rw [hwhole] at hlive'
      have hall := hlive'.symm.trans ((hlive.cons r).trans List.perm_middle.symm)
      exact (List.perm_append_left_iff _).1 hall
    have hnot : r ∉ p'.whole := by
      have hdisj := (List.nodup_append'.1 ((hlive'.nodup_iff).1 hnodup)).2.2
      exact fun hin => hdisj hin (hslots.symm.subset List.mem_cons_self)
    rw [if_neg hnot, ranged_perm hslots, ranged_cons, hwhole, Placement.taken, add_assoc]

theorem Settled.perm (hp : h.Settled memory live p) (hperm : live'.Perm live) : h.Settled memory live' p :=
  ⟨hp.toPlaced, hp.loose, hp.busy, hperm.trans hp.live⟩

theorem Settled.alloc_exact (hp : h.Settled memory live p) (hp' : h'.Settled memory (r :: live) p')
    (hwhole : p'.whole = r :: p.whole ∨ p'.whole = p.whole) :
    h.freeMemory = h'.freeMemory + p'.units minOrder r ∧ ∀ q ∈ live, p'.units minOrder q = p.units minOrder q := by
  have hnodup := hp'.live_nodup
  have hgain : p'.taken minOrder = p'.units minOrder r + p.taken minOrder :=
    taken_gain hp.live hp'.live hnodup (hwhole.imp_left List.Perm.of_eq)
  have hsum := hp.freeMemory_add.trans hp'.freeMemory_add.symm
  rw [hgain, ← add_assoc] at hsum
  refine ⟨add_right_cancel hsum, fun q hq => ?_⟩
  have hne : q ≠ r := fun heq => (List.nodup_cons.1 hnodup).1 (heq ▸ hq)
  have hmem : q ∈ p'.whole ↔ q ∈ p.whole := by
    rcases hwhole with hwhole | hwhole <;> rw [hwhole]
    rw [List.mem_cons, or_iff_right hne]
  simp only [Placement.units, hmem]

theorem Settled.free_exact (hp : h.Settled memory (r :: live) p) (hp' : h'.Settled memory live p')
    (hwhole : r ∈ p.whole ∧ p'.whole = p.whole.erase r ∨ r ∉ p.whole ∧ p'.whole = p.whole) :
    h'.freeMemory = h.freeMemory + p.units minOrder r ∧ ∀ q ∈ live, p'.units minOrder q = p.units minOrder q := by
  have hnodup := hp.live_nodup
  have hgain : p.taken minOrder = p.units minOrder r + p'.taken minOrder := by
    refine taken_gain hp'.live hp.live hnodup ?_
    rcases hwhole with ⟨hin, hwhole⟩ | ⟨-, hwhole⟩
    · rw [hwhole]
      exact .inl (List.perm_cons_erase hin)
    · exact .inr hwhole.symm
  have hsum := hp'.freeMemory_add.trans hp.freeMemory_add.symm
  rw [hgain, ← add_assoc] at hsum
  refine ⟨add_right_cancel hsum, fun q hq => ?_⟩
  have hne : q ≠ r := fun heq => (List.nodup_cons.1 hnodup).1 (heq ▸ hq)
  have hmem : q ∈ p'.whole ↔ q ∈ p.whole := by
    rcases hwhole with ⟨-, hwhole⟩ | ⟨-, hwhole⟩ <;> rw [hwhole]
    exact List.mem_erase_of_ne hne
  simp only [Placement.units, hmem]

end Units

end BuddyAllocator

namespace Heap

open BuddyAllocator

section Layouts

/-- What the size in units does for a layout. -/
structure Suits (layout : Layout) (count : ℕ) : Prop where
  pos : 0 < count
  bounded : count < 2 ^ 64
  size : layout.size ≤ count * 16
  aligned : ∀ ptr, 16 ∣ ptr → (count.isPowerOfTwo → count * 16 ∣ ptr) → layout.align ∣ ptr

theorem layoutToSize_suits (layout : Layout) : Suits layout (layoutToSize layout) := by
  obtain ⟨k, hk, halign⟩ := layout.power
  have hbound := layout.bounded
  have hunits : layout.size ≤ divCeil (max layout.size 16) 16 * 16 :=
    (le_max_left _ _).trans (le_divCeil_mul (by norm_num))
  have hpos : 0 < divCeil (max layout.size 16) 16 := by
    rw [divCeil]
    omega
  have hlt : divCeil (max layout.size 16) 16 ≤ 2 ^ 60 := by
    rw [divCeil]
    omega
  rw [layoutToSize, halign]
  split_ifs with hsmall
  · -- the alignment is at most a unit
    have hk4 : k ≤ 4 := by
      by_contra hgt
      have : 2 ^ 5 ≤ 2 ^ k := Nat.pow_le_pow_right (by norm_num) (by omega)
      rw [divCeil] at hsmall
      omega
    refine ⟨hpos, by omega, hunits, fun ptr hptr _ => ?_⟩
    rw [halign]
    exact (pow_dvd_pow 2 hk4 : 2 ^ k ∣ 2 ^ 4).trans hptr
  · -- the number of units is a power of two that is not below the alignment
    have hk4 : 4 ≤ k := by
      by_contra hlt
      have hle : 2 ^ k ≤ 2 ^ 4 := Nat.pow_le_pow_right (by norm_num) (by omega)
      have := Nat.two_pow_pos k
      rw [divCeil] at hsmall
      omega
    obtain ⟨j, rfl⟩ := Nat.exists_eq_add_of_le hk4
    have hdiv : divCeil (2 ^ (4 + j)) 16 = 2 ^ j := by
      rw [divCeil, Nat.pow_add]
      omega
    rw [hdiv]
    have hj : 2 ^ j ≤ 2 ^ 60 := Nat.pow_le_pow_right (by norm_num) (by omega)
    have hclog : Nat.clog 2 (max (divCeil (max layout.size 16) 16) (2 ^ j)) ≤ 60 := Nat.clog_le_of_le_pow (max_le hlt hj)
    have hpow : nextPowerOfTwo (max (divCeil (max layout.size 16) 16) (2 ^ j)) =
        2 ^ Nat.clog 2 (max (divCeil (max layout.size 16) 16) (2 ^ j)) :=
      Nat.mod_eq_of_lt (Nat.pow_lt_pow_right (by norm_num) (by omega))
    have hle := Nat.le_pow_clog (b := 2) (by norm_num) (max (divCeil (max layout.size 16) 16) (2 ^ j))
    rw [hpow]
    refine ⟨Nat.two_pow_pos _, Nat.pow_lt_pow_right (by norm_num) (by omega), ?_, fun ptr _ hptr => ?_⟩
    · exact hunits.trans (Nat.mul_le_mul_right _ ((le_max_left _ _).trans hle))
    · rw [halign]
      have hjle : j ≤ Nat.clog 2 (max (divCeil (max layout.size 16) 16) (2 ^ j)) :=
        (Nat.pow_le_pow_iff_right (by norm_num)).1 ((le_max_right _ _).trans hle)
      refine Dvd.dvd.trans ?_ (hptr ⟨_, rfl⟩)
      rw [Nat.pow_add, Nat.mul_comm]
      exact Nat.mul_dvd_mul_right (pow_dvd_pow 2 hjle) _

end Layouts

/-- A live allocation, with the units that it took out of the free memory. -/
structure Allocation where
  ptr : ℕ
  layout : Layout
  units : Multiset ℕ

namespace Allocation

def range (a : Allocation) : ℕ × ℕ := (a.ptr, layoutToSize a.layout)

/-- The bytes that the holder may use. -/
def bytes (a : Allocation) : Set ℕ := Set.Ico a.ptr (a.ptr + a.layout.size)

end Allocation

/-- The states of the heap with the allocations that are live in them. The holder of an allocation may write to it. -/
inductive Run (h0 : Buddy) : Buddy → List Allocation → Prop
  | start : Run h0 h0 []
  | alloc {h h' live layout ptr} : Run h0 h live → alloc h layout = .ok (ptr, h') → ptr ≠ 0 →
      Run h0 h' (⟨ptr, layout, h.freeMemory - h'.freeMemory⟩ :: live)
  | null {h h' live layout} : Run h0 h live → alloc h layout = .ok (0, h') → Run h0 h' live
  | dealloc {h h' l1 a l2} : Run h0 h (l1 ++ a :: l2) → dealloc h a.ptr a.layout = .ok h' → Run h0 h' (l1 ++ l2)
  | write {h live a mem'} : Run h0 h live → a ∈ live → (∀ w, w ∉ a.bytes → mem' w = h.mem w) →
      Run h0 { h with mem := mem' } live

structure Honours (base : ℕ) (h : Buddy) (live : List Allocation) : Prop where
  aligned : ∀ a ∈ live, a.layout.align ∣ a.ptr
  inside : ∀ a ∈ live, a.bytes ⊆ Set.Ico base (base + HEAP_SIZE)
  disjoint : live.Pairwise fun a b => Disjoint a.bytes b.bytes
  covered : ∀ a ∈ live, ∀ x ∈ a.bytes, x ∈ a.units
  alloc_returns : ∀ layout, ∃ ptr h', alloc h layout = .ok (ptr, h') ∧ h'.freeMemory ≤ h.freeMemory
  dealloc_exact : ∀ a ∈ live, ∃ h', dealloc h a.ptr a.layout = .ok h' ∧ h'.freeMemory = h.freeMemory + a.units

section Runs

variable {h h' h0 : Buddy} {memory : Multiset ℕ} {live : List Allocation} {a : Allocation} {p p₀ : Placement} {base ptr : ℕ}
  {layout : Layout}

theorem sized : Sized 4 17 true := ⟨by norm_num, by norm_num, by norm_num, fun _ => by norm_num, fun _ => by norm_num⟩

/-- The memory is settled, and every allocation knows its units. -/
structure Kept (memory : Multiset ℕ) (h : Buddy) (live : List Allocation) (p : Placement) : Prop where
  settled : h.Settled memory (live.map Allocation.range) p
  units : ∀ a ∈ live, a.units = p.units 4 a.range

theorem Kept.alloc (hk : Kept memory h live p) (layout : Layout) :
    alloc h layout = .ok (0, h) ∨
    ∃ ptr h' p', alloc h layout = .ok (ptr, h') ∧ ptr ≠ 0 ∧ h'.freeMemory ≤ h.freeMemory ∧
      Kept memory h' (⟨ptr, layout, h.freeMemory - h'.freeMemory⟩ :: live) p' := by
  have hsuits := layoutToSize_suits layout
  rw [Heap.alloc]
  rcases hk.settled.allocRange sized hsuits.pos hsuits.bounded with hnone | ⟨ptr, h', p', hsome, hp', hwhole, -⟩
  · rw [hnone]
    exact .inl rfl
  · obtain ⟨hfree, hsame⟩ := hk.settled.alloc_exact hp' hwhole
    have hsub : h.freeMemory - h'.freeMemory = p'.units 4 (ptr, layoutToSize layout) := by
      rw [hfree, add_tsub_cancel_left]
    refine .inr ⟨ptr, h', p', by rw [hsome]; rfl, (hp'.safe sized).nonzero _ List.mem_cons_self, ?_, hp', ?_⟩
    · rw [hfree]
      exact Multiset.le_add_right _ _
    · refine List.forall_mem_cons.2 ⟨hsub, fun a ha => ?_⟩
      rw [hk.units a ha, hsame _ (List.mem_map_of_mem ha)]

theorem Kept.dealloc {l1 l2 : List Allocation} (hk : Kept memory h (l1 ++ a :: l2) p) :
    ∃ h' p', dealloc h a.ptr a.layout = .ok h' ∧ h'.freeMemory = h.freeMemory + a.units ∧ Kept memory h' (l1 ++ l2) p' := by
  have hperm : (a.range :: (l1 ++ l2).map Allocation.range).Perm ((l1 ++ a :: l2).map Allocation.range) := by
    rw [← List.map_cons]
    exact List.perm_middle.symm.map _
  have hp := hk.settled.perm hperm
  obtain ⟨h', p', hrun, hp', hwhole, -⟩ := hp.freeRange sized List.mem_cons_self
  rw [show (a.ptr, layoutToSize a.layout) = a.range from rfl, List.erase_cons_head] at hp'
  obtain ⟨hfree, hsame⟩ := hp.free_exact hp' hwhole
  have hmem : ∀ b ∈ l1 ++ l2, b ∈ l1 ++ a :: l2 := fun b hb => List.perm_middle.symm.subset (List.mem_cons_of_mem a hb)
  refine ⟨h', p', hrun, ?_, hp', fun b hb => ?_⟩
  · rw [hfree, hk.units a (by simp)]
  · rw [hk.units b (hmem b hb), hsame _ (List.mem_map_of_mem hb)]

theorem Run.kept (hrun : Run h0 h live) (h0kept : Kept memory h0 [] p₀) : ∃ p, Kept memory h live p := by
  induction hrun with
  | start => exact ⟨p₀, h0kept⟩
  | @alloc h h' live layout ptr _ hstep hnonzero ih =>
    obtain ⟨p, hk⟩ := ih
    rcases hk.alloc layout with hnull | ⟨ptr', h'', p', hsome, -, -, hk'⟩
    · rw [hstep] at hnull
      cases hnull
      exact absurd rfl hnonzero
    · rw [hstep] at hsome
      cases hsome
      exact ⟨p', hk'⟩
  | @null h h' live layout _ hstep ih =>
    obtain ⟨p, hk⟩ := ih
    rcases hk.alloc layout with hnull | ⟨ptr', h'', p', hsome, hnonzero, -⟩
    · rw [hstep] at hnull
      cases hnull
      exact ⟨p, hk⟩
    · rw [hstep] at hsome
      cases hsome
      exact absurd rfl hnonzero
  | dealloc _ hstep ih =>
    obtain ⟨p, hk⟩ := ih
    obtain ⟨h'', p', hok, -, hk'⟩ := hk.dealloc
    rw [hstep] at hok
    cases hok
    exact ⟨p', hk'⟩
  | @write h live a mem' _ ha hmem ih =>
    obtain ⟨p, hk⟩ := ih
    refine ⟨p, hk.settled.write sized (List.mem_map_of_mem ha) fun w hw => hmem w fun hin => hw ?_, hk.units⟩
    have hsize := (layoutToSize_suits a.layout).size
    exact mem_run.2 ⟨hin.1, hin.2.trans_le (Nat.add_le_add_left hsize _)⟩

theorem Kept.honours (hk : Kept memory h live p) (hmemory : ∀ x ∈ memory, base ≤ x ∧ x < base + HEAP_SIZE) :
    Honours base h live := by
  have hsafe := hk.settled.safe sized
  have hbytes : ∀ a : Allocation, ∀ x ∈ a.bytes, x ∈ run a.range.1 (a.range.2 * 2 ^ 4) := fun a x hx =>
    mem_run.2 ⟨hx.1, hx.2.trans_le (Nat.add_le_add_left (layoutToSize_suits a.layout).size _)⟩
  refine ⟨fun a ha => ?_, fun a ha x hx => ?_, ?_, fun a ha x hx => ?_, fun layout => ?_, fun a ha => ?_⟩
  · obtain ⟨hunit, hpower⟩ := hsafe.aligned _ (List.mem_map_of_mem ha)
    exact (layoutToSize_suits a.layout).aligned a.ptr hunit hpower
  · exact hmemory x (hsafe.inside _ (List.mem_map_of_mem ha) x (hbytes a x hx))
  · refine (List.pairwise_map.1 hsafe.disjoint).imp fun {a b} hab => Set.disjoint_left.2 fun x hx hx' => ?_
    exact Multiset.disjoint_left.1 hab (hbytes a x hx) (hbytes b x hx')
  · rw [hk.units a ha, Placement.units]
    split_ifs with hwhole
    · obtain ⟨-, hlt, -⟩ := hk.settled.whole _ hwhole
      have hx' := mem_run.1 (hbytes a x hx)
      have hle : a.range.2 * 2 ^ 4 ≤ 2 ^ (orderOf a.range.2 + 4) := by
        rw [Nat.pow_add]
        exact Nat.mul_le_mul_right _ (le_two_pow_orderOf hlt)
      exact mem_run.2 ⟨hx'.1, hx'.2.trans_le (Nat.add_le_add_left hle _)⟩
    · exact hbytes a x hx
  · rcases hk.alloc layout with hnull | ⟨ptr, h', p', hsome, -, hle, -⟩
    · exact ⟨0, h, hnull, le_rfl⟩
    · exact ⟨ptr, h', hsome, hle⟩
  · obtain ⟨l1, l2, rfl⟩ := List.append_of_mem ha
    obtain ⟨h', p', hrun, hfree, -⟩ := hk.dealloc
    exact ⟨h', hrun, hfree⟩

theorem init_eq (base : ℕ) (mem : Memory) : init base mem = started 4 17 64 true mem [(base, 16)] := by
  have hsize : divCeil HEAP_SIZE PAGE_SIZE * PAGE_SIZE = 2 ^ 20 := by decide
  have horder : trailingZeros (nextPowerOfTwo (2 ^ 20)) - 4 = 16 := by
    rw [nextPowerOfTwo, Nat.clog_pow 2 20 (by norm_num), Nat.mod_eq_of_lt (by norm_num), trailingZeros_two_pow (by norm_num)]
  simp only [init, hsize, horder]
  rfl

/-- The heap starts out settled. A heap at address zero has no memory, since zero ends the free lists. -/
theorem init_kept (hbase : 2 ^ 20 ∣ base) (hend : base + 2 ^ 20 < 2 ^ 64) (mem : Memory) :
    ∃ memory p, Kept memory (init base mem) [] p ∧ ∀ x ∈ memory, base ≤ x ∧ x < base + HEAP_SIZE := by
  rw [init_eq]
  by_cases hzero : base = 0
  · have hstart : started 4 17 64 true mem [(base, 16)] = started 4 17 64 true (Function.update mem base 0) [] := by
      have hheads : Function.update (fun _ : ℕ => 0) 16 base = fun _ => 0 := by
        rw [hzero]
        exact Function.update_eq_self 16 _
      simp only [started, push, new, hheads]
    have hblocks : Blocks 4 17 [] := ⟨by simp, by simp, by simp, .nil⟩
    have hsettled := @started_settled 4 17 64 true [] hblocks (by simp) (Function.update mem base 0)
    rw [hstart]
    exact ⟨_, _, ⟨hsettled, fun a ha => absurd ha List.not_mem_nil⟩, fun x hx => absurd hx (Multiset.notMem_zero x)⟩
  · have hblocks : Blocks 4 17 [(base, 16)] :=
      ⟨by simp [maxOrder], by simpa [blockSize] using hbase, by simpa using hzero, List.pairwise_singleton _ _⟩
    have hsettled := @started_settled 4 17 64 true [(base, 16)] hblocks (by simpa [blockSize] using hend) mem
    refine ⟨_, _, ⟨hsettled, fun a ha => absurd ha List.not_mem_nil⟩, fun x hx => ?_⟩
    obtain ⟨b, hb, hx⟩ := mem_pushed.1 hx
    have hsize : blockSize 4 16 = HEAP_SIZE := by decide
    rw [List.mem_singleton.1 hb, hsize] at hx
    exact mem_run.1 hx

/-- The heap honours every layout, over all runs, unless it ends at the end of the address space. -/
theorem heap_honours (hbase : 2 ^ 20 ∣ base) (hend : base + 2 ^ 20 < 2 ^ 64) (mem : Memory)
    (hrun : Run (init base mem) h live) : Honours base h live := by
  obtain ⟨memory, p₀, hk, hmemory⟩ := init_kept hbase hend mem
  obtain ⟨p, hk'⟩ := hrun.kept hk
  exact hk'.honours hmemory

theorem Run.alloc_of_addr {live : List Allocation} (hrun : Run h0 h live) (hnonzero : ptr ≠ 0)
    (hstep : (h.allocRange (layoutToSize layout)).toOption.map Prod.fst = some (some ptr)) :
    Run h0 (h.afterAlloc (layoutToSize layout))
      (⟨ptr, layout, h.freeMemory - (h.afterAlloc (layoutToSize layout)).freeMemory⟩ :: live) := by
  refine hrun.alloc ?_ hnonzero
  rw [Heap.alloc, allocRange_afterAlloc hstep]
  rfl

def cacheLine : Layout := ⟨24, 64, ⟨6, by norm_num, rfl⟩, by norm_num⟩

theorem heap_honours_cacheLine :
    ∃ h a, Run (init (2 ^ 20) fun _ => 0) h [a] ∧ a.layout.align = 64 ∧ Honours (2 ^ 20) h [a] := by
  have hstep : ((init (2 ^ 20) fun _ => 0).allocRange (layoutToSize cacheLine)).toOption.map Prod.fst =
    some (some (2 ^ 20)) := by
    rw [init_eq]
    decide +kernel
  have hrun := Run.start.alloc_of_addr (by norm_num) hstep
  exact ⟨_, _, hrun, rfl, heap_honours (by norm_num) (by norm_num) (fun _ => 0) hrun⟩

end Runs

section Topmost

def ofSize (size : ℕ) (h : size < 2 ^ 64) : Layout := ⟨size, 1, ⟨0, by norm_num, rfl⟩, h⟩

def slabLayout : Layout := ofSize 524304 (by norm_num)

def wholeLayout : Layout := ofSize (2 ^ 20) (by norm_num)

def smallLayout : Layout := ofSize 48 (by norm_num)

/-- The heap at the end of the address space, and its states after the first three calls. -/
def topmost : Buddy := started 4 17 64 true (fun _ => 0) [(2 ^ 64 - 2 ^ 20, 16)]

def topmostSlab : Buddy := topmost.afterAlloc (layoutToSize slabLayout)

def topmostFreed : Buddy := topmostSlab.afterFree (2 ^ 64 - 2 ^ 20) (layoutToSize slabLayout)

def topmostWhole : Buddy := topmostFreed.afterAlloc (layoutToSize wholeLayout)

/-- The first allocation turns the whole heap into a slab block, whose end wraps to zero. Its deallocation goes to the
free lists, while the slab keeps the block, and later two live allocations overlap. -/
theorem topmost_heap_overlap :
    2 ^ 20 ∣ 2 ^ 64 - 2 ^ 20 ∧ ∃ h a b, Run (init (2 ^ 64 - 2 ^ 20) fun _ => 0) h [a, b] ∧ ¬Disjoint a.bytes b.bytes := by
  have hstep₁ : (topmost.allocRange (layoutToSize slabLayout)).toOption.map Prod.fst = some (some (2 ^ 64 - 2 ^ 20)) := by
    decide +kernel
  have hstep₂ : (topmostSlab.freeRange (2 ^ 64 - 2 ^ 20) (layoutToSize slabLayout)).toOption.isSome = true := by
    decide +kernel
  have hstep₃ : (topmostFreed.allocRange (layoutToSize wholeLayout)).toOption.map Prod.fst =
    some (some (2 ^ 64 - 2 ^ 20)) := by
    decide +kernel
  have hstep₄ : (topmostWhole.allocRange (layoutToSize smallLayout)).toOption.map Prod.fst =
    some (some (2 ^ 64 - 524272)) := by
    decide +kernel
  have hfreed : Run topmost topmostFreed ([] ++ []) :=
    Run.dealloc (Run.start.alloc_of_addr (by norm_num) hstep₁) (freeRange_afterFree hstep₂)
  have hrun := (hfreed.alloc_of_addr (by norm_num) hstep₃).alloc_of_addr (by norm_num) hstep₄
  rw [init_eq]
  refine ⟨by norm_num, _, _, _, hrun, fun hdisj => ?_⟩
  have hsmall : 2 ^ 64 - 524272 ∈ Set.Ico (2 ^ 64 - 524272) (2 ^ 64 - 524272 + 48) := by norm_num
  have hwhole : 2 ^ 64 - 524272 ∈ Set.Ico (2 ^ 64 - 2 ^ 20) (2 ^ 64 - 2 ^ 20 + 2 ^ 20) := by norm_num
  exact Set.disjoint_left.1 hdisj hsmall hwhole

end Topmost

end Heap

end MaramOS
