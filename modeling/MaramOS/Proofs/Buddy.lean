import MaramOS.Lib.BuddySystem
import MaramOS.Lib.Threaded
import MaramOS.Spec.Buddy

/-! The lists of the buddy allocator hold the pools of a buddy system: `alloc`
takes a block from the pools and `free` gives one back. Only words inside free
blocks are written. -/

namespace MaramOS

open List BuddySystem DyadicBlock
open Function (update update_of_ne update_self)
open Multiset (mem_add)

namespace BuddyAllocator

variable {minOrder orderCount slabBlocks : ℕ} {hasSlab : Bool}
  {h : BuddyAllocator minOrder orderCount slabBlocks hasSlab} {free : Pools}

/-- The list of every order is threaded through the blocks of its pool. -/
def Shows (h : BuddyAllocator minOrder orderCount slabBlocks hasSlab) (free : Pools) : Prop :=
  ∀ k ≤ maxOrder orderCount, Thread h.mem 0 (h.heads k) (free k)

/-- The slab is untouched, and so is every word outside these cells. -/
structure Frame (touched : Multiset ℕ) (h h' : BuddyAllocator minOrder orderCount slabBlocks hasSlab) : Prop where
  slab : h'.slab = h.slab
  mem : ∀ w, w ∉ touched → h'.mem w = h.mem w

theorem Frame.refl (touched : Multiset ℕ) : Frame touched h h := ⟨rfl, fun _ _ => rfl⟩

theorem Frame.trans {touched touched' : Multiset ℕ} {h' h'' : BuddyAllocator minOrder orderCount slabBlocks hasSlab}
    (h1 : Frame touched h h') (h2 : Frame touched' h' h'') (hsub : ∀ x ∈ touched', x ∈ touched) :
    Frame touched h h'' :=
  ⟨h2.slab.trans h1.slab, fun w hw => (h2.mem w fun hw' => hw (hsub w hw')).trans (h1.mem w hw)⟩

theorem Frame.mono {touched touched' : Multiset ℕ} {h' : BuddyAllocator minOrder orderCount slabBlocks hasSlab}
    (h1 : Frame touched h h') (hsub : ∀ x ∈ touched, x ∈ touched') : Frame touched' h h' :=
  ⟨h1.slab, fun w hw => h1.mem w fun hw' => hw (hsub w hw')⟩

section Lists

theorem self_mem_run {a n : ℕ} (hn : 0 < n) : a ∈ run a n := mem_run.2 ⟨le_rfl, by omega⟩

theorem mem_of_pool {k a top : ℕ} (hk : k ≤ top) (ha : a ∈ free k) : a ∈ cells minOrder top free :=
  run_le_cells hk ha a (self_mem_run (Nat.two_pow_pos _))

theorem Shows.congr (hs : h.Shows free) {h' : BuddyAllocator minOrder orderCount slabBlocks hasSlab}
    (hheads : h'.heads = h.heads) (hmem : ∀ w ∈ cells minOrder (maxOrder orderCount) free, h'.mem w = h.mem w) :
    h'.Shows free := by
  intro k hk
  rw [hheads]
  exact (hs k hk).congr fun a ha => hmem a (mem_of_pool hk ha)

theorem Shows.push (hs : h.Shows free) {a k : ℕ} (ha : a ≠ 0) (hnew : a ∉ cells minOrder (maxOrder orderCount) free) :
    (h.push a k).Shows (update free k (a :: free k)) := by
  intro j hj
  have hout : a ∉ free j := fun hmem => hnew (mem_of_pool hj hmem)
  by_cases hjk : j = k
  · subst hjk
    simp only [BuddyAllocator.push, update_self]
    exact (hs j hj).push ha hout
  · simp only [BuddyAllocator.push, update_of_ne hjk]
    refine (hs j hj).congr fun b hb => update_of_ne ?_ _ _
    rintro rfl
    exact hout hb

theorem frame_push (a k : ℕ) : Frame (run a 1) h (h.push a k) := by
  refine ⟨rfl, fun w hw => update_of_ne ?_ _ _⟩
  rintro rfl
  exact hw (self_mem_run Nat.one_pos)

theorem removeLoop_walk {addr k : ℕ} (l2 : List ℕ) : ∀ (l1 : List ℕ) (current fuel : ℕ),
    Thread h.mem 0 current l2 → l2.length < fuel →
    (addr ∉ l2 → removeLoop addr k fuel l1.getLast? current h = .ok (false, h)) ∧
    (addr ∈ l2 → ∃ l3 l4, l2 = l3 ++ addr :: l4 ∧ addr ∉ l3 ∧
      removeLoop addr k fuel l1.getLast? current h = .ok (true, h.setLink k (l1 ++ l3).getLast? (h.mem addr))) := by
  induction l2 with
  | nil =>
    intro l1 current fuel hcur hfuel
    obtain ⟨fuel, rfl⟩ := Nat.exists_eq_succ_of_ne_zero (by omega : fuel ≠ 0)
    cases hcur
    exact ⟨fun _ => rfl, fun h => absurd h not_mem_nil⟩
  | cons b l ih =>
    intro l1 current fuel hcur hfuel
    rw [length_cons] at hfuel
    obtain ⟨fuel, rfl⟩ := Nat.exists_eq_succ_of_ne_zero (by omega : fuel ≠ 0)
    cases hcur with
    | cons hb hrest =>
      by_cases hfound : b = addr
      · subst hfound
        refine ⟨fun hout => absurd mem_cons_self hout, fun _ => ⟨[], l, rfl, not_mem_nil, ?_⟩⟩
        rw [removeLoop, if_neg hb, if_pos rfl, append_nil]
      · have hnext := ih (l1 ++ [b]) (h.mem b) fuel hrest (by omega)
        rw [List.getLast?_concat] at hnext
        have hstep : removeLoop addr k (fuel + 1) l1.getLast? b h = removeLoop addr k fuel (some b) (h.mem b) h := by
          rw [removeLoop, if_neg hb, if_neg hfound]
        rw [hstep]
        refine ⟨fun hout => hnext.1 fun hmem => hout (mem_cons_of_mem _ hmem), fun hmem => ?_⟩
        obtain ⟨l3, l4, rfl, hnot, hrun⟩ := hnext.2 ((mem_cons.1 hmem).resolve_left (Ne.symm hfound))
        refine ⟨b :: l3, l4, rfl, ?_, by rw [hrun, append_assoc, singleton_append]⟩
        rw [mem_cons, not_or]
        exact ⟨Ne.symm hfound, hnot⟩

theorem relink_eq_setLink (k : ℕ) (prev : Option ℕ) (target : ℕ) :
    relink prev target (h.heads k) h.mem = ((h.setLink k prev target).heads k, (h.setLink k prev target).mem) := by
  cases prev with
  | none => simp [relink, setLink]
  | some a => rfl

theorem setLink_heads (h : BuddyAllocator minOrder orderCount slabBlocks hasSlab) {k j : ℕ} (prev : Option ℕ)
    (target : ℕ) (hj : j ≠ k) : (h.setLink k prev target).heads j = h.heads j := by
  cases prev with
  | none => exact update_of_ne hj _ _
  | some a => rfl

theorem setLink_mem (h : BuddyAllocator minOrder orderCount slabBlocks hasSlab) (k target : ℕ) {prev : Option ℕ} {w : ℕ}
    (hw : prev ≠ some w) : (h.setLink k prev target).mem w = h.mem w := by
  cases prev with
  | none => rfl
  | some a => exact update_of_ne (fun hwa => hw (by rw [hwa])) _ _

theorem setLink_slab (h : BuddyAllocator minOrder orderCount slabBlocks hasSlab) (k : ℕ) (prev : Option ℕ) (target : ℕ) :
    (h.setLink k prev target).slab = h.slab := by
  cases prev <;> rfl

theorem length_lt_fuel {l : List ℕ} (hnodup : l.Nodup) (hpos : 0 ∉ l) (hlt : ∀ a ∈ l, a < 2 ^ 64) :
    l.length < walkFuel := by
  have hsub : l ⊆ range' 1 (2 ^ 64 - 1) := by
    intro x hx
    have hx0 : x ≠ 0 := fun h => hpos (h ▸ hx)
    have hx1 := hlt x hx
    rw [mem_range'_1]
    omega
  have hlen := (subperm_of_subset hnodup hsub).length_le
  rw [length_range'] at hlen
  unfold walkFuel
  omega

/-- The cells that can be handled: each once, none at address 0, and none at the last address, so
that no block ends where addresses wrap. -/
structure Addressable (s : Multiset ℕ) : Prop where
  nodup : s.Nodup
  pos : 0 ∉ s
  lt : ∀ x ∈ s, x + 1 < 2 ^ 64

theorem Addressable.mono {s t : Multiset ℕ} (h : Addressable s) (hle : t ≤ s) : Addressable t :=
  ⟨Multiset.nodup_of_le hle h.nodup, fun hmem => h.pos (Multiset.mem_of_le hle hmem),
    fun x hx => h.lt x (Multiset.mem_of_le hle hx)⟩

theorem remove_spec (hs : h.Shows free) (ha : Addressable (cells minOrder (maxOrder orderCount) free)) {addr k : ℕ}
    (hk : k ≤ maxOrder orderCount) :
    (addr ∉ free k → h.remove addr k = .ok (false, h)) ∧
    (addr ∈ free k → ∃ h', h.remove addr k = .ok (true, h') ∧
      h'.Shows (update free k ((free k).erase addr)) ∧
      Frame (cells minOrder (maxOrder orderCount) free) h h') := by
  have hnodup := nodup_pool ha.nodup hk
  have hthread := hs k hk
  have hfuel := length_lt_fuel hnodup hthread.null_notMem fun a hmem => Nat.lt_of_succ_lt (ha.lt a (mem_of_pool hk hmem))
  obtain ⟨hmiss, hhit⟩ := @removeLoop_walk _ _ _ _ h addr k (free k) [] (h.heads k) walkFuel hthread hfuel
  refine ⟨hmiss, fun hmem => ?_⟩
  obtain ⟨l3, l4, hsplit, hnot, hrun⟩ := hhit hmem
  rw [nil_append] at hrun
  have hprev : ∀ p, l3.getLast? = some p → p ∈ free k := by
    intro p hp
    rw [hsplit]
    exact mem_append_left _ (List.mem_of_getLast? hp)
  refine ⟨_, hrun, ?_, setLink_slab _ _ _ _, fun w hw => setLink_mem _ _ _ fun hp => hw (mem_of_pool hk (hprev w hp))⟩
  · rw [hsplit] at hthread hnodup
    have herase : (free k).erase addr = l3 ++ l4 := by
      rw [hsplit, erase_append_right _ hnot, erase_cons_head]
    obtain ⟨hn3, hn4, hdisj⟩ := nodup_append.1 hnodup
    have hnew := hthread.relink hn3 hthread.after fun a hl hr => hdisj a hl a (mem_cons_of_mem _ hr) rfl
    rw [relink_eq_setLink] at hnew
    intro j hj
    by_cases hjk : j = k
    · subst hjk
      rw [update_self, herase]
      exact hnew
    · rw [update_of_ne hjk, setLink_heads _ _ _ hjk]
      refine (hs j hj).congr fun b hb => setLink_mem _ _ _ fun hp => hjk ?_
      have hself : ∀ i, b ∈ run b (2 ^ (i + minOrder)) := fun i => self_mem_run (Nat.two_pow_pos _)
      exact (apart ha.nodup hj hk hb (hprev b hp) (hself j) (hself k)).1

end Lists

section Alloc

variable {a k n : ℕ}

theorem splitLoop_spec (hs : h.Shows free) (hk : k + n ≤ maxOrder orderCount + 1)
    (hnew : ∀ x ∈ run a (2 ^ (k + n + minOrder)), x ∉ cells minOrder (maxOrder orderCount) free ∧ x < 2 ^ 64) :
    (splitLoop a k n h).Shows (split minOrder n free a k) ∧
      Frame (run a (2 ^ (k + n + minOrder))) h (splitLoop a k n h) := by
  induction n generalizing h free with
  | zero => exact ⟨hs, Frame.refl _⟩
  | succ n ih =>
    have hpos : 0 < 2 ^ (k + n + minOrder) := Nat.two_pow_pos _
    have hpow : 2 ^ (k + (n + 1) + minOrder) = 2 ^ (k + n + minOrder) + 2 ^ (k + n + minOrder) := by ring
    rw [hpow, run_add] at hnew ⊢
    simp only [mem_add] at hnew
    have hhalf := hnew _ (.inr (self_mem_run hpos))
    have hwadd : wadd a (blockSize minOrder (k + n)) = a + 2 ^ (k + n + minOrder) := Nat.mod_eq_of_lt hhalf.2
    rw [splitLoop, split, hwadd]
    have hpush := @Shows.push _ _ _ _ _ _ hs _ (k + n) (by omega : a + 2 ^ (k + n + minOrder) ≠ 0) hhalf.1
    obtain ⟨hshows, hframe⟩ := ih hpush (by omega) fun x hx => by
      refine ⟨?_, (hnew x (.inl hx)).2⟩
      rw [cells_push (by omega), mem_add, not_or]
      refine ⟨(hnew x (.inl hx)).1, fun hx' => ?_⟩
      rw [mem_run] at hx hx'
      omega
    refine ⟨hshows, (Frame.mono (frame_push _ _) ?_).trans hframe ?_⟩
    · intro x hx
      rw [mem_run] at hx
      rw [mem_add, mem_run, mem_run]
      omega
    · exact fun x hx => Multiset.mem_add.2 (.inl hx)

theorem heads_ne_zero (hs : h.Shows free) (hk : k ≤ maxOrder orderCount) : (h.heads k != 0) = !(free k).isEmpty := by
  have hnil := (hs k hk).eq_nil_iff
  cases hl : free k with
  | nil => simp [hnil.1 hl]
  | cons b l =>
    have hne : h.heads k ≠ 0 := fun hzero => by simp [hnil.2 hzero] at hl
    simp [hne]

theorem pop_spec (hs : h.Shows free) {rest : List ℕ} (hk : k ≤ maxOrder orderCount) (hfree : free k = a :: rest) :
    ∃ h', h.pop k = (some a, h') ∧ h'.Shows (update free k rest) ∧ h'.slab = h.slab ∧ h'.mem = h.mem := by
  have hthread := hs k hk
  rw [hfree] at hthread
  obtain ⟨hhead, hzero⟩ : h.heads k = a ∧ a ≠ 0 := by
    generalize h.heads k = head at hthread
    cases hthread with
    | cons ha _ => exact ⟨rfl, ha⟩
  refine ⟨{ h with heads := update h.heads k (h.mem a) }, ?_, fun i hi => ?_, rfl, rfl⟩
  · simp only [pop, hhead, if_neg hzero]
  · by_cases hik : i = k
    · subst hik
      simp only [update_self]
      exact @Thread.after _ _ _ _ [] _ _ hthread
    · simp only [update_of_ne hik]
      exact hs i hi

theorem alloc_spec (hs : h.Shows free) (ha : Addressable (cells minOrder (maxOrder orderCount) free)) (k : ℕ) :
    match take minOrder (maxOrder orderCount) free k with
    | none => h.alloc k = (none, h)
    | some (a, free') => ∃ h', h.alloc k = (some a, h') ∧ h'.Shows free' ∧
        Frame (cells minOrder (maxOrder orderCount) free) h h' := by
  have hfind : (range' k (maxOrder orderCount + 1 - k)).find? (fun j => h.heads j != 0) =
      (range' k (maxOrder orderCount + 1 - k)).find? fun j => !(free j).isEmpty := by
    refine List.find?_congr fun j hj => heads_ne_zero hs ?_
    rw [mem_range'_1] at hj
    omega
  cases htake : take minOrder (maxOrder orderCount) free k with
  | none =>
    have hnone : (range' k (maxOrder orderCount + 1 - k)).find? (fun j => h.heads j != 0) = none := by
      rw [hfind, List.find?_eq_none]
      intro j hj
      rw [mem_range'_1] at hj
      simp [take_none htake j hj.1 (by omega)]
    simp only [alloc, hnone, ite_self]
  | some p =>
    obtain ⟨a, free'⟩ := p
    obtain ⟨j, rest, hfound, hkj, hj, hfree, -, rfl⟩ := take_some htake
    have hmem : a ∈ free j := by rw [hfree]; exact mem_cons_self
    obtain ⟨h1, hpop, hshows, hslab, hsame⟩ := pop_spec hs hj hfree
    have hrest : (free j).erase a = rest := by rw [hfree, erase_cons_head]
    have hcells := @cells_erase minOrder _ _ _ _ hj hmem
    rw [hrest] at hcells
    have hdisj := ha.nodup
    rw [hcells] at hdisj
    obtain ⟨hsplit, hframe⟩ := @splitLoop_spec _ _ _ _ h1 _ a k (j - k) hshows (by omega) fun x hx => by
      rw [Nat.add_sub_cancel' hkj] at hx
      refine ⟨fun hx' => ?_, Nat.lt_of_succ_lt (ha.lt x ?_)⟩
      · exact Multiset.disjoint_left.1 (Multiset.nodup_add.1 hdisj).2.2 hx' hx
      · rw [hcells]
        exact Multiset.mem_add.2 (.inr hx)
    refine ⟨splitLoop a k (j - k) h1, ?_, hsplit, hframe.slab.trans hslab, fun w hw => ?_⟩
    · rw [alloc, if_neg (by omega), hfind, hfound]
      simp only [hpop]
    · rw [hframe.mem w, hsame]
      rw [Nat.add_sub_cancel' hkj]
      intro hw'
      rw [hcells, mem_add] at hw
      exact hw (.inr hw')

end Alloc

section Free

variable {a k n : ℕ}

theorem push_spec (hs : h.Shows free)
    (ha : Addressable (cells minOrder (maxOrder orderCount) free + run a (2 ^ (k + minOrder)))) :
    (h.push a k).Shows (update free k (a :: free k)) ∧
      Frame (cells minOrder (maxOrder orderCount) free + run a (2 ^ (k + minOrder))) h (h.push a k) := by
  have hself : a ∈ run a (2 ^ (k + minOrder)) := self_mem_run (Nat.two_pow_pos _)
  have hpos : a ≠ 0 := by
    rintro rfl
    exact ha.pos (Multiset.mem_add.2 (.inr hself))
  have hnew : a ∉ cells minOrder (maxOrder orderCount) free := fun hmem =>
    Multiset.disjoint_left.1 (Multiset.nodup_add.1 ha.nodup).2.2 hmem hself
  refine ⟨hs.push hpos hnew, (frame_push a k).mono fun x hx => Multiset.mem_add.2 (.inr ?_)⟩
  obtain rfl : x = a := by
    rw [mem_run] at hx
    omega
  exact hself

theorem freeLoop_spec (hs : h.Shows free) (hal : Aligned minOrder free) (hk : k + n = maxOrder orderCount)
    (hd : 2 ^ (k + minOrder) ∣ a)
    (ha : Addressable (cells minOrder (maxOrder orderCount) free + run a (2 ^ (k + minOrder)))) :
    ∃ h', freeLoop (fun _ _ => true) n a k h = .ok h' ∧ h'.Shows (give minOrder n free a k) ∧
      Frame (cells minOrder (maxOrder orderCount) free + run a (2 ^ (k + minOrder))) h h' := by
  induction n generalizing h free a k with
  | zero => exact ⟨_, rfl, push_spec hs ha⟩
  | succ n ih =>
    obtain ⟨hmiss, hhit⟩ := @remove_spec _ _ _ _ h free hs (ha.mono (Multiset.le_add_right _ _))
      (buddy (k + minOrder) a) k (by omega)
    have hstep : freeLoop (fun _ _ => true) (n + 1) a k h = h.remove (buddy (k + minOrder) a) k >>= fun p =>
        if p.1 then freeLoop (fun _ _ => true) n (min a (buddy (k + minOrder) a)) (k + 1) p.2
        else .ok (p.2.push a k) := rfl
    rw [hstep, give]
    split_ifs with hbuddy
    · obtain ⟨h1, hremove, hs1, hframe1⟩ := hhit hbuddy
      have hjoin := run_join hd
      have hcells := @cells_erase minOrder _ _ _ _ (by omega : k ≤ maxOrder orderCount) hbuddy
      have hsum : cells minOrder (maxOrder orderCount)
          (update free k ((free k).erase (buddy (k + minOrder) a))) +
            run (min a (buddy (k + minOrder) a)) (2 ^ (k + 1 + minOrder)) =
          cells minOrder (maxOrder orderCount) free + run a (2 ^ (k + minOrder)) := by
        rw [Nat.add_right_comm, hjoin, hcells]
        abel
      have hd1 : 2 ^ (k + 1 + minOrder) ∣ min a (buddy (k + minOrder) a) := by
        rw [Nat.add_right_comm]
        exact (halves hd).1
      obtain ⟨h', hrun, hs', hframe'⟩ := ih hs1 (aligned_update hal fun b hb => hal k b (mem_of_mem_erase hb))
        (by omega) hd1 (by rwa [hsum])
      rw [hsum] at hframe'
      refine ⟨h', ?_, hs', (hframe1.mono fun x hx => Multiset.mem_add.2 (.inl hx)).trans hframe' fun _ hx => hx⟩
      rw [hremove]
      exact hrun
    · refine ⟨h.push a k, ?_, push_spec hs ha⟩
      rw [hmiss hbuddy]
      rfl

theorem free_spec (hs : h.Shows free) (hal : Aligned minOrder free) (hk : k ≤ maxOrder orderCount)
    (hd : 2 ^ (k + minOrder) ∣ a)
    (ha : Addressable (cells minOrder (maxOrder orderCount) free + run a (2 ^ (k + minOrder)))) :
    ∃ h', h.free a k = .ok h' ∧ h'.Shows (give minOrder (maxOrder orderCount - k) free a k) ∧
      Frame (cells minOrder (maxOrder orderCount) free + run a (2 ^ (k + minOrder))) h h' := by
  rw [BuddyAllocator.free, freeWith, if_neg (by omega)]
  exact freeLoop_spec hs hal (by omega) hd ha

end Free

end BuddyAllocator

end MaramOS
