import MaramOS.Proofs.Slab

/-! The slots of the slab. Every used slot holds a block that is cut into free and
live ranges, and the blocks share no cell, so an address that was handed out
leads back to the slot it came from. -/

namespace MaramOS

open List BuddyAllocator
open FreeRange (write)
open Function (update_of_ne update_self)

/-- A slot with the free and the live ranges of its block. -/
structure SlabSlot where
  block : BlockInfo
  ranges : List (ℕ × ℕ)
  live : List (ℕ × ℕ)

namespace SlabSlot

/-- A slot that has just been given a block of order `k`. -/
def opened (base k : ℕ) : SlabSlot := ⟨⟨base, 2 ^ k, 0, base, true⟩, [(base, 2 ^ k)], []⟩

def held (unit : ℕ) (s : SlabSlot) : Multiset ℕ := ranged unit s.ranges + ranged unit s.live

structure Good (unit top : ℕ) (mem : Memory) (s : SlabSlot) : Prop where
  carves : s.block.used = true → Carves unit mem s.block s.ranges s.live
  order : s.block.used = true → ∃ k ≤ top, s.block.totalBlocks = 2 ^ k ∧ 2 ^ k * unit ∣ s.block.physBase
  empty : s.block.used = false → s.ranges = [] ∧ s.live = []

/-- What serving a request from a slot does. -/
structure Serves (unit top count : ℕ) (mem : Memory) (s : SlabSlot) (a : ℕ) (mem' : Memory) (s' : SlabSlot) : Prop where
  good : s'.Good unit top mem'
  live : s'.live = (a, count) :: s.live
  held : s'.held unit = s.held unit
  fits : ∃ r ∈ s.ranges, count ≤ r.2
  mem : ∀ w, w ∉ s.held unit → mem' w = mem w

end SlabSlot

def heldBy (unit : ℕ) (slots : List SlabSlot) : Multiset ℕ := (slots.map (SlabSlot.held unit)).sum

section HeldBy

variable {unit : ℕ} {slots l1 l2 : List SlabSlot} {s : SlabSlot}

theorem heldBy_cons : heldBy unit (s :: slots) = s.held unit + heldBy unit slots := by
  rw [heldBy, map_cons, sum_cons]
  rfl

theorem heldBy_append : heldBy unit (l1 ++ l2) = heldBy unit l1 + heldBy unit l2 := by
  rw [heldBy, map_append, sum_append]
  rfl

theorem heldBy_split : heldBy unit (l1 ++ s :: l2) = s.held unit + heldBy unit (l1 ++ l2) := by
  rw [heldBy_append, heldBy_append, heldBy_cons]
  abel

theorem mem_middle {t : SlabSlot} : t ∈ l1 ++ s :: l2 ↔ t = s ∨ t ∈ l1 ++ l2 :=
  perm_middle.mem_iff.trans mem_cons

theorem heldBy_eq : heldBy unit slots =
    ranged unit (slots.flatMap SlabSlot.ranges) + ranged unit (slots.flatMap SlabSlot.live) := by
  induction slots with
  | nil => rfl
  | cons s slots ih =>
    rw [heldBy_cons, ih, SlabSlot.held, flatMap_cons, flatMap_cons, ranged_append, ranged_append]
    abel

theorem held_le_heldBy (hs : s ∈ slots) : s.held unit ≤ heldBy unit slots := by
  obtain ⟨l1, l2, rfl⟩ := append_of_mem hs
  rw [heldBy_split]
  exact Multiset.le_add_right _ _

end HeldBy

namespace SlabSlot.Good

variable {unit top count : ℕ} {mem mem' : Memory} {s : SlabSlot}

section

variable (h : s.Good unit top mem)
include h

theorem held_eq (hused : s.block.used = true) :
    s.held unit = run s.block.physBase (s.block.totalBlocks * unit) := (h.carves hused).cells.symm

theorem used_of_live {r : ℕ × ℕ} (hr : r ∈ s.live) : s.block.used = true := by
  by_contra hused
  rw [(h.empty (Bool.eq_false_iff.2 hused)).2] at hr
  exact not_mem_nil hr

theorem frame (hunit : 16 ≤ unit) (hsame : ∀ w ∈ ranged unit s.ranges, mem' w = mem w) :
    s.Good unit top mem' where
  carves hused := (h.carves hused).frame hunit hsame
  order := h.order
  empty := h.empty

/-- The test of `find_block` finds the cells of the block, since the block ends below `2 ^ 64`. -/
theorem holds_iff (hpos : 0 < unit) (haddr : Addressable (s.held unit)) (x : ℕ) :
    s.block.holds unit x = true ↔ x ∈ s.held unit := by
  cases hused : s.block.used with
  | false =>
    obtain ⟨hranges, hlive⟩ := h.empty hused
    simp [BlockInfo.holds, hused, SlabSlot.held, hranges, hlive, ranged]
  | true =>
    rw [h.held_eq hused] at haddr ⊢
    obtain ⟨k, -, htotal, -⟩ := h.order hused
    have hlen : 0 < s.block.totalBlocks * unit := Nat.mul_pos (by rw [htotal]; exact Nat.two_pow_pos k) hpos
    have hlast := haddr.lt (s.block.physBase + (s.block.totalBlocks * unit - 1)) (mem_run.2 (by omega))
    have hend : wadd s.block.physBase (wmul s.block.totalBlocks unit) = s.block.physBase + s.block.totalBlocks * unit := by
      rw [wadd, wmul_of_lt (by omega : s.block.totalBlocks * unit < 2 ^ 64), Nat.mod_eq_of_lt (by omega)]
    simp [BlockInfo.holds, hused, hend, mem_run]

end

end SlabSlot.Good

section Allocate

variable {unit top count : ℕ} {mem : Memory}

theorem Carves.length_lt {b : BlockInfo} {ranges live : List (ℕ × ℕ)} (h : Carves unit mem b ranges live)
    (h16 : 16 ∣ unit) (hpos : 0 < unit) (haddr : Addressable (run b.physBase (b.totalBlocks * unit))) :
    ranges.length < walkFuel := by
  have hfacts := h.facts h16 hpos haddr
  have hlen := @length_lt_fuel (ranges.map Prod.fst) hfacts.starts h.thread.null_notMem fun a ha => by
    obtain ⟨r, hr, rfl⟩ := mem_map.1 ha
    have hin := hfacts.inside _ (self_mem_ranged hpos hr (h.proper r (mem_append_left _ hr)).1)
    exact Nat.lt_of_succ_lt (haddr.lt _ hin)
  rwa [length_map] at hlen

theorem allocInBlock_spec {s : SlabSlot} (h : s.Good unit top mem) (hused : s.block.used = true) (h16 : 16 ∣ unit)
    (hpos : 0 < unit) (haddr : Addressable (s.held unit)) (hcount : 0 < count) :
    s.block.allocInBlock unit count mem = .ok none ∧ (∀ r ∈ s.ranges, r.2 < count) ∨
    ∃ a s' mem', s.block.allocInBlock unit count mem = .ok (some (a, s'.block, mem')) ∧
      s.Serves unit top count mem a mem' s' := by
  have hheld := h.held_eq hused
  have hcarves := h.carves hused
  rw [hheld] at haddr
  rcases @allocLoop_walk unit count mem s.block s.ranges [] s.block.freeList walkFuel hcarves.thread hcarves.counts
    (hcarves.length_lt h16 hpos haddr) with hnone | ⟨rs1, a, c, rs2, hranges, hfits, hrun⟩
  · exact .inl hnone
  · rw [hranges] at hcarves
    obtain ⟨b', mem', ranges', hcarve, hcarves', hbase, htotal, hused', hmem⟩ :=
      carve_spec hcarves h16 hpos haddr hcount hfits
    have hheld' : (⟨b', ranges', (a, count) :: s.live⟩ : SlabSlot).held unit = s.held unit := by
      rw [hheld, ← hbase, ← htotal, hcarves'.cells]
      rfl
    refine .inr ⟨a, ⟨b', ranges', (a, count) :: s.live⟩, mem', ?_, ?_, rfl, hheld', ⟨(a, c), ?_, hfits⟩, ?_⟩
    · rw [nil_append, hcarve] at hrun
      exact hrun
    · refine ⟨fun _ => hcarves', fun _ => ?_, fun hfalse => ?_⟩
      · rw [hbase, htotal]
        exact h.order hused
      · rw [hused', hused] at hfalse
        cases hfalse
    · rw [hranges]
      simp
    · rwa [hheld]

theorem allocateFrom_cons (b : BlockInfo) (rest : List BlockInfo) :
    PageSlab.allocateFrom unit count (b :: rest) mem =
      (if b.used then b.allocInBlock unit count mem else .ok none) >>= fun here =>
        match here with
        | some (addr, b', mem') => .ok (some (addr, b' :: rest, mem'))
        | none => PageSlab.allocateFrom unit count rest mem >>= fun there =>
          match there with
          | some (addr, rest', mem') => .ok (some (addr, b :: rest', mem'))
          | none => .ok none := by
  rw [PageSlab.allocateFrom]
  cases b.used <;> rfl

theorem allocateFrom_spec {slots : List SlabSlot} (h : ∀ s ∈ slots, s.Good unit top mem) (h16 : 16 ∣ unit) (hpos : 0 < unit)
    (haddr : Addressable (heldBy unit slots)) (hcount : 0 < count) :
    PageSlab.allocateFrom unit count (slots.map SlabSlot.block) mem = .ok none ∧
      (∀ s ∈ slots, ∀ r ∈ s.ranges, r.2 < count) ∨
    ∃ l1 s l2 a s' mem', slots = l1 ++ s :: l2 ∧ s.Serves unit top count mem a mem' s' ∧
      PageSlab.allocateFrom unit count (slots.map SlabSlot.block) mem =
        .ok (some (a, (l1 ++ s' :: l2).map SlabSlot.block, mem')) := by
  induction slots with
  | nil => exact .inl ⟨rfl, fun s hs => absurd hs not_mem_nil⟩
  | cons s slots ih =>
    have hs := h s mem_cons_self
    have haddr_s := haddr.mono (held_le_heldBy mem_cons_self)
    have hrest := ih (fun s' hs' => h s' (mem_cons_of_mem _ hs')) (haddr.mono (by
      rw [heldBy_cons]
      exact Multiset.le_add_left _ _))
    -- a slot out of use is passed over, as a full one is
    have hhere : (if s.block.used then s.block.allocInBlock unit count mem else .ok none) = .ok none ∧
          (∀ r ∈ s.ranges, r.2 < count) ∨
        ∃ a s' mem', (if s.block.used then s.block.allocInBlock unit count mem else .ok none) =
          .ok (some (a, s'.block, mem')) ∧ s.Serves unit top count mem a mem' s' := by
      cases hused : s.block.used with
      | false =>
        refine .inl ⟨rfl, fun r hr => ?_⟩
        rw [(hs.empty hused).1] at hr
        exact absurd hr not_mem_nil
      | true => exact allocInBlock_spec hs hused h16 hpos haddr_s hcount
    rw [map_cons, allocateFrom_cons]
    rcases hhere with ⟨hnone, hfull⟩ | ⟨a, s', mem', hsome, hserves⟩
    · rcases hrest with ⟨hrun, hall⟩ | ⟨l1, t, l2, a, t', mem', rfl, hserves, hrun⟩
      · refine .inl ⟨?_, fun t ht => ?_⟩
        · rw [hnone, hrun]
          rfl
        · rcases mem_cons.1 ht with rfl | ht
          · exact hfull
          · exact hall t ht
      · refine .inr ⟨s :: l1, t, l2, a, t', mem', rfl, hserves, ?_⟩
        rw [hnone, hrun]
        rfl
    · refine .inr ⟨[], s, slots, a, s', mem', rfl, hserves, ?_⟩
      rw [hsome]
      rfl

end Allocate

section Find

variable {unit top maxBlocks x : ℕ} {mem : Memory} {slots l1 l2 : List SlabSlot} {s : SlabSlot} {slab : PageSlab maxBlocks}

theorem findBlock_none (h : ∀ s ∈ slots, s.Good unit top mem) (hpos : 0 < unit) (haddr : Addressable (heldBy unit slots))
    (hblocks : slab.blocks = slots.map SlabSlot.block) (hunit : slab.blockSize = unit) (hx : x ∉ heldBy unit slots) :
    slab.findBlock x = none := by
  rw [PageSlab.findBlock, hblocks, hunit, List.findIdx?_eq_none_iff]
  intro b hb
  obtain ⟨s, hs, rfl⟩ := mem_map.1 hb
  have hle := @held_le_heldBy unit _ _ hs
  rw [Bool.eq_false_iff, ne_eq, (h s hs).holds_iff hpos (haddr.mono hle)]
  exact fun hmem => hx (Multiset.mem_of_le hle hmem)

theorem findBlock_some (h : ∀ t ∈ l1 ++ s :: l2, t.Good unit top mem) (hpos : 0 < unit)
    (haddr : Addressable (heldBy unit (l1 ++ s :: l2))) (hblocks : slab.blocks = (l1 ++ s :: l2).map SlabSlot.block)
    (hunit : slab.blockSize = unit) (hx : x ∈ s.held unit) : slab.findBlock x = some l1.length := by
  have hdisj := haddr.nodup
  rw [heldBy_split, heldBy_append] at hdisj
  have hbefore : (l1.map SlabSlot.block).findIdx? (fun b => b.holds unit x) = none := by
    rw [List.findIdx?_eq_none_iff]
    intro b hb
    obtain ⟨t, ht, rfl⟩ := mem_map.1 hb
    have hmem : t ∈ l1 ++ s :: l2 := mem_append_left _ ht
    rw [Bool.eq_false_iff, ne_eq, (h t hmem).holds_iff hpos (haddr.mono (held_le_heldBy hmem))]
    -- the slots share no cell
    intro hxt
    refine Multiset.disjoint_left.1 (Multiset.nodup_add.1 hdisj).2.2 hx (Multiset.mem_add.2 (.inl ?_))
    exact Multiset.mem_of_le (held_le_heldBy ht) hxt
  have hs : s ∈ l1 ++ s :: l2 := by simp
  have hself : s.block.holds unit x = true := ((h s hs).holds_iff hpos (haddr.mono (held_le_heldBy hs)) x).2 hx
  rw [PageSlab.findBlock, hblocks, hunit, map_append, map_cons, List.findIdx?_append, hbefore,
    List.findIdx?_cons, hself]
  simp

end Find

section Release

variable {unit top maxBlocks a c : ℕ} {mem : Memory} {slots l1 l2 : List SlabSlot} {s : SlabSlot} {slab : PageSlab maxBlocks}

theorem SlabSlot.live_le_held (hr : (a, c) ∈ s.live) : run a (c * unit) ≤ s.held unit := by
  obtain ⟨l, l', hlive⟩ := append_of_mem hr
  rw [SlabSlot.held, hlive, ranged_append, ranged_cons]
  exact (Multiset.le_add_right _ _).trans ((Multiset.le_add_left _ _).trans (Multiset.le_add_left _ _))

/-- The range at `a` is live no more and heads the list of free ranges. -/
def SlabSlot.freed (s : SlabSlot) (a c : ℕ) : SlabSlot :=
  ⟨{ s.block with freeList := a, allocatedBlocks := s.block.allocatedBlocks - c }, (a, c) :: s.ranges, s.live.erase (a, c)⟩

/-- Memory after `free` wrote the record of a range. -/
def SlabSlot.released (s : SlabSlot) (a c : ℕ) (mem : Memory) : Memory :=
  write mem a ⟨s.block.freeList, c⟩

theorem SlabSlot.released_mem {w : ℕ} (hw : w ∉ run a (c * unit)) (hc : 0 < c) (hunit : 16 ≤ unit) :
    s.released a c mem w = mem w := by
  have hlen : unit ≤ c * unit := Nat.le_mul_of_pos_left unit hc
  rw [mem_run] at hw
  rw [SlabSlot.released, write, update_of_ne (by omega), update_of_ne (by omega)]

theorem Carves.put {b : BlockInfo} {ranges live : List (ℕ × ℕ)} (h : Carves unit mem b ranges live) (h16 : 16 ∣ unit)
    (hpos : 0 < unit) (haddr : Addressable (run b.physBase (b.totalBlocks * unit))) (hr : (a, c) ∈ live) :
    Carves unit (write mem a ⟨b.freeList, c⟩) { b with freeList := a, allocatedBlocks := b.allocatedBlocks - c }
      ((a, c) :: ranges) (live.erase (a, c)) := by
  have hfacts := h.facts h16 hpos haddr
  obtain ⟨hc, hdvd⟩ := h.proper (a, c) (mem_append_right _ hr)
  have hsum := h.sum_counts hpos
  have hsmall := h.small
  have hperm := perm_cons_erase hr
  have hlive : (live.map Prod.snd).sum = c + ((live.erase (a, c)).map Prod.snd).sum := by
    rw [(hperm.map Prod.snd).sum_eq, map_cons, sum_cons]
  have hcells : ranged unit live = run a (c * unit) + ranged unit (live.erase (a, c)) :=
    (ranged_perm hperm).trans (ranged_cons (a, c))
  have hself : a ∈ ranged unit live := self_mem_ranged hpos hr hc
  have hnodup := haddr.nodup
  rw [h.cells] at hnodup
  have hnew : a ∉ ranges.map Prod.fst := by
    intro hmem
    obtain ⟨r, hr', rfl⟩ := mem_map.1 hmem
    exact Multiset.disjoint_left.1 (Multiset.nodup_add.1 hnodup).2.2
      (self_mem_ranged hpos hr' (h.proper r (mem_append_left _ hr')).1) hself
  have hzero : a ≠ 0 := by
    rintro rfl
    refine haddr.pos ?_
    rw [h.cells]
    exact Multiset.mem_add.2 (.inr hself)
  have ha16 : 16 ∣ a := h16.trans hdvd
  refine ⟨?_, ?_, ?_, ?_, ?_, hsmall⟩
  · -- the second word of the record is not one that the list runs through
    refine (h.thread.push hzero hnew).congr fun w hw => update_of_ne ?_ _ _
    have hw16 : 16 ∣ w := by
      rcases mem_cons.1 hw with rfl | hw
      · exact ha16
      · obtain ⟨r, hr', rfl⟩ := mem_map.1 hw
        exact hfacts.dvd r hr'
    omega
  · intro r hr'
    rcases mem_cons.1 hr' with rfl | hr'
    · rw [write, update_self]
      exact Nat.mod_eq_of_lt (by simp only; omega)
    · have hne : r.1 ≠ a := fun heq => hnew (heq ▸ mem_map_of_mem hr')
      have hr16 := hfacts.dvd r hr'
      rw [write, update_of_ne (by omega), update_of_ne (by omega), h.counts r hr']
  · simp only [h.cells, hcells, ranged_cons]
    abel
  · simp only [h.allocated, hlive, Nat.add_sub_cancel_left]
  · intro r hr'
    refine h.proper r ?_
    rw [cons_append, mem_cons, mem_append] at hr'
    rcases hr' with rfl | hr' | hr'
    · exact mem_append_right _ hr
    · exact mem_append_left _ hr'
    · exact mem_append_right _ (mem_of_mem_erase hr')

theorem free_slot (h : ∀ t ∈ l1 ++ s :: l2, t.Good unit top mem) (h16 : 16 ∣ unit) (hpos : 0 < unit)
    (haddr : Addressable (heldBy unit (l1 ++ s :: l2))) (hblocks : slab.blocks = (l1 ++ s :: l2).map SlabSlot.block)
    (hunit : slab.blockSize = unit) (hr : (a, c) ∈ s.live) :
    (s.freed a c).Good unit top (s.released a c mem) ∧ (s.freed a c).held unit = s.held unit ∧
    slab.free a c mem =
      if s.live.erase (a, c) = [] then
        (some (s.block.physBase, s.block.totalBlocks),
          { slab with blocks := (l1 ++ ⟨{ (s.freed a c).block with used := false }, [], []⟩ :: l2).map SlabSlot.block },
          s.released a c mem)
      else (none, { slab with blocks := (l1 ++ s.freed a c :: l2).map SlabSlot.block }, s.released a c mem) := by
  have hmem : s ∈ l1 ++ s :: l2 := by simp
  have hs := h s hmem
  have hused := hs.used_of_live hr
  have hcarves := hs.carves hused
  have hself := haddr.mono (held_le_heldBy hmem)
  have hc := (hcarves.proper (a, c) (mem_append_right _ hr)).1
  have hfind := findBlock_some h hpos haddr hblocks hunit
    (Multiset.mem_of_le (SlabSlot.live_le_held hr) (self_mem_run (Nat.mul_pos hc hpos)))
  have hget : slab.blocks[l1.length]? = some s.block := by
    rw [hblocks, map_append, map_cons, List.getElem?_append_right (by rw [length_map]), length_map,
      Nat.sub_self, List.getElem?_cons_zero]
  have hset : ∀ t : SlabSlot, slab.blocks.set l1.length t.block = (l1 ++ t :: l2).map SlabSlot.block := by
    intro t
    rw [hblocks, map_append, map_append, map_cons, map_cons,
      set_append_right _ _ (by rw [length_map]), length_map, Nat.sub_self, set_cons_zero]
  rw [hs.held_eq hused] at hself
  have hput := hcarves.put h16 hpos hself hr
  have hlive : s.block.allocatedBlocks = c + ((s.live.erase (a, c)).map Prod.snd).sum := by
    rw [hcarves.allocated, ((perm_cons_erase hr).map Prod.snd).sum_eq, map_cons, sum_cons]
  have hsum := hcarves.sum_counts hpos
  have hallocated := hcarves.allocated
  have hsmall := hcarves.small
  have hc32 : c % 2 ^ 32 = c := Nat.mod_eq_of_lt (by omega)
  refine ⟨⟨fun _ => hput, fun _ => hs.order hused, fun hfalse => ?_⟩, ?_, ?_⟩
  · rw [show (s.freed a c).block.used = s.block.used from rfl, hused] at hfalse
    cases hfalse
  · rw [hs.held_eq hused]
    exact hput.cells.symm
  · have hempty : s.block.allocatedBlocks - c = 0 ↔ s.live.erase (a, c) = [] := by
      rw [hlive, Nat.add_sub_cancel_left]
      refine ⟨fun hzero => eq_nil_iff_forall_not_mem.2 fun r hr' => ?_, fun hnil => by rw [hnil]; rfl⟩
      have hpos' := (hcarves.proper r (mem_append_right _ (mem_of_mem_erase hr'))).1
      have hle := single_le_sum (by simp) _ (mem_map_of_mem hr' : r.2 ∈ (s.live.erase (a, c)).map Prod.snd)
      omega
    rw [PageSlab.free, hfind]
    simp only [hget, hc32, if_neg (show ¬s.block.allocatedBlocks < c by omega), ne_eq, hempty]
    split_ifs with hnil
    · rw [← hset ⟨{ (s.freed a c).block with used := false }, [], []⟩]
      rfl
    · rw [← hset (s.freed a c)]
      rfl

end Release

section AddBlock

variable {unit top maxBlocks a k : ℕ} {mem : Memory} {slots : List SlabSlot} {slab : PageSlab maxBlocks}

theorem opened_good (hk : k ≤ top) (htop : top < 32) (hd : 2 ^ k * unit ∣ a)
    (ha : a ≠ 0) : (SlabSlot.opened a k).Good unit top (write mem a ⟨0, 2 ^ k⟩) where
  carves _ := {
    thread := by
      have hnext : write mem a ⟨0, 2 ^ k⟩ a = 0 := by
        rw [write, update_of_ne (by omega), update_self]
      refine .cons ha ?_
      rw [show (SlabSlot.opened a k).block.freeList = a from rfl, hnext]
      exact .nil
    counts := by
      intro r hr
      rw [mem_singleton.1 hr, write, update_self]
      exact Nat.mod_eq_of_lt (Nat.pow_lt_pow_right (by norm_num) (by omega))
    cells := by
      rw [show (SlabSlot.opened a k).ranges = [(a, 2 ^ k)] from rfl, ranged_cons]
      exact ((add_zero _).trans (add_zero _)).symm
    allocated := rfl
    proper := by
      intro r hr
      rw [mem_singleton.1 hr]
      exact ⟨Nat.two_pow_pos k, (Dvd.intro_left _ rfl).trans hd⟩
    small := Nat.pow_lt_pow_right (by norm_num) (by omega) }
  order _ := ⟨k, hk, rfl, hd⟩
  empty hfalse := by cases hfalse

theorem addBlock_spec (h : ∀ s ∈ slots, s.Good unit top mem) (hblocks : slab.blocks = slots.map SlabSlot.block) :
    (∃ l1 gone l2, slots = l1 ++ gone ++ l2 ∧ (∀ s ∈ gone, s.ranges = [] ∧ s.live = []) ∧
      slab.addBlock a (2 ^ k) mem = (true, { slab with blocks := (l1 ++ SlabSlot.opened a k :: l2).map SlabSlot.block },
        write mem a ⟨0, 2 ^ k⟩)) ∨
    slab.addBlock a (2 ^ k) mem = (false, slab, mem) := by
  rw [PageSlab.addBlock]
  cases hfind : slab.blocks.findIdx? fun b => !b.used with
  | some i =>
    rw [List.findIdx?_eq_some_iff_getElem] at hfind
    obtain ⟨hi, hunused, -⟩ := hfind
    simp only [hblocks, length_map, getElem_map, Bool.not_eq_eq_eq_not, Bool.not_true] at hi hunused
    refine .inl ⟨slots.take i, [slots[i]], slots.drop (i + 1), ?_, ?_, ?_⟩
    · rw [append_assoc, singleton_append, cons_getElem_drop_succ, take_append_drop]
    · intro s hs
      rw [mem_singleton.1 hs]
      exact (h _ (getElem_mem hi)).empty hunused
    · have hset := @List.map_set _ _ SlabSlot.block slots i (SlabSlot.opened a k)
      rw [set_eq_take_append_cons_drop, if_pos hi] at hset
      simp only [hset, hblocks]
      rfl
  | none =>
    by_cases hroom : slab.blocks.length < maxBlocks
    · refine .inl ⟨slots, [], [], by simp, by simp, ?_⟩
      simp only [if_pos hroom]
      rw [hblocks, map_append]
      rfl
    · refine .inr ?_
      simp only [if_neg hroom]

end AddBlock

end MaramOS
