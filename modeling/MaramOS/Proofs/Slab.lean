import MaramOS.Proofs.Buddy

/-! A block of the slab is cut into free ranges, which are listed in it, and live
ones. Taking a range out of a block and putting one back write only inside the
block, and lose nothing of it. -/

namespace MaramOS

open List BuddyAllocator
open FreeRange (write)
open Function (update_of_ne update_self)
open Multiset (mem_add card_add coe_card nodup_add disjoint_left)

/-- The cells of ranges, given by their address and their length in units. -/
def ranged (unit : ℕ) (l : List (ℕ × ℕ)) : Multiset ℕ := (l.map fun r => run r.1 (r.2 * unit)).sum

section Ranged

variable {unit : ℕ} {l l' : List (ℕ × ℕ)}

theorem ranged_cons (r : ℕ × ℕ) : ranged unit (r :: l) = run r.1 (r.2 * unit) + ranged unit l := by
  rw [ranged, map_cons, sum_cons]
  rfl

theorem ranged_append : ranged unit (l ++ l') = ranged unit l + ranged unit l' := by
  rw [ranged, map_append, sum_append]
  rfl

theorem ranged_perm (h : l.Perm l') : ranged unit l = ranged unit l' := (h.map _).sum_eq

theorem mem_ranged {x : ℕ} : x ∈ ranged unit l ↔ ∃ r ∈ l, x ∈ run r.1 (r.2 * unit) := by
  induction l with
  | nil => simp [ranged]
  | cons r l ih => rw [ranged_cons, mem_add, ih, exists_mem_cons_iff]

theorem card_ranged : (ranged unit l).card = (l.map Prod.snd).sum * unit := by
  induction l with
  | nil => simp [ranged]
  | cons r l ih =>
    rw [ranged_cons, card_add, ih, run, coe_card, length_range', map_cons, sum_cons,
      Nat.add_mul]

theorem self_mem_ranged {r : ℕ × ℕ} (hunit : 0 < unit) (hr : r ∈ l) (hpos : 0 < r.2) : r.1 ∈ ranged unit l :=
  mem_ranged.2 ⟨r, hr, self_mem_run (Nat.mul_pos hpos hunit)⟩

theorem nodup_starts (hunit : 0 < unit) (h : (ranged unit l).Nodup) (hpos : ∀ r ∈ l, 0 < r.2) :
    (l.map Prod.fst).Nodup := by
  induction l with
  | nil => exact nodup_nil
  | cons r l ih =>
    rw [ranged_cons] at h
    obtain ⟨-, hl, hdisj⟩ := nodup_add.1 h
    have hpos' : ∀ r' ∈ l, 0 < r'.2 := fun r' hr' => hpos r' (mem_cons_of_mem _ hr')
    rw [map_cons, nodup_cons]
    refine ⟨fun hmem => ?_, ih hl hpos'⟩
    obtain ⟨r', hr', heq⟩ := mem_map.1 hmem
    have hin := self_mem_ranged hunit hr' (hpos' r' hr')
    rw [heq] at hin
    exact disjoint_left.1 hdisj (self_mem_run (Nat.mul_pos (hpos r mem_cons_self) hunit)) hin

theorem ranged_pairwise (h : (ranged unit l).Nodup) :
    l.Pairwise fun r r' => Disjoint (run r.1 (r.2 * unit)) (run r'.1 (r'.2 * unit)) := by
  induction l with
  | nil => exact .nil
  | cons r l ih =>
    rw [ranged_cons] at h
    obtain ⟨-, hl, hdisj⟩ := nodup_add.1 h
    refine .cons (fun r' hr' => ?_) (ih hl)
    exact disjoint_left.2 fun hx hx' => disjoint_left.1 hdisj hx (mem_ranged.2 ⟨r', hr', hx'⟩)

end Ranged

/-- The block is cut into the listed free ranges and the live ones. -/
structure Carves (unit : ℕ) (mem : Memory) (b : BlockInfo) (ranges live : List (ℕ × ℕ)) : Prop where
  thread : Thread mem 0 b.freeList (ranges.map Prod.fst)
  counts : ∀ r ∈ ranges, mem (r.1 + 8) % 2 ^ 32 = r.2
  cells : run b.physBase (b.totalBlocks * unit) = ranged unit ranges + ranged unit live
  allocated : b.allocatedBlocks = (live.map Prod.snd).sum
  proper : ∀ r ∈ ranges ++ live, 0 < r.2 ∧ unit ∣ r.1
  small : b.totalBlocks < 2 ^ 32

namespace Carves

variable {unit : ℕ} {mem mem' : Memory} {b : BlockInfo} {ranges ranges' live : List (ℕ × ℕ)}

section

variable (h : Carves unit mem b ranges live)
include h

theorem words (hunit : 16 ≤ unit) {r : ℕ × ℕ} (hr : r ∈ ranges) :
    r.1 ∈ ranged unit ranges ∧ r.1 + 8 ∈ ranged unit ranges := by
  have hpos := (h.proper r (mem_append_left _ hr)).1
  have hlen : unit ≤ r.2 * unit := Nat.le_mul_of_pos_left unit hpos
  exact ⟨mem_ranged.2 ⟨r, hr, mem_run.2 (by omega)⟩, mem_ranged.2 ⟨r, hr, mem_run.2 (by omega)⟩⟩

theorem frame (hunit : 16 ≤ unit) (hsame : ∀ w ∈ ranged unit ranges, mem' w = mem w) :
    Carves unit mem' b ranges live where
  thread := by
    refine h.thread.congr fun a ha => hsame a ?_
    obtain ⟨r, hr, rfl⟩ := mem_map.1 ha
    exact (h.words hunit hr).1
  counts := fun r hr => by rw [hsame _ (h.words hunit hr).2, h.counts r hr]
  cells := h.cells
  allocated := h.allocated
  proper := h.proper
  small := h.small

theorem unique {live' : List (ℕ × ℕ)} (h' : Carves unit mem b ranges' live') :
    ranges = ranges' := by
  have hstarts := h.thread.unique h'.thread
  have hcounts := h.counts
  have hcounts' := h'.counts
  clear h h'
  induction ranges generalizing ranges' with
  | nil => rw [map_nil, eq_comm, map_eq_nil_iff] at hstarts; exact hstarts.symm
  | cons r l ih =>
    cases ranges' with
    | nil => cases hstarts
    | cons r' l' =>
      obtain ⟨hfst, hrest⟩ := List.cons.inj hstarts
      have hsnd : r.2 = r'.2 := by
        rw [← hcounts r mem_cons_self, ← hcounts' r' mem_cons_self, hfst]
      rw [Prod.ext hfst hsnd, ih hrest (fun x hx => hcounts x (mem_cons_of_mem _ hx)) fun x hx =>
        hcounts' x (mem_cons_of_mem _ hx)]

theorem sum_counts (hpos : 0 < unit) :
    b.totalBlocks = (ranges.map Prod.snd).sum + (live.map Prod.snd).sum := by
  have hcard := congrArg Multiset.card h.cells
  rw [card_add, card_ranged, card_ranged, run, coe_card, length_range', ← Nat.add_mul] at hcard
  exact Nat.eq_of_mul_eq_mul_right hpos hcard

end

end Carves

section Carve

variable {unit count : ℕ} {mem : Memory} {b : BlockInfo} {ranges live : List (ℕ × ℕ)}

theorem allocLoop_walk (rs2 : List (ℕ × ℕ)) : ∀ (rs1 : List (ℕ × ℕ)) (current fuel : ℕ),
    Thread mem 0 current (rs2.map Prod.fst) → (∀ r ∈ rs2, mem (r.1 + 8) % 2 ^ 32 = r.2) → rs2.length < fuel →
    b.allocLoop unit count mem fuel (rs1.map Prod.fst).getLast? current = .ok none ∧ (∀ r ∈ rs2, r.2 < count) ∨
    ∃ rs3 a c rs4, rs2 = rs3 ++ (a, c) :: rs4 ∧ count ≤ c ∧
      b.allocLoop unit count mem fuel (rs1.map Prod.fst).getLast? current =
        .ok (some (a, b.carve unit count ((rs1 ++ rs3).map Prod.fst).getLast? a mem)) := by
  induction rs2 with
  | nil =>
    intro rs1 current fuel hcur _ hfuel
    obtain ⟨fuel, rfl⟩ := Nat.exists_eq_succ_of_ne_zero (by omega : fuel ≠ 0)
    cases hcur
    exact .inl ⟨rfl, fun r hr => absurd hr not_mem_nil⟩
  | cons r rs ih =>
    obtain ⟨a, c⟩ := r
    intro rs1 current fuel hcur hcounts hfuel
    rw [length_cons] at hfuel
    obtain ⟨fuel, rfl⟩ := Nat.exists_eq_succ_of_ne_zero (by omega : fuel ≠ 0)
    cases hcur with
    | cons ha hrest =>
      have hc : (FreeRange.read mem a).count = c := hcounts (a, c) mem_cons_self
      by_cases hfits : count ≤ c
      · refine .inr ⟨[], a, c, rs, rfl, hfits, ?_⟩
        rw [BlockInfo.allocLoop, if_neg ha, hc, if_pos hfits, append_nil]
      · have hnext := ih (rs1 ++ [(a, c)]) (mem a) fuel hrest (fun r hr => hcounts r (mem_cons_of_mem _ hr)) (by omega)
        have hstep : b.allocLoop unit count mem (fuel + 1) (rs1.map Prod.fst).getLast? a =
            b.allocLoop unit count mem fuel (some a) (mem a) := by
          rw [BlockInfo.allocLoop, if_neg ha, hc, if_neg hfits]
          rfl
        rw [map_append, map_singleton, List.getLast?_concat] at hnext
        rw [hstep]
        rcases hnext with ⟨hrun, hall⟩ | ⟨rs3, a', c', rs4, rfl, hfits', hrun⟩
        · refine .inl ⟨hrun, fun r hr => ?_⟩
          rcases mem_cons.1 hr with rfl | hr
          · exact Nat.lt_of_not_le hfits
          · exact hall r hr
        · refine .inr ⟨(a, c) :: rs3, a', c', rs4, rfl, hfits', ?_⟩
          rw [hrun, append_assoc, singleton_append]

theorem BlockInfo.relink_eq_setLink (prev : Option ℕ) (target : ℕ) :
    relink prev target b.freeList mem = ((b.setLink prev target mem).1.freeList, (b.setLink prev target mem).2) := by
  cases prev <;> rfl

theorem BlockInfo.setLink_fields (prev : Option ℕ) (target : ℕ) :
    (b.setLink prev target mem).1 = { b with freeList := (b.setLink prev target mem).1.freeList } := by
  cases prev <;> rfl

theorem BlockInfo.setLink_mem {prev : Option ℕ} (target : ℕ) {w : ℕ} (hw : prev ≠ some w) :
    (b.setLink prev target mem).2 w = mem w := by
  cases prev with
  | none => rfl
  | some a => exact update_of_ne (fun hwa => hw (by rw [hwa])) _ _

theorem BlockInfo.setLink_spec {rs1 rest rest' : List (ℕ × ℕ)} {target : ℕ}
    (hthread : Thread mem 0 b.freeList ((rs1 ++ rest).map Prod.fst)) (htarget : Thread mem 0 target (rest'.map Prod.fst))
    (hcounts : ∀ r ∈ rs1 ++ rest', mem (r.1 + 8) % 2 ^ 32 = r.2) (hstarts : ((rs1 ++ rest').map Prod.fst).Nodup)
    (h16 : ∀ r ∈ rs1 ++ rest', 16 ∣ r.1) :
    Thread (b.setLink (rs1.map Prod.fst).getLast? target mem).2 0
      (b.setLink (rs1.map Prod.fst).getLast? target mem).1.freeList ((rs1 ++ rest').map Prod.fst) ∧
    ∀ r ∈ rs1 ++ rest', (b.setLink (rs1.map Prod.fst).getLast? target mem).2 (r.1 + 8) % 2 ^ 32 = r.2 := by
  rw [map_append] at hthread hstarts ⊢
  obtain ⟨hn1, -, hdisj⟩ := nodup_append.1 hstarts
  have hnew := hthread.relink hn1 htarget fun a ha ha' => hdisj a ha a ha' rfl
  rw [BlockInfo.relink_eq_setLink] at hnew
  refine ⟨hnew, fun r hr => ?_⟩
  rw [BlockInfo.setLink_mem, hcounts r hr]
  intro hlast
  -- the redirected word is the first one of a range
  obtain ⟨r', hr', heq⟩ := mem_map.1 (List.mem_of_getLast? hlast)
  have := h16 r hr
  have := h16 r' (mem_append_left _ hr')
  omega

variable {rs1 rs2 : List (ℕ × ℕ)} {a c : ℕ}

/-- What the ranges of a block are known to be like. -/
structure Carves.Facts (unit : ℕ) (b : BlockInfo) (ranges : List (ℕ × ℕ)) : Prop where
  starts : (ranges.map Prod.fst).Nodup
  nodup : (ranged unit ranges).Nodup
  dvd : ∀ r ∈ ranges, 16 ∣ r.1
  inside : ∀ x ∈ ranged unit ranges, x ∈ run b.physBase (b.totalBlocks * unit)
  pos : ∀ r ∈ ranges, r.1 ≠ 0

theorem Carves.facts (h : Carves unit mem b ranges live) (h16 : 16 ∣ unit) (hpos : 0 < unit)
    (haddr : Addressable (run b.physBase (b.totalBlocks * unit))) : Carves.Facts unit b ranges := by
  have hnodup := haddr.nodup
  rw [h.cells] at hnodup
  have hproper : ∀ r ∈ ranges, 0 < r.2 ∧ unit ∣ r.1 := fun r hr => h.proper r (mem_append_left _ hr)
  have hinside : ∀ x ∈ ranged unit ranges, x ∈ run b.physBase (b.totalBlocks * unit) := by
    intro x hx
    rw [h.cells, mem_add]
    exact .inl hx
  refine ⟨nodup_starts hpos (nodup_add.1 hnodup).1 fun r hr => (hproper r hr).1,
    (nodup_add.1 hnodup).1, fun r hr => h16.trans (hproper r hr).2, hinside, fun r hr hzero => haddr.pos ?_⟩
  rw [← hzero]
  exact hinside _ (self_mem_ranged hpos hr (hproper r hr).1)

section

variable (h : Carves unit mem b (rs1 ++ (a, c) :: rs2) live) (h16 : 16 ∣ unit) (hpos : 0 < unit)
  (haddr : Addressable (run b.physBase (b.totalBlocks * unit))) (hcount : 0 < count)
include h h16 hpos haddr hcount

theorem Carves.relinked (hfits : count ≤ c) {mem1 : Memory} {target : ℕ} {rest : List (ℕ × ℕ)}
    (hthread : Thread mem1 0 b.freeList ((rs1 ++ (a, c) :: rs2).map Prod.fst))
    (htarget : Thread mem1 0 target (rest.map Prod.fst)) (hcounts : ∀ r ∈ rs1 ++ rest, mem1 (r.1 + 8) % 2 ^ 32 = r.2)
    (hcells : run a (c * unit) + ranged unit rs2 = run a (count * unit) + ranged unit rest)
    (hproper : ∀ r ∈ rest, 0 < r.2 ∧ unit ∣ r.1)
    (hsame : ∀ w, w ∉ run b.physBase (b.totalBlocks * unit) → mem1 w = mem w) {b' : BlockInfo} {mem' : Memory}
    (hlink : b.setLink (rs1.map Prod.fst).getLast? target mem1 = (b', mem')) :
    Carves unit mem' { b' with allocatedBlocks := (b'.allocatedBlocks + count % 2 ^ 32) % 2 ^ 32 } (rs1 ++ rest)
      ((a, count) :: live) ∧
    b'.physBase = b.physBase ∧ b'.totalBlocks = b.totalBlocks ∧ b'.used = b.used ∧
      ∀ w, w ∉ run b.physBase (b.totalBlocks * unit) → mem' w = mem w := by
  obtain ⟨-, hnodup, -, hinside, -⟩ := h.facts h16 hpos haddr
  have hfields := @BlockInfo.setLink_fields mem1 b (rs1.map Prod.fst).getLast? target
  have hsum := h.sum_counts hpos
  have hallocated := h.allocated
  have hsmall := h.small
  simp only [map_append, map_cons, sum_append, sum_cons] at hsum
  have hall : ∀ r ∈ rs1 ++ rest, 0 < r.2 ∧ unit ∣ r.1 := by
    intro r hr
    rcases mem_append.1 hr with hr | hr
    · exact h.proper r (mem_append_left _ (mem_append_left _ hr))
    · exact hproper r hr
  have hranged : ranged unit (rs1 ++ (a, c) :: rs2) = run a (count * unit) + ranged unit (rs1 ++ rest) := by
    rw [ranged_append, ranged_append, ranged_cons, hcells]
    abel
  have hstarts : ((rs1 ++ rest).map Prod.fst).Nodup := by
    rw [hranged] at hnodup
    exact nodup_starts hpos (nodup_add.1 hnodup).2.1 fun r hr => (hall r hr).1
  have hspec := BlockInfo.setLink_spec hthread htarget hcounts hstarts fun r hr => h16.trans (hall r hr).2
  have hmem : ∀ w, w ∉ run b.physBase (b.totalBlocks * unit) → mem' w = mem w := by
    intro w hw
    have hother := @BlockInfo.setLink_mem mem1 b (rs1.map Prod.fst).getLast? target w fun hlast => by
      obtain ⟨r, hr, rfl⟩ := mem_map.1 (List.mem_of_getLast? hlast)
      have hr := mem_append_left ((a, c) :: rs2) hr
      exact hw (hinside _ (self_mem_ranged hpos hr (h.proper r (mem_append_left _ hr)).1))
    rw [hlink] at hother
    exact hother.trans (hsame w hw)
  rw [hlink] at hspec hfields
  simp only at hfields
  have hsame' : b'.physBase = b.physBase ∧ b'.totalBlocks = b.totalBlocks ∧ b'.used = b.used ∧
      b'.allocatedBlocks = b.allocatedBlocks := by
    rw [hfields]
    exact ⟨rfl, rfl, rfl, rfl⟩
  obtain ⟨hbase, htotal, hused, halloc⟩ := hsame'
  refine ⟨⟨hspec.1, hspec.2, ?_, ?_, ?_, ?_⟩, hbase, htotal, hused, hmem⟩
  · rw [hbase, htotal, h.cells, hranged, ranged_cons]
    abel
  · simp only [halloc, map_cons, sum_cons]
    omega
  · intro r hr
    simp only [mem_append, mem_cons] at hr
    rcases hr with hr | rfl | hr
    · exact hall r (mem_append.2 hr)
    · exact ⟨hcount, (h.proper (a, c) (by simp)).2⟩
    · exact h.proper r (mem_append_right _ hr)
  · rw [htotal]
    exact hsmall

theorem Carves.cut (hfits : count < c) :
    (∀ i < unit, a + count * unit + i ∈ run b.physBase (b.totalBlocks * unit)) ∧
    ∀ r ∈ rs1 ++ (a, c) :: rs2, ∀ v, write mem (a + count * unit) v r.1 = mem r.1 ∧
      write mem (a + count * unit) v (r.1 + 8) = mem (r.1 + 8) := by
  obtain ⟨-, hnodup, hdvd, hinside, -⟩ := h.facts h16 hpos haddr
  have hmem : (a, c) ∈ rs1 ++ (a, c) :: rs2 := by simp
  obtain ⟨d, rfl⟩ := Nat.exists_eq_add_of_lt hfits
  have hmul : (count + d + 1) * unit = count * unit + d * unit + unit := by ring
  have hwords : ∀ i < unit, a + count * unit + i ∈ run a ((count + d + 1) * unit) := fun i hi => mem_run.2 (by omega)
  have hcut : 16 ∣ a + count * unit := Nat.dvd_add (hdvd _ hmem) (h16.trans (Dvd.intro_left _ rfl))
  refine ⟨fun i hi => hinside _ (mem_ranged.2 ⟨_, hmem, hwords i hi⟩), fun r hr v => ?_⟩
  -- the cut lies inside the range, so no range starts there
  have hfresh : r.1 ≠ a + count * unit := by
    intro heq
    have hcases : r = (a, count + d + 1) ∨ r ∈ rs1 ++ rs2 := by
      simp only [mem_append, mem_cons] at hr ⊢
      tauto
    rcases hcases with rfl | hr'
    · have := Nat.mul_pos hcount hpos
      simp only at heq
      omega
    · rw [ranged_append, ranged_cons, add_left_comm, ← ranged_append] at hnodup
      refine disjoint_left.1 (nodup_add.1 hnodup).2.2 (hwords 0 hpos) ?_
      rw [Nat.add_zero, ← heq]
      exact self_mem_ranged hpos hr' (h.proper r (mem_append_left _ hr)).1
  have hr16 := hdvd r hr
  rw [write, update_of_ne (by omega), update_of_ne hfresh, update_of_ne (by omega),
    update_of_ne (by omega)]
  exact ⟨rfl, rfl⟩

theorem carve_spec (hfits : count ≤ c) :
    ∃ b' mem' ranges', b.carve unit count (rs1.map Prod.fst).getLast? a mem = (b', mem') ∧
      Carves unit mem' b' ranges' ((a, count) :: live) ∧ b'.physBase = b.physBase ∧ b'.totalBlocks = b.totalBlocks ∧
      b'.used = b.used ∧ ∀ w, w ∉ run b.physBase (b.totalBlocks * unit) → mem' w = mem w := by
  have hmem : (a, c) ∈ rs1 ++ (a, c) :: rs2 := by simp
  have hc : mem (a + 8) % 2 ^ 32 = c := h.counts (a, c) hmem
  have hthread := h.thread
  have hsub : ∀ r ∈ rs1 ++ rs2, r ∈ rs1 ++ (a, c) :: rs2 := by
    intro r hr
    simp only [mem_append, mem_cons] at hr ⊢
    exact hr.imp id .inr
  have htail : Thread mem 0 (mem a) (rs2.map Prod.fst) := by
    rw [map_append, map_cons] at hthread
    exact hthread.after
  rcases Nat.eq_or_lt_of_le hfits with hexact | hless
  · subst hexact
    rcases hlink : b.setLink (rs1.map Prod.fst).getLast? (mem a) mem with ⟨b', mem'⟩
    obtain ⟨hcarves, hrest⟩ := h.relinked h16 hpos haddr hcount le_rfl hthread htail (fun r hr => h.counts r (hsub r hr))
      rfl (fun r hr => h.proper r (mem_append_left _ (hsub r (mem_append_right _ hr)))) (fun _ _ => rfl) hlink
    refine ⟨_, _, _, ?_, hcarves, hrest⟩
    simp only [BlockInfo.carve, FreeRange.read, hc, if_true, hlink]
  · obtain ⟨hblock, hwords⟩ := h.cut h16 hpos haddr hcount hless
    have hunit : 16 ≤ unit := Nat.le_of_dvd hpos h16
    have hlt := haddr.lt _ (hblock 0 hpos)
    have hmulpos := Nat.mul_pos hcount hpos
    have hsplit : wadd a (wmul count unit) = a + count * unit := by
      rw [wadd, wmul_of_lt (by omega : count * unit < 2 ^ 64), Nat.mod_eq_of_lt (by omega)]
    have hc32 : c < 2 ^ 32 := by
      rw [← hc]
      exact Nat.mod_lt _ (by norm_num)
    have hcount32 : count % 2 ^ 32 = count := Nat.mod_eq_of_lt (by omega)
    have hwrite : write mem (a + count * unit) ⟨mem a, c - count⟩ (a + count * unit) = mem a ∧
        write mem (a + count * unit) ⟨mem a, c - count⟩ (a + count * unit + 8) = c - count := by
      rw [write, update_self, update_of_ne (by omega), update_self]
      exact ⟨rfl, rfl⟩
    have hthread1 : Thread (write mem (a + count * unit) ⟨mem a, c - count⟩) 0 b.freeList
        ((rs1 ++ (a, c) :: rs2).map Prod.fst) := by
      refine hthread.congr fun w hw => ?_
      obtain ⟨r, hr, rfl⟩ := mem_map.1 hw
      exact (hwords r hr _).1
    have htarget : Thread (write mem (a + count * unit) ⟨mem a, c - count⟩) 0 (a + count * unit)
        (((a + count * unit, c - count) :: rs2).map Prod.fst) := by
      refine .cons (by omega) ?_
      rw [hwrite.1]
      refine htail.congr fun w hw => ?_
      obtain ⟨r, hr, rfl⟩ := mem_map.1 hw
      exact (hwords r (hsub r (mem_append_right _ hr)) _).1
    have hcounts : ∀ r ∈ rs1 ++ (a + count * unit, c - count) :: rs2,
        write mem (a + count * unit) ⟨mem a, c - count⟩ (r.1 + 8) % 2 ^ 32 = r.2 := by
      intro r hr
      have hcases : r = (a + count * unit, c - count) ∨ r ∈ rs1 ++ rs2 := by
        simp only [mem_append, mem_cons] at hr ⊢
        tauto
      rcases hcases with rfl | hr
      · rw [hwrite.2]
        exact Nat.mod_eq_of_lt (by omega)
      · rw [(hwords r (hsub r hr) _).2, h.counts r (hsub r hr)]
    have hcells : run a (c * unit) + ranged unit rs2 =
        run a (count * unit) + ranged unit ((a + count * unit, c - count) :: rs2) := by
      rw [ranged_cons, ← add_assoc, ← run_add, ← Nat.add_mul, Nat.add_sub_cancel' hfits]
    have hproper : ∀ r ∈ (a + count * unit, c - count) :: rs2, 0 < r.2 ∧ unit ∣ r.1 := by
      intro r hr
      rcases mem_cons.1 hr with rfl | hr
      · exact ⟨Nat.sub_pos_of_lt hless, Nat.dvd_add (h.proper _ (mem_append_left _ hmem)).2 (Dvd.intro_left _ rfl)⟩
      · exact h.proper r (mem_append_left _ (hsub r (mem_append_right _ hr)))
    have hsame : ∀ w, w ∉ run b.physBase (b.totalBlocks * unit) →
        write mem (a + count * unit) ⟨mem a, c - count⟩ w = mem w := by
      intro w hw
      rw [write, update_of_ne, update_of_ne]
      · rintro rfl
        exact hw (hblock 0 hpos)
      · rintro rfl
        exact hw (hblock 8 (by omega))
    rcases hlink : b.setLink (rs1.map Prod.fst).getLast? (a + count * unit)
      (write mem (a + count * unit) ⟨mem a, c - count⟩) with ⟨b', mem'⟩
    obtain ⟨hcarves, hrest⟩ :=
      h.relinked h16 hpos haddr hcount hfits hthread1 htarget hcounts hcells hproper hsame hlink
    refine ⟨_, _, _, ?_, hcarves, hrest⟩
    simp only [BlockInfo.carve, FreeRange.read, hc, if_neg (Nat.ne_of_gt hless), hsplit, hcount32, hlink]

end

end Carve

end MaramOS
