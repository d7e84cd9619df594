import MaramOS.Proofs.Tiling
import MaramOS.Spec.Hhdm

/-! The upgrade of the direct map keeps every translation of the direct map, and frees the
tables that it displaces. -/

namespace MaramOS

open RadixTree
open Function (update update_self)

section Upgrade

variable {virt phys count hhdmOffset k v w : ℕ} {t t' : PageTable} {freed : List ℕ} {l3 l3' : Fin 512 → PageTableEntry 2}

/-- The part of a table tree that a huge page of level `k` takes the place of, as the frames of its tables. -/
inductive Displaced (virt : ℕ) (l3 : Fin 512 → PageTableEntry 2) : ℕ → Multiset ℕ → Prop
  | l1 {l2Frame l1Frame : ℕ} {l2 : Fin 512 → PageTableEntry 1} {l1 : Fin 512 → PageTableEntry 0}
      (hl2 : l3 (pageIndex virt 2) = .table l2Frame l2) (hl1 : l2 (pageIndex virt 1) = .table l1Frame l1) :
      Displaced virt l3 1 {l1Frame}
  | l2 {l2Frame : ℕ} {l2 : Fin 512 → PageTableEntry 1} (hl2 : l3 (pageIndex virt 2) = .table l2Frame l2) :
      Displaced virt l3 2 (l2Frame ::ₘ ∑ i, labels (l2 i))

theorem coe_l1Frames (l2 : Fin 512 → PageTableEntry 1) : (l1Frames l2 : Multiset ℕ) = ∑ i, labels (l2 i) := by
  rw [l1Frames, coe_flatMap_finRange]
  refine Finset.sum_congr rfl fun i _ => ?_
  cases l2 i with
  | empty => rfl
  | leaf x => rfl
  | table frame l1 =>
    have hzero : ∑ j, labels (l1 j) = 0 := Finset.sum_eq_zero fun j _ => labels_zero (l1 j)
    rw [labels_table, hzero]
    rfl

/-- The outcome of an upgrade below an L3 table: nothing, or a huge page for the displaced tables. -/
structure Upgraded (virt phys k : ℕ) (l3 l3' : Fin 512 → PageTableEntry 2) (freed : List ℕ) : Prop where
  size : k = 1 ∨ k = 2
  aligned : pageSize k ∣ phys
  displaced : Displaced virt l3 k freed
  inside : ∀ d : ℕ → Fin 512, RadixTree.Agree k 3 d (pageIndex virt) → find d (l3' (d 2)) = some (k, ⟨phys, hhdmFlags⟩)
  outside : ∀ d : ℕ → Fin 512, ¬RadixTree.Agree k 3 d (pageIndex virt) → find d (l3' (d 2)) = find d (l3 (d 2))
  frames : ∑ i, labels (l3' i) + (freed : Multiset ℕ) = ∑ i, labels (l3 i)

theorem agree_two {d d' : ℕ → Fin 512} : RadixTree.Agree 2 3 d d' ↔ d 2 = d' 2 := by
  rw [agree_succ le_rfl]
  exact ⟨fun h => h.1, fun h => ⟨h, agree_self⟩⟩

theorem agree_one {d d' : ℕ → Fin 512} : RadixTree.Agree 1 3 d d' ↔ d 2 = d' 2 ∧ d 1 = d' 1 := by
  rw [agree_succ (by norm_num), agree_succ le_rfl]
  exact ⟨fun h => ⟨h.1, h.2.1⟩, fun h => ⟨h.1, h.2, agree_self⟩⟩

theorem sum_labels_update {n : ℕ} {es : Fin 512 → PageTableEntry n} {i : Fin 512} {e : PageTableEntry n} {lost : Multiset ℕ}
    (h : labels e + lost = labels (es i)) : ∑ j, labels (update es i e j) + lost = ∑ j, labels (es j) := by
  have hupdate := @labels_update 512 n ℕ MappedPage 0 es i e
  rw [labels_table, labels_table, Multiset.cons_add, Multiset.cons_add, Multiset.cons_inj_right] at hupdate
  refine add_right_cancel (b := labels e) ?_
  calc _ = ∑ j, labels (update es i e j) + (labels e + lost) := by rw [add_assoc, add_comm lost]
    _ = ∑ j, labels (update es i e j) + labels (es i) := by rw [h]
    _ = ∑ j, labels (es j) + labels e := hupdate

theorem upgradeL3_cases (virt phys count : ℕ) (l3 : Fin 512 → PageTableEntry 2) :
    upgradeL3 virt phys count l3 = (l3, []) ∨
      ∃ k, count = pageSize k / pageSize 0 ∧
        Upgraded virt phys k l3 (upgradeL3 virt phys count l3).1 (upgradeL3 virt phys count l3).2 := by
  rw [upgradeL3]
  split_ifs with hgiant hhuge
  · cases hl2 : l3 (pageIndex virt 2) with
    | empty => exact .inl rfl
    | leaf x => exact .inl rfl
    | table l2Frame l2 =>
      have hfreed : ((l1Frames l2 ++ [l2Frame] : List ℕ) : Multiset ℕ) = l2Frame ::ₘ ∑ i, labels (l2 i) := by
        rw [← Multiset.coe_add, coe_l1Frames, Multiset.coe_singleton, add_comm, Multiset.singleton_add]
      simp only
      refine .inr ⟨2, hgiant.1.trans (by decide), .inr rfl, hgiant.2, ?_, fun d hd => ?_, fun d hd => ?_, ?_⟩
      · rw [hfreed]
        exact .l2 hl2
      · rw [agree_two.1 hd, update_self, find_leaf]
      · rw [Function.update_of_ne fun h => hd (agree_two.2 h)]
      · refine sum_labels_update ?_
        rw [hfreed, hl2]
        exact zero_add _
  · cases hl2 : l3 (pageIndex virt 2) with
    | empty => exact .inl rfl
    | leaf x => exact .inl rfl
    | table l2Frame l2 =>
      simp only
      cases hl1 : l2 (pageIndex virt 1) with
      | empty => exact .inl rfl
      | leaf x => exact .inl rfl
      | table l1Frame l1 =>
        simp only
        refine .inr ⟨1, hhuge.1.trans (by decide), .inl rfl, hhuge.2, .l1 hl2 hl1, fun d hd => ?_, fun d hd => ?_, ?_⟩
        · obtain ⟨htwo, hone⟩ := agree_one.1 hd
          rw [htwo, update_self, find_update, if_pos hone, find_leaf]
        · by_cases htwo : d 2 = pageIndex virt 2
          · rw [htwo, update_self, find_update, if_neg fun hone => hd (agree_one.2 ⟨htwo, hone⟩), hl2]
          · rw [Function.update_of_ne htwo]
        · have hzero : ∑ j, labels (l1 j) = 0 := Finset.sum_eq_zero fun j _ => labels_zero (l1 j)
          have hinner : ∑ j, labels (update l2 (pageIndex virt 1) (leaf ⟨phys, hhdmFlags⟩) j) +
              (([l1Frame] : List ℕ) : Multiset ℕ) = ∑ j, labels (l2 j) := by
            refine sum_labels_update ?_
            rw [hl1, labels_table, hzero]
            exact zero_add _
          refine sum_labels_update ?_
          rw [hl2, labels_table, labels_table, Multiset.cons_add, hinner]
  · exact .inl rfl

def allFrames (t : PageTable) : Multiset ℕ := ∑ i, labels (t i)

theorem tryUpgradeHhdm_cases (h : tryUpgradeHhdm hhdmOffset phys count t = some (t', freed)) :
    canonicalAddr (wadd phys hhdmOffset) = true ∧ (t' = t ∧ freed = [] ∨
      ∃ k l3Frame l3 l3', count = pageSize k / pageSize 0 ∧ t (pageIndex (wadd phys hhdmOffset) 3) = .table l3Frame l3 ∧
        t' = update t (pageIndex (wadd phys hhdmOffset) 3) (.table l3Frame l3') ∧
        Upgraded (wadd phys hhdmOffset) phys k l3 l3' freed) := by
  rw [tryUpgradeHhdm] at h
  simp only at h
  split_ifs at h with hcanonical
  refine ⟨hcanonical, ?_⟩
  cases hl3 : t (pageIndex (wadd phys hhdmOffset) 3) with
  | empty =>
    rw [hl3] at h
    cases h
    exact .inl ⟨rfl, rfl⟩
  | leaf x =>
    rw [hl3] at h
    cases h
    exact .inl ⟨rfl, rfl⟩
  | table l3Frame l3 =>
    rw [hl3] at h
    cases h
    rcases upgradeL3_cases (wadd phys hhdmOffset) phys count l3 with hsame | ⟨k, hcount, hupgraded⟩
    · rw [hsame, ← hl3, Function.update_eq_self]
      exact .inl ⟨rfl, rfl⟩
    · exact .inr ⟨k, l3Frame, l3, _, hcount, rfl, rfl, hupgraded⟩

theorem Upgraded.lookup {l3Frame : ℕ} (h : Upgraded virt phys k l3 l3' freed)
    (hl3 : t (pageIndex virt 3) = .table l3Frame l3)
    (v : ℕ) :
    (SamePage k v virt → PageTable.lookup (update t (pageIndex virt 3) (.table l3Frame l3')) v =
      some (k, ⟨phys, hhdmFlags⟩)) ∧
    (¬SamePage k v virt → PageTable.lookup (update t (pageIndex virt 3) (.table l3Frame l3')) v = t.lookup v) := by
  have hk : k ≤ 3 := by
    have := h.size
    omega
  rw [PageTable.lookup_update, PageTable.samePage_iff hk]
  constructor
  · rintro ⟨hroot, hagree⟩
    rw [if_pos hroot]
    exact h.inside _ hagree
  · intro hnot
    split_ifs with hroot
    · rw [PageTable.lookup, hroot, hl3]
      exact h.outside _ fun hagree => hnot ⟨hroot, hagree⟩
    · rfl

/-- A huge page that begins at a physical address translates as the direct map does, also where the sum of the address
and the offset wraps. -/
theorem direct_offset (hoffset : hhdmOffset < 2 ^ 64) (hphys : phys < 2 ^ 64) (hk : k ≤ 2) (hdvd : pageSize k ∣ phys)
    (hlow : wadd phys hhdmOffset ≤ v) (hhigh : v < wadd phys hhdmOffset + pageSize k) :
    phys + (v - wadd phys hhdmOffset) = wsub v hhdmOffset := by
  have hfits : phys + pageSize k ≤ 2 ^ 64 := by
    obtain ⟨c, rfl⟩ := hdvd
    interval_cases k <;> simp only [pageSize] at hphys ⊢ <;> omega
  simp only [wadd, wsub] at hlow hhigh ⊢
  split_ifs <;> omega

/-- An upgrade keeps the translations of the direct map and frees the tables it displaces, each once; it leaves all
addresses alone but those of the new huge page. -/
theorem upgrade_preserves_direct_map {direct : Set ℕ} (hoffset : pageSize 2 ∣ hhdmOffset) (hword : hhdmOffset < 2 ^ 64)
    (hphys : phys < 2 ^ 64) (hcanonical : ∀ v ∈ direct, canonicalAddr v = true)
    (hdirect : ∀ v ∈ direct, ∀ q, t.translate v = some q → q = wsub v hhdmOffset)
    (hrun : tryUpgradeHhdm hhdmOffset phys count t = some (t', freed)) :
    (∀ v ∈ direct, ∀ q, t.translate v = some q → t'.translate v = some q) ∧
    (freed : Multiset ℕ) + allFrames t' = allFrames t ∧
    (t' = t ∧ freed = [] ∨
      ∃ k l3Frame l3, count = pageSize k / pageSize 0 ∧ t (pageIndex (wadd phys hhdmOffset) 3) = .table l3Frame l3 ∧
        Displaced (wadd phys hhdmOffset) l3 k freed ∧
        ∀ v, canonicalAddr v = true → ¬(wadd phys hhdmOffset ≤ v ∧ v < wadd phys hhdmOffset + pageSize k) →
          t'.lookup v = t.lookup v) := by
  obtain ⟨hvirt, ⟨rfl, rfl⟩ | ⟨k, l3Frame, l3, l3', hcount, hl3, rfl, hupgraded⟩⟩ := tryUpgradeHhdm_cases hrun
  · exact ⟨fun _ _ _ h => h, zero_add _, .inl ⟨rfl, rfl⟩⟩
  have hlevel : k ≤ 2 := by
    have := hupgraded.size
    omega
  have haligned : pageSize k ∣ wadd phys hhdmOffset := by
    have hwrap : pageSize k ∣ 2 ^ 64 := pow_dvd_pow 2 (by omega)
    rw [wadd, Nat.dvd_mod_iff hwrap]
    exact Nat.dvd_add hupgraded.aligned ((pageSize_dvd hlevel).trans hoffset)
  refine ⟨fun v hv q hq => ?_, ?_, .inr ⟨k, l3Frame, l3, hcount, hl3, hupgraded.displaced, fun v hv hout => ?_⟩⟩
  · have hlookup := hupgraded.lookup hl3 v
    have hwindow := samePage_iff_canonical hlevel haligned hvirt (hcanonical v hv)
    by_cases hsame : SamePage k v (wadd phys hhdmOffset)
    · -- the huge page translates as the direct map does
      obtain ⟨hlow, hhigh⟩ := hwindow.1 hsame
      have hoffset' : v % pageSize k = v - wadd phys hhdmOffset := by
        obtain ⟨c, hc⟩ := haligned
        rw [show v = v - wadd phys hhdmOffset + pageSize k * c by omega, Nat.add_mul_mod_self_left,
          Nat.mod_eq_of_lt (by omega)]
        omega
      rw [PageTable.translate, hlookup.1 hsame, Option.map_some, hoffset', hdirect v hv q hq,
        ← direct_offset hword hphys hlevel hupgraded.aligned hlow hhigh]
    · rw [PageTable.translate, hlookup.2 hsame]
      exact hq
  · rw [add_comm]
    refine sum_labels_update ?_
    rw [hl3, labels_table, labels_table, Multiset.cons_add, hupgraded.frames]
  · exact (hupgraded.lookup hl3 v).2 fun hsame => hout ((samePage_iff_canonical hlevel haligned hvirt hv).1 hsame)

/-- A direct map of 2 MiB in pages of 4 KiB, at the start of the upper half. -/
def smallPages : PageTable :=
  update (fun _ => .empty) 256
    (.table 1 (update (fun _ => .empty) 0
      (.table 2 (update (fun _ => .empty) 1 (.table 3 fun i => .leaf ⟨0x200000 + i * 4096, 1⟩)))))

theorem smallPages_translate {v q : ℕ} (hv : 2 ^ 64 - 2 ^ 47 + 0x200000 ≤ v ∧ v < 2 ^ 64 - 2 ^ 47 + 0x400000)
    (hq : smallPages.translate v = some q) : q = wsub v (2 ^ 64 - 2 ^ 47) := by
  have hthree : pageIndex v 3 = 256 := by
    rw [pageIndex, Fin.ext_iff]
    simp only [pageSize]
    change _ = 256
    omega
  have htwo : pageIndex v 2 = 0 := by
    rw [pageIndex, Fin.ext_iff]
    simp only [pageSize]
    change _ = 0
    omega
  have hone : pageIndex v 1 = 1 := by
    rw [pageIndex, Fin.ext_iff]
    simp only [pageSize]
    change _ = 1
    omega
  have hlookup : smallPages.lookup v = some (0, ⟨0x200000 + (pageIndex v 0).val * 4096, 1⟩) := by
    rw [PageTable.lookup, hthree, smallPages, update_self, find_table, htwo, update_self, find_table, hone,
      update_self, find_table, find_leaf]
  rw [PageTable.translate, hlookup, Option.map_some] at hq
  cases hq
  rw [wsub_of_le (by omega)]
  simp only [pageIndex, pageSize]
  omega

theorem upgrade_preserves_small :
    ∃ t', tryUpgradeHhdm (2 ^ 64 - 2 ^ 47) 0x200000 512 smallPages = some (t', [3]) ∧
      ∀ v ∈ {v | 2 ^ 64 - 2 ^ 47 + 0x200000 ≤ v ∧ v < 2 ^ 64 - 2 ^ 47 + 0x400000},
        ∀ q, smallPages.translate v = some q → t'.translate v = some q := by
  have hrun : (tryUpgradeHhdm (2 ^ 64 - 2 ^ 47) 0x200000 512 smallPages).map (·.2) = some [3] := by decide +kernel
  obtain ⟨⟨t', freed⟩, hrun, rfl⟩ := Option.map_eq_some_iff.1 hrun
  refine ⟨t', hrun, (upgrade_preserves_direct_map (by decide) (by decide) (by decide) (fun v hv => ?_)
    (fun v hv q hq => ?_) hrun).1⟩
  · obtain ⟨hlow, hhigh⟩ := hv
    simp only [canonicalAddr, Bool.or_eq_true, Bool.and_eq_true, decide_eq_true_eq]
    omega
  · exact smallPages_translate hv hq

end Upgrade

end MaramOS
