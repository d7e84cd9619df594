import MaramOS.Proofs.TreeMapper
import MaramOS.Proofs.Virt

/-! The kernel half of all address spaces. A user's L4 table holds copies of the
kernel's entries, so the two agree as long as an entry leads to the same frame in
both. -/

namespace MaramOS

open Prog RadixTree

/-- Two entries that lead to the same frame, whatever it holds. -/
def SameFrame (e e' : PageTableEntry 3) : Prop := e = e' ∨ ∃ frame es es', e = .table frame es ∧ e' = .table frame es'

variable {e e' e'' : PageTableEntry 3} {k addr w : ℕ}

theorem SameFrame.refl (e : PageTableEntry 3) : SameFrame e e := .inl rfl

theorem SameFrame.symm (h : SameFrame e e') : SameFrame e' e := by
  rcases h with rfl | ⟨frame, es, es', rfl, rfl⟩
  · exact .refl e
  · exact .inr ⟨frame, es', es, rfl, rfl⟩

theorem SameFrame.trans (h : SameFrame e e') (h' : SameFrame e' e'') : SameFrame e e'' := by
  rcases h with rfl | ⟨frame, es, es', rfl, rfl⟩
  · exact h'
  · rcases h' with rfl | ⟨_, _, es'', heq, rfl⟩
    · exact .inr ⟨frame, es, es', rfl, rfl⟩
    · cases heq
      exact .inr ⟨frame, es, es'', rfl, rfl⟩

/-- The higher halves of two tables lead to the same frames. -/
def SameHalf (t t' : PageTable) : Prop := ∀ i : Fin 512, 256 ≤ i.val → SameFrame (t i) (t' i)

theorem SameHalf.trans {t t' t'' : PageTable} (h : SameHalf t t') (h' : SameHalf t' t'') : SameHalf t t'' :=
  fun i hi => (h i hi).trans (h' i hi)

theorem SameHalf.lookup {kernel user : PageTable} (h : SameHalf kernel user) (stale : PageTable)
    (hw : 256 ≤ (pageIndex w 3).val) : (seenThrough kernel stale user).lookup w = kernel.lookup w := by
  have hentry : seenThrough kernel stale user (pageIndex w 3) = kernel (pageIndex w 3) := by
    rw [seenThrough]
    rcases h _ hw with heq | ⟨frame, es, es', hkernel, huser⟩
    · rw [← heq]
      cases kernel (pageIndex w 3) with
      | empty => rfl
      | leaf x => rfl
      | table frame es => exact if_pos rfl
    · rw [hkernel, huser]
      exact if_pos rfl
  rw [PageTable.lookup, hentry, PageTable.lookup]

/-- The addresses of the pages that a region reaches into. -/
def VirtualRegion.pages (r : VirtualRegion) : Set ℕ :=
  {addr | r.start / pageSize 0 ≤ addr / pageSize 0 ∧ addr / pageSize 0 ≤ (r.start + r.size - 1) / pageSize 0}

def PageTable.Populated (t : PageTable) (i : Fin 512) : Prop := ∃ frame es, t i = .table frame es

theorem PageTable.Populated.of_sameFrame {t t' : PageTable} {i : Fin 512} (h : t'.Populated i)
    (hs : SameFrame (t i) (t' i)) :
    t.Populated i := by
  obtain ⟨frame, es, hes⟩ := h
  rcases hs with heq | ⟨frame', es', es'', heq, -⟩
  · exact ⟨frame, es, heq.trans hes⟩
  · exact ⟨frame', es', heq⟩

/-- An L4 entry that a region reaches into keeps a page which the region does not touch. -/
def VirtualRegion.Leaves (r : VirtualRegion) (t : PageTable) (i : Fin 512) : Prop :=
  ∃ w, pageIndex w 3 = i ∧ t.lookup w ≠ none ∧ ∀ k addr, r.Touches k addr → ¬SamePage k w addr

namespace VMemAllocator

variable {s s0 : VMemAllocator} {r : VirtualRegion}

theorem alloc_pageTable (count : ℕ) (s : VMemAllocator) : (alloc count s).2.pageTable = s.pageTable := by
  rcases alloc_cases count s with hrun | ⟨_, _, _, -, -, hrun⟩ <;> rw [hrun]

open Mapper.KeepsEntries

variable [Mapper] [Mapper.KeepsEntries]

theorem mapPage_sameHalf {phys : ℕ} {flags : PageTableFlags} (hk : k ≤ 2) (h : SameHalf s0.pageTable s.pageTable)
    (hpop : 256 ≤ (pageIndex addr 3).val → s.pageTable.Populated (pageIndex addr 3)) :
    SameHalf s0.pageTable (mapPage k addr phys flags s).2.pageTable := by
  refine h.trans fun i hi => ?_
  by_cases hne : i = pageIndex addr 3
  · subst hne
    obtain ⟨frame, es, hes⟩ := hpop hi
    obtain ⟨es', hes'⟩ := @mapTo_table _ _ k addr frame ⟨phys / pageSize k * pageSize k, flags⟩ _ s.frames es hk hes
    exact .inr ⟨frame, es, es', hes, hes'⟩
  · exact .inl (mapTo_other hk hne).symm

theorem map_sameHalf (phys : ℕ) (flags : PageTableFlags)
    (hpop : ∀ addr ∈ r.pages, 256 ≤ (pageIndex addr 3).val → s.pageTable.Populated (pageIndex addr 3)) :
    SameHalf s.pageTable (map r phys flags s).2.pageTable := by
  refine map_keeps (P := fun s' => SameHalf s.pageTable s'.pageTable) (fun k addr phys flags s' ht hs' => ?_) fun
    i _ => .refl _
  have hstop := ht.stop
  have hmem : addr ∈ r.pages := ⟨Nat.div_le_div_right ht.start, Nat.div_le_div_right (by omega)⟩
  exact mapPage_sameHalf ht.level hs' fun hi => (hpop addr hmem hi).of_sameFrame (hs' _ hi).symm

theorem unmapPage_sameHalf (hk : k ≤ 2) (h : SameHalf s0.pageTable s.pageTable) :
    SameHalf s0.pageTable (unmapPage k addr s).2.pageTable := by
  simp only [unmapPage]
  cases hrun : Mapper.unmap k addr s.pageTable with
  | error err => exact h
  | ok t =>
    refine h.trans fun i hi => ?_
    by_cases hne : i = pageIndex addr 3
    · subst hne
      exact .inr (unmap_table hk hrun)
    · exact .inl (unmap_other hk hrun hne).symm

theorem cleanUpAddrRange_sameHalf {first last : ℕ}
    (hleaves : ∀ addr, first / pageSize 0 ≤ addr / pageSize 0 → addr / pageSize 0 ≤ last / pageSize 0 →
      256 ≤ (pageIndex addr 3).val → s.pageTable.Populated (pageIndex addr 3) →
      ∃ w, pageIndex w 3 = pageIndex addr 3 ∧ s.pageTable.lookup w ≠ none) :
    SameHalf s.pageTable (cleanUpAddrRange first last s).2.pageTable := by
  intro i hi
  rcases cleanUp_entry (first / pageSize 0 * pageSize 0) (last / pageSize 0 * pageSize 0) s.pageTable i with
    hkept | ⟨frame, es, hes, ⟨addr, rfl, hfirst, hlast⟩, hrest⟩
  · exact .inl hkept.symm
  · rw [Nat.mul_div_cancel _ (pageSize_pos 0)] at hfirst hlast
    rcases hrest with ⟨es', hes'⟩ | hnone
    · exact .inr ⟨frame, es, es', hes, hes'⟩
    · -- a table that is removed would have something mapped behind it
      obtain ⟨w, hw, hfound⟩ := hleaves addr hfirst hlast hi ⟨frame, es, hes⟩
      exact absurd (hnone w hw) hfound

theorem free_sameHalf [Mapper.PartialMap]
    (hleaves : ∀ addr ∈ r.pages, 256 ≤ (pageIndex addr 3).val → s.pageTable.Populated (pageIndex addr 3) →
      r.Leaves s.pageTable (pageIndex addr 3)) :
    SameHalf s.pageTable (free r s).2.pageTable := by
  -- besides the frames, the pages that are not touched stay until the clean-up
  have hkeeps : SameHalf s.pageTable (free r s).2.pageTable ∧
      ∀ w, (∀ k addr, r.Touches k addr → ¬SamePage k w addr) →
        (free r s).2.pageTable.lookup w = s.pageTable.lookup w := by
    refine free_keeps (P := fun s' => SameHalf s.pageTable s'.pageTable ∧
      ∀ w, (∀ k addr, r.Touches k addr → ¬SamePage k w addr) → s'.pageTable.lookup w = s.pageTable.lookup w)
      (unmap_keeps (fun k addr s' ht hs' => ⟨unmapPage_sameHalf ht.level hs'.1, fun w hw => ?_⟩)
        (fun last s' hlast _ hs' => ?_) ⟨fun i _ => .refl _, fun _ _ => rfl⟩) fun s' _ hs' => hs'
    · rw [← hs'.2 w hw]
      rcases unmapPage_cases k addr s' with ⟨s'', hrun⟩ | ⟨err, hrun⟩
      · rw [hrun]
        exact (unmapPage_lookup ht.level hrun).2.2 w (hw k addr ht)
      · rw [hrun]
    · obtain ⟨s'', hrun, -, hsame⟩ := cleanUpAddrRange_lookup r.start last s'
      refine ⟨hs'.1.trans (cleanUpAddrRange_sameHalf fun addr hfirst hle hi hpop => ?_), fun w hw => ?_⟩
      · have hmem : addr ∈ r.pages := ⟨hfirst, by rwa [← hlast]⟩
        obtain ⟨w, hw, hfound, hkept⟩ := hleaves addr hmem hi (hpop.of_sameFrame (hs'.1 _ hi))
        exact ⟨w, hw, by rwa [hs'.2 w hkept]⟩
      · rw [hrun, hsame w, hs'.2 w hw]
  exact hkeeps.1

end VMemAllocator

/-- While there are users, `map` stays in L4 entries that lead to a table, and `free` leaves something
mapped behind every L4 entry it reaches into. -/
def KernelCall.Shares (s : AddressSpaces) : KernelCall → Prop
  | .map r _ _ => s.users = [] ∨
    ∀ addr ∈ r.pages, 256 ≤ (pageIndex addr 3).val → s.kernel.pageTable.Populated (pageIndex addr 3)
  | .free r => s.users = [] ∨
    ∀ addr ∈ r.pages, 256 ≤ (pageIndex addr 3).val → s.kernel.pageTable.Populated (pageIndex addr 3) →
      r.Leaves s.kernel.pageTable (pageIndex addr 3)
  | _ => True

namespace AddressSpaces

variable {s s' : AddressSpaces}

def Shared (s : AddressSpaces) : Prop := ∀ user ∈ s.users, SameHalf s.kernel.pageTable user

theorem Shared.kernel (h : s.Shared) {vmem : VMemAllocator}
    (hsame : s.users = [] ∨ SameHalf s.kernel.pageTable vmem.pageTable) : Shared { s with kernel := vmem } := by
  intro user huser
  rcases hsame with hnil | hsame
  · have hmem : user ∈ s.users := huser
    rw [hnil] at hmem
    exact absurd hmem List.not_mem_nil
  · exact fun i hi => (hsame i hi).symm.trans (h user huser i hi)

theorem Shared.activeTable (h : s.Shared) (active : Option ℕ) : SameHalf s.kernel.pageTable (s.activeTable active) := by
  rw [AddressSpaces.activeTable]
  cases active with
  | none => exact fun i _ => .refl _
  | some j =>
    rw [Option.bind_some]
    cases hj : s.users[j]? with
    | none => exact fun i _ => .refl _
    | some user => exact h user (List.mem_of_getElem? hj)

theorem Shared.call [Mapper] [Mapper.PartialMap] [Mapper.KeepsEntries] (h : s.Shared) (c : KernelCall)
    (hc : c.Shares s) : Shared (c.run s).2 := by
  cases c with
  | alloc count =>
    apply h.kernel
    rw [VMemAllocator.alloc_pageTable]
    exact .inr fun i _ => .refl _
  | map r phys flags =>
    apply h.kernel
    exact hc.imp_right fun hpop => VMemAllocator.map_sameHalf phys flags hpop
  | free r =>
    apply h.kernel
    exact hc.imp_right fun hleaves => VMemAllocator.free_sameHalf hleaves
  | newUser active =>
    intro user huser
    rcases List.mem_cons.1 huser with rfl | huser
    · intro i hi
      rw [userTable, if_neg (Nat.not_lt.2 hi)]
      exact h.activeTable active i hi
    · exact h user huser

/-- Every higher-half address has the same translation in all address spaces. -/
theorem kernel_half_shared [Mapper] [Mapper.PartialMap] [Mapper.KeepsEntries] (t : PageTable) (frames : Frames)
    {s : AddressSpaces}
    (h : Runs KernelCall.run (fun s c _ => c.Shares s) ⟨VMemAllocator.new t .kernel frames, []⟩ s) (stale : PageTable) :
    ∀ user ∈ s.users, ∀ w, 256 ≤ (pageIndex w 3).val →
      (seenThrough s.kernel.pageTable stale user).lookup w = s.kernel.pageTable.lookup w := by
  have hshared : s.Shared := by
    refine h.invariant _ (fun user huser => absurd huser List.not_mem_nil) fun s c r s' hs hrun hc => ?_
    have := hs.call c hc
    rwa [hrun] at this
  exact fun user huser w hw => (hshared user huser).lookup stale hw

/-- A kernel table with a last entry only, whose table has a hole in front of 511 huge pages. -/
def bootTable : PageTable := fun i =>
  if i.val = 511 then .table 7 fun j => if j.val = 0 then .empty else .leaf ⟨0, PageTableFlags.PRESENT⟩ else .empty

def boot : AddressSpaces := ⟨VMemAllocator.new bootTable .kernel ⟨[some 1, some 2, some 3], [], []⟩, []⟩

open TreeMapper

/-- The kernel has started with that table, and a user was made. -/
def booted : AddressSpaces := (KernelCall.run (.newUser none) boot).2

theorem kernel_half_shared_hole :
    let s := (KernelCall.run (.map ⟨2 ^ 64 - 2 ^ 39, 4096⟩ 0 0) booted).2
    s.kernel.pageTable.lookup (2 ^ 64 - 2 ^ 39) = some (0, ⟨0, PageTableFlags.PRESENT⟩) ∧
    ∀ user ∈ s.users, ∀ w, 256 ≤ (pageIndex w 3).val →
      (seenThrough s.kernel.pageTable s.kernel.pageTable user).lookup w = s.kernel.pageTable.lookup w := by
  have hpop : KernelCall.Shares booted (.map ⟨2 ^ 64 - 2 ^ 39, 4096⟩ 0 0) := by
    refine .inr fun addr haddr _ => ?_
    have hindex : pageIndex addr 3 = 511 := by
      obtain ⟨hlo, hhi⟩ := haddr
      apply Fin.ext
      simp only [pageIndex, pageSize] at hlo hhi ⊢
      omega
    rw [hindex]
    exact ⟨7, _, show bootTable 511 = _ from if_pos rfl⟩
  have huser : Runs KernelCall.run (fun s c _ => c.Shares s) boot booted := Runs.start.next trivial
  exact ⟨by decide +kernel, kernel_half_shared bootTable _ (huser.next hpop) _⟩

def grown : AddressSpaces :=
  (KernelCall.run (.map ⟨2 ^ 64 - 2 ^ 47, 4096⟩ 0 0) (KernelCall.run (.alloc 1) booted).2).2

/-- The page that `alloc` finds lies behind an empty L4 entry, so the user never sees it. -/
theorem grown_unseen :
    Runs KernelCall.run (fun _ _ _ => True) boot grown ∧
    (VMemAllocator.alloc 1 booted.kernel).1 = .ok (some ⟨2 ^ 64 - 2 ^ 47, 4096⟩) ∧
    grown.kernel.pageTable.lookup (2 ^ 64 - 2 ^ 47) = some (0, ⟨0, PageTableFlags.PRESENT⟩) ∧
    ∀ user ∈ grown.users, ∀ stale, (seenThrough grown.kernel.pageTable stale user).lookup (2 ^ 64 - 2 ^ 47) = none := by
  have huser : Runs KernelCall.run (fun _ _ _ => True) boot booted := Runs.start.next trivial
  have halloc : Runs KernelCall.run (fun _ _ _ => True) boot (KernelCall.run (.alloc 1) booted).2 := huser.next trivial
  refine ⟨halloc.next trivial, by decide +kernel, by decide +kernel, fun user huser stale => ?_⟩
  have hindex : pageIndex (2 ^ 64 - 2 ^ 47) 3 = 256 := by decide +kernel
  have hentry : user 256 = .empty := by
    rw [List.mem_singleton.1 huser]
    rfl
  rw [PageTable.lookup, hindex, seenThrough, hentry, find_empty]

end AddressSpaces

end MaramOS
