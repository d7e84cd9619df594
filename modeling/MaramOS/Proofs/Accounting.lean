import MaramOS.Proofs.Creation
import MaramOS.Proofs.ReadWrite

/-! Which bits of the bitmap a `write` or a `delete` changes. Besides the sectors of
the file or of the subtree these are the blocks that the parent directory no longer
needs: it is written back with as few blocks as its children take. -/

namespace MaramOS

open List Prog Volume LemonFS
open Filename (fromStr)

section Bits

variable {s s' : LemonFS} {dir : Directory} {chain inner chain' : List ℕ} {slots : List Slot} {v₁ : Volume}
  {children' : List DirectoryEntry}

theorem LemonFS.Ready.synced_free (h : Ready s dir chain slots inner) {t : List ℕ}
    (ht : s.toVolume.Touches t v₁) (hts : t ⊆ inner)
    (hs : Synced { dir with children := children' } chain chain' v₁ s'.toVolume)
    (hle : children'.length ≤ dir.children.length) :
    (∀ x ∈ chain', x ∈ chain) ∧ ∀ x, s'.toVolume.Free x ↔ v₁.Free x ∨
      x ∈ chain.drop (max 1 (divCeil children'.length 8)) := by
  have hneeded : Directory.blocksNeeded { dir with children := children' } = max 1 (divCeil children'.length 8) :=
    max_comm _ _
  have hstay := h.no_growth hle
  have hcut := hs.chain_eq (by rw [hneeded, max_comm]; omega)
  have hfree := hs.free
  rw [hneeded] at hcut hfree
  have hnodup := (nodup_append.1 h.nodup).1
  rw [← take_append_drop (max 1 (divCeil children'.length 8)) chain] at hnodup
  refine ⟨fun x hx => mem_of_mem_take (hcut ▸ hx), fun x => ?_⟩
  rw [hfree, and_iff_left_iff_imp, hcut]
  rintro (hx | hx) hin
  · exact (h.chain_kept ht hts (mem_of_mem_take hin)).2 hx
  · exact disjoint_of_nodup_append hnodup hin hx

end Bits

/-- After a successful `write` the used bits are those before without the old blocks of the file and without the
blocks its directory no longer needs, and with the new blocks of the file. These are pairwise distinct, none belongs to
the rest of the tree, and eight for each page hold the data. -/
theorem write_accounts (s s' : LemonFS) (path : Path) (src : PhysPage) (hs : s.Consistent)
    (hrun : write path src s = (.ok (), s')) :
    ∃ dir f chain slots ind ext dir' f' ind' ext', s.getParent path = .ok dir ∧
      dir.getChild path.name = some (.file f) ∧ LinkChain s.disk f.head ind ext ∧
      DirChain s.disk dir.head chain slots ∧ s'.getParent path = .ok dir' ∧
      dir'.getChild path.name = some (.file f') ∧ LinkChain s'.disk f'.head ind' ext' ∧
      (∀ x, s'.toVolume.Free x ↔ (s.toVolume.Free x ∨ x ∈ ind ++ fileBlocks ext) ∧ x ∉ ind' ++ fileBlocks ext' ∨
        x ∈ chain.drop (max 1 (divCeil dir.children.length 8))) ∧
      (ind' ++ fileBlocks ext').Nodup ∧
      (∀ chain₀ es owned₀, s.Holds chain₀ es owned₀ → ∀ x ∈ ind' ++ fileBlocks ext', x ∈ chain₀ ++ owned₀ →
        x ∈ ind ++ fileBlocks ext) ∧
      (fileBlocks ext').length = 8 * src.count := by
  have hi := hs.inv
  have hplain : (Call.write path src).Plain s := plain_of_noSymlink hi hs.noSymlink
  have hcall : (Call.write path src).run s = (.ok (), s') := hrun
  cases outcome_of_run hi hplain.live hcall with
  | @written _ _ dir chain₀ owned₀ before chain inner after chain' es slots l₁ l₂ f f' i₁ ind i₂ lbas ext v₁ _ hloc hw =>
    have hat := hloc.at_dir
    have hr := hw.rewritten
    -- the entry that is found afterwards, in the cached root or parsed again
    have hfound : ∃ dir' g, s'.getParent path = .ok dir' ∧ dir'.getChild path.name = some (.file g) ∧ g.head = f'.head := by
      cases hroot : path.parent.isRoot with
      | true => exact ⟨s'.rootDir, f', getParent_root hroot, hw.cached hroot, rfl⟩
      | false =>
        obtain ⟨dir', g, hpar, hget, hhead, -⟩ := hw.reopened hloc hplain hroot
        exact ⟨dir', g, hpar, hget, hhead⟩
    obtain ⟨dir', g, hpar', hget', hhead⟩ := hfound
    have hchildren : (l₁ ++ DirectoryEntry.file f' :: l₂).length = dir.children.length := by
      rw [hw.child.children, List.length_append, List.length_append, List.length_cons, List.length_cons]
    obtain ⟨-, hfree⟩ := hat.ready.synced_free hr.touches hw.child.own_subset hw.synced hchildren.le
    rw [hchildren] at hfree
    refine ⟨dir, f, chain, slots, ind, ext, dir', g, lbas, _, hloc.parent, hw.child.getChild, hw.link,
      hat.focus.listing, hpar', hget', hhead ▸ hw.link_after hat, ?_, ?_, ?_, ?_⟩
    · intro x
      rw [hfree, hr.free, hr.covers]
    · rw [hr.covers]
      exact hr.nodup
    · intro chain₁ es₁ owned₁ hh x hx hin
      rw [hr.covers] at hx
      exact (hr.members x hx).resolve_right (hh.used x hin)
    · rw [hr.covers, hr.length]

/-- One page written to a new file. -/
theorem write_accounts_page :
    ∃ s s', s.Consistent ∧ write ⟨[0x2F, 0x61]⟩ (PhysPage.zeroed 1) s = (.ok (), s') ∧
      ∃ dir' f' ind' ext', s'.getParent ⟨[0x2F, 0x61]⟩ = .ok dir' ∧
        dir'.getChild (Path.name ⟨[0x2F, 0x61]⟩) = some (.file f') ∧ LinkChain s'.disk f'.head ind' ext' ∧
        (ind' ++ fileBlocks ext').Nodup ∧ (fileBlocks ext').length = 8 := by
  obtain ⟨s, s', hs, hrun⟩ := exists_written
  obtain ⟨_, _, _, _, _, _, dir', f', ind', ext', -, -, -, -, hpar, hget, hlink, -, hnodup, -, hlength⟩ :=
    write_accounts s s' ⟨[0x2F, 0x61]⟩ (PhysPage.zeroed 1) hs.consistent hrun
  exact ⟨s, s', hs.consistent, hrun, dir', f', ind', ext', hpar, hget, hlink, hnodup, hlength⟩

section Surplus

/-- A root block with one file `a`, whose sector is 4, and a second block, 3. -/
def longRootBlock : Sector := (singleFile (fromStr [0x61]) ⟨4, 1⟩ ⟨3, 512⟩).encode

theorem longRoot_listing {d : Disk} (hn : 4099 < d.sectorCount) (h : d.sectors 4099 = longRootBlock)
    (hzero : d.sectors 3 = Sector.zero) :
    DirChain d ⟨4099, 512⟩ [4099, 3] [⟨fromStr [0x61], .file, ⟨4, 1⟩⟩] := by
  have hread : d.At 4099 longRootBlock := ⟨hn, h⟩
  have hnext : (DirBlock.decode longRootBlock).next = ⟨3, 512⟩ :=
    next_single _ _ _ ⟨by norm_num, by norm_num⟩
  have hrest : DirChain d (DirBlock.decode longRootBlock).next [3] [] := by
    rw [hnext]
    exact dirChain_zero (by omega) hzero
  have hchain := @DirChain.block d ⟨4099, 512⟩ _ _ _ rfl hread hrest
  rwa [longRootBlock, slots_single _ _ _ ⟨by norm_num, by norm_num⟩ rfl] at hchain

theorem Filled.grab {a : ℕ} {v : Volume} (h : Filled a v) (ha : a < 4099) : ∃ v', Takes [a] v v' ∧ Filled (a + 1) v' := by
  have hspec := @allocSector_spec v fun x hx => by have := (h.free x).1 hx; omega
  rcases hrun : allocSector v with ⟨e | x, v'⟩
  · exact absurd (wp_error hspec hrun).2.2 (h.available_ne_nil ha)
  · have ht := wp_ok hspec hrun
    obtain ⟨hx, hfill⟩ := h.takes ht
    obtain rfl : x = a := by simpa using hx
    exact ⟨v', ht, hfill⟩

theorem exists_longRoot :
    ∃ s : LemonFS, s.Consistent ∧ Filled 5 s.toVolume ∧ DirChain s.disk s.rootPtr [4099, 3]
      [⟨fromStr [0x61], .file, ⟨4, 1⟩⟩] ∧ s.root = [.file ⟨fromStr [0x61], 0, ⟨4, 1⟩, []⟩] := by
  obtain ⟨s0, h0⟩ := exists_blank
  have hsmall := h0.small
  have hf := h0.facts
  obtain ⟨v₁, ht1, hfill1⟩ := hsmall.filled.grab (by norm_num)
  obtain ⟨v2, ht2, hfill2⟩ := hfill1.grab (by norm_num)
  have ht := ht1.append ht2
  let s : LemonFS :=
    { s0 with
      disk := { s0.disk with sectors := Function.update s0.disk.sectors 4099 longRootBlock }
      bitmap := v2.bitmap
      root := [.file ⟨fromStr [0x61], 0, ⟨4, 1⟩, []⟩] }
  have hcount : s.disk.sectorCount = 4101 := hsmall.filled.sectorCount
  have hfill : Filled 5 s.toVolume := ⟨hcount, hfill2.dataStart, hfill2.length, by norm_num, by norm_num, hfill2.free⟩
  have hptr : s.rootPtr = ⟨4099, 512⟩ := by
    rw [rootPtr]
    exact congrArg (LinkPointer.mk · 512) hsmall.dataEnd
  have hlisting : DirChain s.disk s.rootPtr [4099, 3] [⟨fromStr [0x61], .file, ⟨4, 1⟩⟩] := by
    rw [hptr]
    have hblock : s.disk.sectors 4099 = longRootBlock := Function.update_self 4099 longRootBlock s0.disk.sectors
    refine longRoot_listing (by omega) hblock ?_
    have hdata := hf.data 3 (by rw [hsmall.dataStart]) (by rw [hsmall.dataEnd]; norm_num)
    have hother : s.disk.sectors 3 = s0.disk.sectors 3 :=
      Function.update_of_ne (show 3 ≠ 4099 by norm_num) longRootBlock s0.disk.sectors
    exact hother.trans hdata
  have htouches : s0.toVolume.Touches [4099] s.toVolume := by
    refine ⟨⟨rfl, ht.shape.dataStart, ht.shape.length⟩, fun x hx _ => ?_, fun x _ hx => ?_⟩
    · exact Function.update_of_ne (ne_of_not_mem_cons hx) longRootBlock s0.disk.sectors
    · exact ((ht.free x).1 hx).1
  have hmounted : s.Mounted := by
    refine hsmall.inv.mounted.update rfl htouches (fun x hx => ?_) fun x hx hfree' => ?_
    · obtain rfl := mem_singleton.1 hx
      rw [hsmall.dataStart, hsmall.dataEnd]
      norm_num
    · obtain rfl := mem_singleton.1 hx
      have := (hfill.free _).1 hfree'
      omega
  refine ⟨s, ⟨hmounted, [4099, 3], _, [4], ⟨hlisting, ?_, by decide, ?_, ?_⟩, rfl, fun e hin => ?_⟩, hfill, hlisting, rfl⟩
  · have hlink : LinkChain s.disk ⟨4, 1⟩ [] [⟨4, 1⟩] := .extent rfl rfl
    exact @Owns.file s.disk ⟨fromStr [0x61], .file, ⟨4, 1⟩⟩ [] [] [] [⟨4, 1⟩] rfl hlink .nil
  · intro x hx
    have hin : x = 3 ∨ x = 4 := by simpa using hx
    have hstart : s.superblock.dataStart = 3 := hsmall.dataStart
    have hend : s.superblock.dataEnd = 4099 := hsmall.dataEnd
    omega
  · intro x hx
    rw [hfill.free]
    simp only [cons_append, nil_append, mem_cons, not_mem_nil, or_false] at hx
    omega
  · cases hin with
    | here he =>
      obtain rfl := mem_singleton.1 he
      exact fun h => by cases h
    | inside hmem hk =>
      obtain rfl := mem_singleton.1 hmem
      cases hk

/-- The root has a block more than it needs. A `write` to its file gives it back, though it is no block of the file. -/
theorem write_frees_directory_block :
    ∃ s s' f ind ext, s.Consistent ∧ write ⟨[0x2F, 0x61]⟩ (PhysPage.zeroed 1) s = (.ok (), s') ∧
      s.rootDir.getChild (Path.name ⟨[0x2F, 0x61]⟩) = some (.file f) ∧ LinkChain s.disk f.head ind ext ∧
      ∃ x, ¬s.toVolume.Free x ∧ x ∉ ind ++ fileBlocks ext ∧ s'.toVolume.Free x := by
  obtain ⟨s, hs, hfill, hlisting, hroot⟩ := exists_longRoot
  obtain ⟨chain₀, es, owned₀, before, chain, slots, inner, after, hat⟩ := hs.inv.at fun _ _ _ => .root
  obtain ⟨rfl, -⟩ := hat.focus.listing.unique hlisting
  have hget : s.rootDir.getChild (Path.name ⟨[0x2F, 0x61]⟩) =
      some (.file ⟨fromStr [0x61], 0, ⟨4, 1⟩, []⟩) := getChild_rootDir hroot rfl
  have hlink : LinkChain s.disk ⟨4, 1⟩ [] [⟨4, 1⟩] := .extent rfl rfl
  obtain ⟨-, -, hroom⟩ := hfill.room (n := 8 * (PhysPage.zeroed 1).count) (by decide) (by decide)
  obtain ⟨s', l₁, l₂, i₁, i₂, f', lbas, v₁, chain', hrun, hw⟩ :=
    write_ok hat (getParent_root rfl) rfl Nat.one_pos hget hlink hroom
  have hlength : (l₁ ++ DirectoryEntry.file f' :: l₂).length = 1 := by
    have := congrArg List.length (hroot.symm.trans hw.child.children)
    simpa using this.symm
  obtain ⟨-, hfree⟩ := hat.ready.synced_free hw.rewritten.touches hw.child.own_subset hw.synced
    (by rw [hlength, rootDir, hroot]; rfl)
  refine ⟨s, s', _, [], [⟨4, 1⟩], hs, hrun, hget, hlink, 3, ?_, by decide, ?_⟩
  · rw [hfill.free]
    norm_num
  · rw [hfree, hlength]
    exact .inr (by decide)

end Surplus

theorem Agree.eq_of_noSymlink {es es' : List Slot} (h : Agree es es') (hes : NoSymlink es) : es = es' := by
  induction h with
  | nil => rfl
  | @cons e e' _ _ hab _ ih =>
    rw [hab.eq (hes e mem_cons_self), ih fun x hx => hes x (mem_cons_of_mem _ hx)]

/-- After a successful `delete` the used bits are those before without the sectors of the subtree, which are zero on
disk, and without the blocks its directory no longer needs; the directory lists what it listed without the entry. -/
theorem delete_frees_subtree (s s' : LemonFS) (path : Path) (hs : s.Consistent)
    (hnames : Listings (fun es => (es.map fun e => e.name.toStr).Nodup) s) (hrun : delete path s = (.ok (), s')) :
    ∃ dir chain slots e own chain' slots', s.getParent path = .ok dir ∧ DirChain s.disk dir.head chain slots ∧
      e ∈ slots ∧ e.name.toStr = path.name ∧ Owns s.disk [e] own ∧ DirChain s'.disk dir.head chain' slots' ∧
      (∀ x, s'.toVolume.Free x ↔ s.toVolume.Free x ∨ x ∈ own ∨
        x ∈ chain.drop (max 1 (divCeil (dir.children.length - 1) 8))) ∧
      (∀ x ∈ own, s'.disk.sectors x = Sector.zero) ∧ ∀ e', e' ∈ slots' ↔ e' ∈ slots ∧ e' ≠ e := by
  have hi := hs.inv
  have hplain : (Call.delete path).Plain s := plain_of_noSymlink hi hs.noSymlink
  have hcall : (Call.delete path).run s = (.ok (), s') := hrun
  cases outcome_of_run hi hplain.live hcall with
  | @deleted _ dir chain₀ owned₀ before chain inner after chain' es slots l₁ l₂ c i₁ own i₂ v₁ _ hloc hd =>
    have hat := hloc.at_dir
    obtain ⟨sub, hleads⟩ := hplain dir chain₀ es hloc.parent hat.holds.listing
    obtain ⟨chain₁, hlisting⟩ := hleads.listing hat.holds.listing
    obtain ⟨-, rfl⟩ := hat.focus.listing.unique hlisting
    have hbelow := hleads.to_below
    have hslots : slots = visible (l₁.map DirectoryEntry.slot) ++ c.slot :: visible (l₂.map DirectoryEntry.slot) := by
      rw [hat.focus.shown.eq_of_noSymlink (hs.noSymlink _ _ _ hat.holds.listing hbelow), hd.child.visible_children]
    have hdistinct : slots.Nodup := (hnames _ _ _ hat.holds.listing hbelow).of_map
    have hlength : (l₁ ++ moveLast l₂).length = dir.children.length - 1 := by
      rw [hd.child.children, List.length_append, List.length_append, length_moveLast, List.length_cons]
      omega
    obtain ⟨hkept, hfree⟩ := hat.ready.synced_free (hd.wipes.touches (List.Subset.refl own)) hd.child.own_subset hd.synced
      (by omega)
    rw [hlength] at hfree
    refine ⟨dir, chain, slots, c.slot, own, chain', _, hloc.parent, hat.focus.listing, by rw [hslots]; simp, ?_,
      hd.child.owns, hd.synced.listing, fun x => by rw [hfree, hd.wipes.free, or_assoc], fun x hx => ?_, fun e' => ?_⟩
    · rw [DirectoryEntry.slot_name]
      exact hd.child.named
    · have hout : x ∉ chain' := fun hin => hat.chain_not_inner (hkept x hin) (hd.child.own_subset hx)
      rw [hd.synced.rest x hout, hd.wipes.disk, if_pos hx]
    · rw [hslots, List.nodup_append, List.nodup_cons] at hdistinct
      have hmoved : e' ∈ visible ((moveLast l₂).map DirectoryEntry.slot) ↔ e' ∈ visible (l₂.map DirectoryEntry.slot) := by
        simp only [visible, List.mem_filter, List.mem_map, mem_moveLast]
      rw [hslots, List.map_append, visible_append, List.mem_append, List.mem_append, List.mem_cons, hmoved]
      constructor
      · rintro (he | he)
        · refine ⟨.inl he, ?_⟩
          rintro rfl
          exact hdistinct.2.2 _ he _ List.mem_cons_self rfl
        · refine ⟨.inr (.inr he), ?_⟩
          rintro rfl
          exact hdistinct.2.1.1 he
      · rintro ⟨he | he | he, hne⟩
        · exact .inl he
        · exact absurd he hne
        · exact .inr he

/-- The only file of the sample partition is deleted. -/
theorem delete_frees_subtree_file :
    ∃ s s', s.Consistent ∧ delete ⟨[0x2F, 0x61]⟩ s = (.ok (), s') ∧
      s'.toVolume.Free 3 ∧ s'.disk.sectors 3 = Sector.zero := by
  obtain ⟨s, hs⟩ := exists_oneFile
  obtain ⟨chain₀, es₀, owned₀, hholds, hcache, -⟩ := hs.consistent.tree
  have hpar : s.getParent ⟨[0x2F, 0x61]⟩ = .ok s.rootDir := getParent_root rfl
  have hslots : es₀ = [⟨fromStr [0x61], .file, ⟨3, 1⟩⟩] := by
    rw [← hcache, hs.root]
    rfl
  have hnames : Listings (fun es => (es.map fun e => e.name.toStr).Nodup) s := by
    intro chain es sub hchain hbelow
    obtain ⟨-, rfl⟩ := hchain.unique hholds.listing
    cases hbelow with
    | here =>
      rw [hslots]
      exact List.nodup_singleton _
    | inside hmem hkind =>
      rw [hslots, List.mem_singleton] at hmem
      rw [hmem] at hkind
      cases hkind
  have hplain : (Call.delete ⟨[0x2F, 0x61]⟩).Plain s := plain_of_noSymlink hs.consistent.inv hs.consistent.noSymlink
  obtain ⟨s', hrun⟩ := delete_existing hs.consistent.inv hplain.live rfl hpar hs.getChild
  obtain ⟨dir, chain, slots, e, own, chain', slots', hdir, hlisting, he, -, howns, -, hfree, hzero, -⟩ :=
    delete_frees_subtree s s' ⟨[0x2F, 0x61]⟩ hs.consistent hnames hrun
  cases hpar.symm.trans hdir
  obtain ⟨-, rfl⟩ := hlisting.unique hholds.listing
  rw [hslots, List.mem_singleton] at he
  subst he
  have hlink : LinkChain s.disk ⟨3, 1⟩ [] [⟨3, 1⟩] := .extent rfl rfl
  obtain rfl := howns.unique (.file rfl hlink .nil)
  exact ⟨s, s', hs.consistent, hrun, (hfree 3).2 (.inr (.inl (by decide))), hzero 3 (by decide)⟩

end MaramOS
