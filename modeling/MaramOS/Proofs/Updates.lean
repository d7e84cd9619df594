import MaramOS.Proofs.Operations

/-! Every successful call keeps the invariant. Whatever it does, it changes the
sectors below one directory, writes that directory back with new children and
refreshes the cached root: `Update` is that common shape, and each call is one. -/

namespace MaramOS

open List

theorem Agree.append {es es' fs fs' : List Slot} (h : Agree es es') (h' : Agree fs fs') :
    Agree (es ++ fs) (es' ++ fs') :=
  rel_append h h'

namespace LemonFS

open Prog Volume
open DirectoryEntry (symLink new file)
open DirectoryEntry renaming slot → slotOf

variable {s s' : LemonFS} {dir : Directory} {chain0 owned0 before chain inner after : List ℕ}
  {es slots : List Slot} {path : Path} {v1 : Volume} {chain' inner' : List ℕ} {children' : List DirectoryEntry}
  (h : At s dir chain0 es owned0 before chain slots inner after)

/-- The cached entries show what the children show on disk. -/
structure Cached (children root : List DirectoryEntry) : Prop where
  agree : Agree (visible (children.map slotOf)) (visible (root.map slotOf))
  length : root.length = children.length
  fits : ∀ c ∈ root, c.slot.link.Fits

theorem Cached.refl {children : List DirectoryEntry} (h : ∀ c ∈ children, c.slot.link.Fits) :
    Cached children children :=
  ⟨Agree.refl _, rfl, h⟩

/-- A change of one directory and of what is below it. -/
structure Update (s : LemonFS) (dir : Directory) (chain inner : List ℕ) (v1 : Volume)
    (children' : List DirectoryEntry) (chain' inner' : List ℕ) (s' : LemonFS) : Prop where
  touches : s.toVolume.Touches inner v1
  synced : Synced { dir with children := children' } chain chain' v1 s'.toVolume
  superblock : s'.superblock = s.superblock
  owns : Owns v1.disk (visible (children'.map slotOf)) inner'
  members : ∀ x ∈ inner', x ∈ inner ∨ s.toVolume.Free x
  nodup : inner'.Nodup
  used : ∀ x ∈ inner', ¬ v1.Free x
  cached : dir.head = s.rootPtr → Cached children' s'.root
  uncached : dir.head ≠ s.rootPtr → s'.root = s.root

section

variable (hu : Update s dir chain inner v1 children' chain' inner' s')
include hu

theorem Update.touches_all :
    s.toVolume.Touches (chain ++ inner) s'.toVolume :=
  (hu.touches.mono (subset_append_right _ _)).trans (hu.synced.touches.mono (subset_append_left _ _))

include h

theorem Update.holds :
    s'.Mounted ∧ ∃ chain1 es1 owned1, s'.Holds chain1 es1 owned1 ∧
      chain1 ++ owned1 = before ++ (chain' ++ inner') ++ after ∧
      (chain1, es1) = if dir.head = s.rootPtr then (chain', visible (children'.map slotOf))
        else (chain0, es) :=
  h.relist hu.touches (List.Subset.refl inner) hu.synced hu.superblock hu.owns hu.members hu.nodup hu.used

theorem Update.inv : s'.Inv := by
  obtain ⟨hm, chain1, es1, owned1, hh, -, heq⟩ := hu.holds h
  by_cases hroot : dir.head = s.rootPtr
  · rw [if_pos hroot, Prod.mk.injEq] at heq
    obtain ⟨rfl, rfl⟩ := heq
    have hc := hu.cached hroot
    refine ⟨hm, ⟨_, _, owned1, hh, hc.agree, ?_⟩, hc.fits⟩
    rw [hc.length, hu.synced.length]
    exact Directory.length_le_blocks { dir with children := children' }
  · rw [if_neg hroot, Prod.mk.injEq] at heq
    obtain ⟨rfl, rfl⟩ := heq
    have hsame := hu.uncached hroot
    refine ⟨hm, ⟨_, _, owned1, hh, ?_, ?_⟩, ?_⟩ <;> rw [hsame]
    · exact h.cache
    · exact h.cacheRoom
    · exact h.inv.fits

end

/-- A call that only takes free sectors, or writes to them, keeps the invariant too. -/
theorem Inv.of_touches_nil (hi : s.Inv) (ht : s.toVolume.Touches [] s'.toVolume)
    (hsb : s'.superblock = s.superblock) (hroot : s'.root = s.root) : s'.Inv := by
  obtain ⟨chain, es, owned, hh, hagree, hroom⟩ := hi.tree
  have hsame : ∀ x ∈ chain ++ owned, s'.disk.sectors x = s.disk.sectors x := fun x hx =>
    ht.disk x not_mem_nil (hh.used x hx)
  have hptr : s'.rootPtr = s.rootPtr := by rw [rootPtr, rootPtr, hsb]
  refine ⟨hi.mounted.update hsb ht (by simp) (by simp), ⟨chain, es, owned, ⟨?_, ?_, hh.nodup, ?_, ?_⟩, ?_, ?_⟩, ?_⟩
  · rw [hptr]
    exact hh.listing.frame ht.shape.sectorCount fun x hx => hsame x (mem_append_left _ hx)
  · exact hh.owns.frame ht.shape.sectorCount fun x hx => hsame x (mem_append_right _ hx)
  · rw [hsb]
    exact hh.placed
  · exact fun x hx hfree => hh.used x hx (ht.free x not_mem_nil hfree)
  · rwa [hroot]
  · rwa [hroot]
  · rw [hroot]
    exact hi.fits

theorem Leaked.inv (hi : s.Inv) (h : Leaked s s') : s'.Inv := by
  obtain ⟨hsb, hroot, l, ht⟩ := h
  exact hi.of_touches_nil ht.touches hsb hroot

section Create

variable {kind : FileType} {start : ℕ}

theorem Created.owns_new (hc : Created s dir chain path kind start v1 chain' s')
    (hstart : kind ≠ .symlink → start ≠ 0)
    (hblank : kind = .directory → DirChain s.disk ⟨start, 512⟩ [start] []) :
    ∃ own, Owns v1.disk
        (visible [(new (Filename.fromStr path.name) start kind).slot]) own ∧
      (own = [] ∨ own = [start] ∧ Takes [start] s.toVolume v1) := by
  cases hempty : (new (Filename.fromStr path.name) start kind).slot.name.isEmpty with
  | true => exact ⟨[], by simpa [visible, hempty] using Owns.nil, Or.inl rfl⟩
  | false =>
  rw [visible_cons hempty]
  rcases hc.taken with ⟨rfl, -, -⟩ | ⟨hkind, ht⟩
  · exact ⟨[], .symlink rfl .nil, Or.inl rfl⟩
  · refine ⟨[start], ?_, Or.inr ⟨rfl, ht⟩⟩
    cases kind with
    | symlink => exact absurd rfl hkind
    | file =>
      have hvalid : (⟨start, 1⟩ : LinkPointer).isValid = true := by
        simpa [LinkPointer.isValid] using hstart hkind
      have hlink := @LinkChain.extent v1.disk ⟨start, 1⟩ hvalid rfl
      have hblocks : fileBlocks [⟨start, 1⟩] = [start] := by simp [fileBlocks, LinkPointer.blocks, divCeil]
      have hown := @Owns.file v1.disk (new (Filename.fromStr path.name) start .file).slot
        [] _ _ _ rfl hlink .nil
      rwa [hblocks] at hown
    | directory =>
      have hdir := hblank rfl
      rw [← ht.disk] at hdir
      exact @Owns.directory v1.disk (new (Filename.fromStr path.name) start .directory).slot
        [] _ _ _ _ rfl rfl hdir .nil .nil

include h

theorem Created.update (hc : Created s dir chain path kind start v1 chain' s')
    (hiff : path.parent.isRoot = true ↔ dir.head = s.rootPtr)
    (hdir : path.parent.isRoot = true → dir = s.rootDir)
    (hblank : kind = .directory → DirChain s.disk ⟨start, 512⟩ [start] []) :
    ∃ inner', Update s dir chain inner v1
      (dir.children ++ [new (Filename.fromStr path.name) start kind]) chain' inner' s' := by
  have harea := h.inv.mounted.area
  have hstart : start < s.disk.sectorCount ∧ (kind ≠ .symlink → start ≠ 0) := by
    have hpos := harea.pos
    have hinside := harea.inside
    rcases hc.taken with ⟨hkind, rfl, -⟩ | ⟨-, ht⟩
    · exact ⟨by omega, fun hne => absurd hkind hne⟩
    · have hfree := ht.wasFree start (by simp)
      have hlo := hfree.1
      have hhi := harea.free_lt start hfree
      rw [harea.dataStart] at hlo
      exact ⟨by omega, fun _ => by omega⟩
  have htouch : s.toVolume.Touches [] v1 := by
    rcases hc.taken with ⟨-, -, rfl⟩ | ⟨-, ht⟩
    · exact Touches.refl _ _
    · exact ht.touches
  have hused : ∀ x ∈ inner, ¬ s.toVolume.Free x := fun x hx => h.used (mem_append_right _ hx)
  obtain ⟨own, hown, hcase⟩ := hc.owns_new hstart.2 hblank
  have hkeep := h.focus.owns.frame htouch.shape.sectorCount fun x hx =>
    htouch.disk x not_mem_nil (hused x hx)
  refine ⟨inner ++ own, htouch.mono (nil_subset _), hc.synced, hc.superblock, ?_, ?_, ?_, ?_, ?_, ?_⟩
  · rw [map_append, visible_append]
    exact hkeep.append hown
  · intro x hx
    rcases mem_append.1 hx with hx | hx
    · exact Or.inl hx
    · rcases hcase with rfl | ⟨rfl, ht⟩
      · cases hx
      · exact Or.inr (ht.wasFree x hx)
  · refine nodup_append.2 ⟨(nodup_append.1 h.nodup).2.1, ?_, ?_⟩
    · rcases hcase with rfl | ⟨rfl, -⟩ <;> simp
    · rintro x hx _ hx' rfl
      rcases hcase with rfl | ⟨rfl, ht⟩
      · cases hx'
      · exact hused x hx (ht.wasFree x hx')
  · intro x hx hfree
    rcases mem_append.1 hx with hx | hx
    · exact hused x hx (htouch.free x not_mem_nil hfree)
    · rcases hcase with rfl | ⟨rfl, ht⟩
      · cases hx
      · exact ((ht.free x).1 hfree).2 hx
  · intro hhead
    have hp := hiff.2 hhead
    have hroot : s'.root = dir.children ++ [new (Filename.fromStr path.name) start kind] := by
      rw [hc.root, if_pos hp, hdir hp]
      rfl
    rw [hroot]
    refine Cached.refl fun c hmem => ?_
    rcases mem_append.1 hmem with hmem | hmem
    · exact h.focus.fits c hmem
    · obtain rfl := mem_singleton.1 hmem
      exact fits_new _ kind s.disk.fits hstart.1
  · intro hhead
    rw [hc.root, if_neg fun hp => hhead (hiff.1 hp)]

end Create

section Child

variable {l1 l2 : List DirectoryEntry} {c : DirectoryEntry} {i1 own i2 : List ℕ}

section

variable (hc : Child s dir inner path l1 c l2 i1 own i2)
include hc

theorem Child.mem_inner {x : ℕ} (hx : x ∈ i1 ++ i2) : x ∈ inner := by
  rw [hc.split]
  simp only [mem_append] at hx ⊢
  exact hx.imp id Or.inr

include h

theorem Child.kept (ht : s.toVolume.Touches own v1) :
    ∀ x ∈ i1 ++ i2, v1.disk.sectors x = s.disk.sectors x ∧ ¬ v1.Free x := by
  intro x hx
  have hnodup := (nodup_append.1 h.nodup).2.1
  have hmem : x ∈ inner := by
    rw [hc.split]
    simp only [mem_append] at hx ⊢
    exact hx.imp id Or.inr
  have hout : x ∉ own := by
    intro hown
    rw [hc.split, nodup_append, nodup_append] at hnodup
    rcases mem_append.1 hx with hx | hx
    · exact hnodup.2.2 x hx x (mem_append_left _ hown) rfl
    · exact hnodup.2.1.2.2 x hown x hx rfl
  have hused := h.used (mem_append_right _ hmem)
  exact ⟨ht.disk x hout hused, fun hfree => hused (ht.free x hout hfree)⟩

theorem Child.nodup : (i1 ++ i2).Nodup := by
  have hnodup := (nodup_append.1 h.nodup).2.1
  rw [hc.split] at hnodup
  exact hnodup.sublist (List.Sublist.append_left (sublist_append_right _ _) _)

theorem Child.before_frame (ht : s.toVolume.Touches own v1) : Owns v1.disk (visible (l1.map slotOf)) i1 :=
  hc.before.frame ht.shape.sectorCount fun x hx => (hc.kept h ht x (mem_append_left _ hx)).1

theorem Child.after_frame (ht : s.toVolume.Touches own v1) : Owns v1.disk (visible (l2.map slotOf)) i2 :=
  hc.after.frame ht.shape.sectorCount fun x hx => (hc.kept h ht x (mem_append_right _ hx)).1

end

theorem owns_moveLast {d : Disk} (l : List DirectoryEntry) {owned : List ℕ}
    (h : Owns d (visible (l.map slotOf)) owned) :
    ∃ owned', Owns d (visible ((moveLast l).map slotOf)) owned' ∧ owned'.Perm owned := by
  obtain rfl | ⟨init, x, rfl⟩ := eq_nil_or_concat l
  · exact ⟨owned, h, List.Perm.refl _⟩
  · rw [concat_eq_append, map_append, visible_append] at h
    obtain ⟨o, o', rfl, ho, ho'⟩ := h.split
    refine ⟨o' ++ o, ?_, perm_append_comm⟩
    have hmove : moveLast (init.concat x) = [x] ++ init := by simp [moveLast, concat_eq_append]
    rw [hmove, map_append, visible_append]
    exact ho'.append ho

theorem agree_symLink (l1 l2 : List DirectoryEntry) (name : Filename) (target target' : LinkPointer) :
    Agree (visible ((l1 ++ .symLink name target :: l2).map slotOf))
      (visible ((l1 ++ .symLink name target' :: l2).map slotOf)) := by
  have hone : Agree (visible [(symLink name target).slot])
      (visible [(symLink name target').slot]) := by
    cases hempty : name.isEmpty
    · simp only [visible, slotOf, hempty, filter_cons, filter_nil, Bool.not_false, if_true]
      exact .cons ⟨rfl, rfl, fun hne => absurd rfl hne⟩ .nil
    · simp only [visible, slotOf, hempty, filter_cons, filter_nil, Bool.not_true,
        Bool.false_eq_true, if_false]
      exact .nil
  have hsplit : ∀ t, visible ((l1 ++ .symLink name t :: l2).map slotOf) =
      visible (l1.map slotOf) ++ (visible [(symLink name t).slot] ++
        visible (l2.map slotOf)) := by
    intro t
    rw [← visible_append, ← visible_append]
    simp
  rw [hsplit, hsplit]
  exact (Agree.refl _).append (hone.append (Agree.refl _))

include h

theorem Written.update {src : PhysPage} {f f' : File} {ind lbas : List ℕ} {ext : List LinkPointer}
    (hw : Written s dir chain inner path src l1 f l2 i1 ind ext i2 f' lbas v1 chain' s')
    (hiff : path.parent.isRoot = true ↔ dir.head = s.rootPtr) :
    Update s dir chain inner v1 (l1 ++ .file f' :: l2) chain'
      (i1 ++ ((lbas ++ newChain s.bitmap ind ext (8 * src.count)) ++ i2)) s' := by
  have hr := hw.rewritten
  have hkept := hw.child.kept h hr.touches
  have hvis : (file f').slot.name.isEmpty = false := by
    have hname : (file f').slot.name = (file f).slot.name := by
      rw [hr.file]
      rfl
    rw [hname]
    exact DirectoryEntry.visible_of_name hw.child.named
  have hfile := @Owns.file v1.disk (file f').slot [] _ _ _ rfl hr.link .nil
  rw [hr.covers, append_nil] at hfile
  -- a sector of the new file is not one of another child
  have hapart : ∀ x ∈ lbas ++ newChain s.bitmap ind ext (8 * src.count), x ∉ i1 ++ i2 := by
    intro x hx hx'
    have hold := h.used (mem_append_right _ (hw.child.mem_inner hx'))
    rcases hr.members x hx with hmem | hfree
    · have hnodup := (nodup_append.1 h.nodup).2.1
      rw [hw.child.split, nodup_append, nodup_append] at hnodup
      rcases mem_append.1 hx' with hx' | hx'
      · exact hnodup.2.2 x hx' x (mem_append_left _ hmem) rfl
      · exact hnodup.2.1.2.2 x hmem x hx' rfl
    · exact hold hfree
  have hcases : ∀ x, x ∈ i1 ++ ((lbas ++ newChain s.bitmap ind ext (8 * src.count)) ++ i2) →
      x ∈ i1 ++ i2 ∨ x ∈ lbas ++ newChain s.bitmap ind ext (8 * src.count) := by
    intro x hx
    simp only [mem_append] at hx ⊢
    tauto
  refine ⟨hr.touches.mono hw.child.own_subset, hw.synced, hw.superblock, ?_, ?_, ?_, ?_, ?_, ?_⟩
  · rw [map_append, map_cons, visible_append, visible_cons hvis]
    exact (hw.child.before_frame h hr.touches).append (hfile.append (hw.child.after_frame h hr.touches))
  · intro x hx
    rcases hcases x hx with hx | hx
    · exact Or.inl (hw.child.mem_inner hx)
    · exact (hr.members x hx).imp (fun hmem => hw.child.own_subset hmem) id
  · have hnodup := hw.child.nodup h
    rw [nodup_append] at hnodup
    refine nodup_append.2 ⟨hnodup.1, nodup_append.2 ⟨hr.nodup, hnodup.2.1, ?_⟩, ?_⟩
    · rintro x hx _ hx' rfl
      exact hapart x hx (mem_append_right _ hx')
    · rintro x hx _ hx' rfl
      rcases mem_append.1 hx' with hx' | hx'
      · exact hapart x hx' (mem_append_left _ hx)
      · exact hnodup.2.2 x hx x hx' rfl
  · intro x hx hfree
    rcases hcases x hx with hx | hx
    · exact (hkept x hx).2 hfree
    · exact ((hr.free x).1 hfree).2 hx
  · intro hhead
    rw [hw.root, if_pos (hiff.2 hhead)]
    exact Cached.refl (hw.child.fits_replace h.ready hr.fits)
  · intro hhead
    rw [hw.root, if_neg fun hp => hhead (hiff.1 hp)]

theorem Deleted.update (hd : Deleted s dir chain inner path l1 c l2 i1 own i2 v1 chain' s')
    (hiff : path.parent.isRoot = true ↔ dir.head = s.rootPtr) :
    ∃ inner', Update s dir chain inner v1 (l1 ++ moveLast l2) chain' inner' s' := by
  have ht := hd.wipes.touches (List.Subset.refl own)
  obtain ⟨i2', howns, hperm⟩ := owns_moveLast l2 (hd.child.after_frame h ht)
  have hmem : ∀ x ∈ i1 ++ i2', x ∈ i1 ++ i2 := fun x hx => ((hperm.append_left i1).mem_iff).1 hx
  refine ⟨i1 ++ i2', ht.mono hd.child.own_subset, hd.synced, hd.superblock, ?_, ?_, ?_, ?_, ?_, ?_⟩
  · rw [map_append, visible_append]
    exact (hd.child.before_frame h ht).append howns
  · exact fun x hx => Or.inl (hd.child.mem_inner (hmem x hx))
  · exact ((hperm.append_left i1).nodup_iff).2 (hd.child.nodup h)
  · exact fun x hx => (hd.child.kept h ht x (hmem x hx)).2
  · intro hhead
    rw [hd.root, if_pos (hiff.2 hhead)]
    exact Cached.refl (hd.child.fits_remove h.ready)
  · intro hhead
    rw [hd.root, if_neg fun hp => hhead (hiff.1 hp)]

theorem Routed.update {symlink dest : Path} {name : Filename} {old target : LinkPointer}
    (hr : Routed s dir chain inner symlink dest l1 name old target l2 i1 own i2 chain' s')
    (hdir : dir.head = s.rootPtr → dir = s.rootDir)
    (hroot : symlink.parent.isRoot = true → dir.head = s.rootPtr) :
    Update s dir chain inner s.toVolume (l1 ++ .symLink name target :: l2) chain' inner s' := by
  have hfit : (symLink name target).slot.link.Fits := routeTarget_fits h.inv.fits hr.routed
  refine ⟨Touches.refl _ _, hr.synced, hr.superblock, ?_, fun x hx => Or.inl hx, (nodup_append.1 h.nodup).2.1,
    fun x hx => h.used (mem_append_right _ hx), ?_, ?_⟩
  · have howns := h.focus.owns
    rw [hr.child.children] at howns
    exact howns.agree (agree_symLink l1 l2 name old target)
  · intro hhead
    rw [hr.root]
    split_ifs
    · exact Cached.refl (hr.child.fits_replace h.ready hfit)
    · have hcached : s.root = l1 ++ .symLink name old :: l2 := by
        rw [← hr.child.children, hdir hhead]
        rfl
      rw [hcached]
      refine ⟨agree_symLink l1 l2 name target old, by simp, ?_⟩
      rw [← hr.child.children]
      exact h.focus.fits
  · intro hhead
    rw [hr.root, if_neg fun hp => hhead (hroot hp)]

end Child

end LemonFS

end MaramOS
