import MaramOS.Proofs.Creation
import MaramOS.Proofs.Elsewhere
import MaramOS.Proofs.ReadWrite

/-! Files that a call does not name, read after a fresh mount. The tree itself may be damaged at the entry the
call works on: a new directory gets a sector with old content, and a write that runs out of space has wiped the
link blocks of its file. The walk to another file enters none of that, it only has to be able to parse the
directories it passes. -/

namespace MaramOS

open List Prog Volume LemonFS
open DirectoryEntry (new)
open Filename (fromStr)

/-- After a mount the path names a file that has been parsed from the slot. -/
def LemonFS.Shows (t : LemonFS) (path : Path) (e : Slot) : Prop :=
  ∃ dir f, t.getParent path = .ok dir ∧ dir.getChild path.name = some (.file f) ∧ f.head = e.link ∧
    Parsed t.disk (.file f)

/-- Both file systems give the same size and the same bytes for the path. -/
def SameFile (t t' : LemonFS) (path : Path) : Prop :=
  (∃ size, t.fileSize path = .ok size ∧ t'.fileSize path = .ok size) ∧
    ∀ dest, ∃ out, t.read path dest = .ok out ∧ t'.read path dest = .ok out

variable {t : LemonFS} {path : Path} {e : Slot}

theorem LemonFS.Shows.read {ind : List ℕ} {ext : List LinkPointer} (h : t.Shows path e) (hroot : path.isRoot = false)
    (hlink : LinkChain t.disk e.link ind ext) (hind : ind.Nodup)
    (hblocks : ∀ x ∈ fileBlocks ext, x < t.disk.sectorCount) :
    t.fileSize path = .ok (wsum (ext.map (·.size))) ∧
      ∀ dest, t.read path dest = .ok (min (wsum (ext.map (·.size))) (dest.count * PAGE_SIZE),
        copied t.disk (min (wsum (ext.map (·.size))) (dest.count * PAGE_SIZE)) 0 ext dest) := by
  obtain ⟨dir, f, hpar, hget, hhead, hparsed⟩ := h
  have hlinks : f.links = ext :=
    links_of_parsed hparsed (hhead ▸ hlink) (length_le_of_nodup hind fun x hx => (hlink.mem_ind x hx).2)
  have hin : Inside t.disk f.links := hlinks ▸ inside_of_blocks (fun l hl => (hlink.mem_ext l hl).2) hblocks
  rw [fileSize_of_child hroot hpar hget, hparsed.2, hlinks]
  refine ⟨rfl, fun dest => ?_⟩
  rw [read_of_child hroot hpar hget hin dest, hlinks]

theorem LemonFS.Shows.sameFile {t' : LemonFS} {own : List ℕ} (h : t.Shows path e) (h' : t'.Shows path e)
    (hroot : path.isRoot = false) (hk : e.kind = .file) (hown : Owns t.disk [e] own) (hnodup : own.Nodup)
    (hlt : ∀ x ∈ own, x < t.disk.sectorCount) (hn : t'.disk.sectorCount = t.disk.sectorCount)
    (hsame : ∀ x ∈ own, t'.disk.sectors x = t.disk.sectors x) : SameFile t t' path := by
  obtain ⟨ind, ext, rfl, hlink⟩ := hown.file_inv hk
  have hind := (nodup_append.1 hnodup).1
  have hlink' := hlink.frame hn fun x hx => hsame x (mem_append_left _ hx)
  have hblocks : ∀ x ∈ fileBlocks ext, x < t.disk.sectorCount := fun x hx => hlt x (mem_append_right _ hx)
  obtain ⟨hsize, hread⟩ := h.read hroot hlink hind hblocks
  obtain ⟨hsize', hread'⟩ := h'.read hroot hlink' hind (hn ▸ hblocks)
  refine ⟨⟨_, hsize, hsize'⟩, fun dest => ⟨_, hread dest, ?_⟩⟩
  rw [hread', copied_congr fun x hx => hsame x (mem_append_right _ hx)]

namespace LemonFS.HasFile

variable {s : LemonFS} {path : Path} {e : Slot}

theorem isFile (h : s.HasFile path e) : e.kind = .file := by
  obtain ⟨-, -, -, -, -, -, -, hfile⟩ := h
  exact hfile

theorem shows (h : s.HasFile path e) (hi : s.Inv) : ∃ t, init s.disk = .ok t ∧ t.disk = s.disk ∧ t.Shows path e := by
  obtain ⟨chain, es, owned, hh, -⟩ := hi.tree
  obtain ⟨chain₁, es1, ptr, sub, hchain1, hleads, hl, hfile⟩ := h
  obtain ⟨-, rfl⟩ := hchain1.unique hh.listing
  obtain ⟨t, ht⟩ := hh.remount hi.mounted
  obtain ⟨dir, f, hpar, hget, hhead, hparsed⟩ := ht.file hleads hl hfile
  exact ⟨t, ht.run, ht.disk, dir, f, hpar, hget, hhead, by rwa [ht.disk]⟩

theorem owned (h : s.HasFile path e) (hi : s.Inv) :
    ∃ own, Owns s.disk [e] own ∧ own.Nodup ∧ ∀ x ∈ own, x < s.disk.sectorCount := by
  obtain ⟨chain, es, owned, hh, -⟩ := hi.tree
  obtain ⟨chain₁, es1, ptr, sub, hchain1, hleads, hl, -⟩ := h
  obtain ⟨-, rfl⟩ := hchain1.unique hh.listing
  obtain ⟨inner, howns, hn, hmem⟩ := hleads.owns hh.owns (nodup_append.1 hh.nodup).2.1
  obtain ⟨own, hown, hsub⟩ := howns.of_mem (lookup_some hl).1
  refine ⟨own, hown, hn.sublist hsub, fun x hx => ?_⟩
  have hplaced := hh.placed x (mem_append_right _ (hmem (hsub.subset hx)))
  have hlt := hi.mounted.dataEnd_lt
  omega

end LemonFS.HasFile

/-- Both disks can be mounted, and then the path gives the same on both. -/
def Undisturbed (d d' : Disk) (path : Path) : Prop :=
  ∃ t t', init d = .ok t ∧ init d' = .ok t' ∧ SameFile t t' path

section Survive

variable {s s' : LemonFS} {c : Call} {path : Path} {e : Slot} {dir : Directory}
  {chain0 owned0 before chain inner after chain' : List ℕ} {es slots slots' : List Slot} {v1 : Volume} {start n : ℕ}
  {kind : FileType} {q : Path} {ind w taken i1 i2 : List ℕ} {ext : List LinkPointer} {l₁ l₂ : List DirectoryEntry}
  {f : File}

theorem undisturbed_of_shows {t' : LemonFS} (hi : s.Inv) (hroot : path.isRoot = false) (hq : s.HasFile path e)
    (hn : s'.disk.sectorCount = s.disk.sectorCount)
    (hsame : ∀ own, Owns s.disk [e] own → ∀ x ∈ own, s'.disk.sectors x = s.disk.sectors x)
    (hrun' : init s'.disk = .ok t') (hdisk' : t'.disk = s'.disk) (hshows' : t'.Shows path e) :
    Undisturbed s.disk s'.disk path := by
  obtain ⟨t, hrun, hdisk, hshows⟩ := hq.shows hi
  obtain ⟨own, hown, hnodup, hlt⟩ := hq.owned hi
  refine ⟨t, t', hrun, hrun', hshows.sameFile hshows' hroot hq.isFile (by rwa [hdisk]) hnodup (by rwa [hdisk])
    (by rw [hdisk', hdisk, hn]) ?_⟩
  rw [hdisk', hdisk]
  exact hsame own hown

theorem undisturbed_of_hasFile (hi : s.Inv) (hi' : s'.Inv) (hroot : path.isRoot = false) (hq : s.HasFile path e)
    (hn : s'.disk.sectorCount = s.disk.sectorCount)
    (hafter : s'.HasFile path e ∧ ∀ own, Owns s.disk [e] own → ∀ x ∈ own, s'.disk.sectors x = s.disk.sectors x) :
    Undisturbed s.disk s'.disk path := by
  obtain ⟨t', hrun', hdisk', hshows'⟩ := hafter.1.shows hi'
  exact undisturbed_of_shows hi hroot hq hn hafter.2 hrun' hdisk' hshows'

section

variable (h : At s dir chain0 es owned0 before chain slots inner after)
  (ht : s.toVolume.Touches (chain ++ inner) s'.toVolume)
include h ht

theorem LemonFS.At.change_of_touches (hafter : DirChain s'.disk dir.head chain' slots') :
    Leads.Change s.disk s'.disk dir.head chain slots inner chain' slots' (chain0 ++ owned0) where
  sectorCount := ht.shape.sectorCount
  before := h.focus.listing
  owns := h.slots_owns
  after := hafter
  outside x hx hout := ht.disk x hout (h.holds.used x hx)

theorem LemonFS.At.mounted_of_touches (hsb : s'.superblock = s.superblock)
    (hhead : ∀ x, chain.head? = some x → ¬s'.toVolume.Free x) : s'.Mounted := by
  refine h.inv.mounted.update hsb ht (fun x hx => ?_) fun x hx hfree => ?_
  · have hle := h.inv.mounted.dataStart_le
    rcases h.holds.mem_placed (h.mem_total hx) with rfl | hx
    · exact ⟨hle, le_rfl⟩
    · exact ⟨hx.1, hx.2.le⟩
  · refine (h.placed ?_).2
    cases chain with
    | nil => exact hx
    | cons y rest =>
      rcases mem_cons.1 hx with rfl | hx
      · exact absurd hfree (hhead x rfl)
      · exact hx

end

section

variable (hloc : Located s c.path dir chain0 es owned0 before chain slots inner after) (hplain : c.Plain s)
  (ht : s.toVolume.Touches (chain ++ inner) s'.toVolume) (hsb : s'.superblock = s.superblock)
  (hhead : ∀ x, chain.head? = some x → ¬s'.toVolume.Free x) (hafter : DirChain s'.disk dir.head chain' slots')
  (hread : Readable s'.disk slots')
include hloc hplain ht hsb hhead hafter hread

/-- After a change of one directory, if that can still be parsed, the disk can be mounted and its paths walked. -/
theorem Located.remounted :
    ∃ t', init s'.disk = .ok t' ∧ t'.disk = s'.disk ∧ ∀ (q : Path) (ptr : LinkPointer) (sub : List Slot) (e : Slot),
      Way s'.disk s.rootPtr (if c.path.parent.components = [] then slots' else es) q.parent.components ptr sub →
      lookup sub q.name = some e → e.kind = .file → t'.Shows q e := by
  have hh := hloc.at_dir.holds
  have hnodup := (nodup_append.1 hh.nodup).2.1
  have hptr : s'.rootPtr = s.rootPtr := by rw [rootPtr, rootPtr, hsb]
  have hway := hloc.leads hplain
  have hc := hloc.at_dir.change_of_touches ht hafter
  obtain ⟨chain2, hchain2⟩ := Leads.listing_on_way hway hh.listing hh.owns hh.nodup hc
  obtain ⟨t', hrun', hdisk', hptr', hslots', hparsed'⟩ := init_spec (hloc.at_dir.mounted_of_touches ht hsb hhead)
    (hptr ▸ hchain2) (hway.readable_on_way hh.owns hnodup (hc.mono (subset_append_right _ _)) hread) hchain2.chain_le
  refine ⟨t', hrun', hdisk', fun q ptr sub e hway' hl' hfile => ?_⟩
  have hshow : Agree (if c.path.parent.components = [] then slots' else es)
      (visible (t'.rootDir.children.map DirectoryEntry.slot)) := by
    rw [show t'.rootDir.children = t'.root from rfl, hslots', hchain2.visible]
    exact Agree.refl _
  obtain ⟨dir', hwalk, -, hshow', hlast⟩ := Leads.walk_of_way hway' (fun _ hc => Path.component_ne_nil hc)
    (hptr'.trans hptr) hshow
  obtain ⟨child, hget', hchild⟩ := getChild_of_lookup hshow' q.name_ne_nil hl'
  obtain ⟨g, rfl, hhead'⟩ := hchild.file hfile
  refine ⟨dir', g, by rwa [getParent, hdisk'], hget', hhead', ?_⟩
  rw [hdisk']
  have hmem := List.mem_of_find?_eq_some hget'
  by_cases hnil : q.parent.components = []
  · rw [hnil] at hwalk
    cases hwalk
    exact hparsed' _ hmem
  · exact (hlast hnil).2 _ hmem

theorem Located.undisturbed
    (hkeep : ∀ m e own, c.path.parent.components ++ [m] <+: path.route → m ≠ c.path.name → e.kind ≠ .symlink →
      lookup slots m = some e → Owns s.disk [e] own → lookup slots' m = some e ∧
        ∀ x ∈ own, s'.disk.sectors x = s.disk.sectors x) (hroot : path.isRoot = false)
    (hq : s.HasFile path e) (hnot : ¬c.path.route <+: path.route) :
    Undisturbed s.disk s'.disk path := by
  have hh := hloc.at_dir.holds
  have hnodup := (nodup_append.1 hh.nodup).2.1
  obtain ⟨chain₁, es1, ptr, sub, hchain1, hleads, hl, hfile⟩ := id hq
  obtain ⟨-, rfl⟩ := hchain1.unique hh.listing
  have hway := hloc.leads hplain
  have hc := (hloc.at_dir.change_of_touches ht hafter).mono (subset_append_right _ _)
  obtain ⟨t', hrun', hdisk', hshows⟩ := hloc.remounted hplain ht hsb hhead hafter hread
  obtain ⟨⟨sub', -, hway', hl'⟩, hsame⟩ := hway.other hh.owns hnodup hc hkeep hleads hl hfile hnot
  exact undisturbed_of_shows hloc.at_dir.inv hroot hq hc.sectorCount hsame hrun' hdisk'
    (hshows path ptr sub' e (hway' hread) hl' hfile)

end

theorem resolves_new (d : Disk) {name : Filename} (hk : (new name start kind).slot.kind = .file) :
    ∃ links, resolveLinks d (new name start kind).slot.link = .ok links := by
  cases kind with
  | directory => cases hk
  | symlink => cases hk
  | file =>
    by_cases hv : (new name start .file).slot.link.isValid = true
    · exact ⟨_, (@LinkChain.extent d _ hv rfl).resolveLinks (Nat.zero_le _)⟩
    · exact ⟨_, (@LinkChain.none d _ (by simpa using hv)).resolveLinks (Nat.zero_le _)⟩

theorem Located.undisturbed_create {flags : ℕ}
    (hloc : Located s (Call.create path flags).path dir chain0 es owned0 before chain slots inner after)
    (hplain : (Call.create path flags).Plain s) (hc : Created s dir chain path kind start v1 chain' s')
    (hroot : q.isRoot = false) (hq : s.HasFile q e) (hnot : ¬path.route <+: q.route) :
    Undisturbed s.disk s'.disk q := by
  have hat := hloc.at_dir
  have ht : s.toVolume.Touches (chain ++ inner) s'.toVolume :=
    (hc.touches.mono (nil_subset _)).trans (hc.synced.touches.mono (subset_append_left _ _))
  have hkept : ∀ e ∈ visible (dir.children.map DirectoryEntry.slot), ∀ own, Owns s.disk [e] own →
      ∀ x ∈ own, s'.disk.sectors x = s.disk.sectors x := by
    intro e he own hown x hx
    obtain ⟨own', hown', hsub⟩ := hat.focus.owns.of_mem he
    obtain rfl := hown.unique hown'
    exact hat.same hc.touches hc.synced (hsub.subset hx) not_mem_nil
  refine hloc.undisturbed hplain ht hc.superblock (fun x hx hfree => ?_) hc.synced.listing ?_
    (fun m e own _ _ hk hl hown => hc.others hat hk hl hown) hroot hq hnot
  · obtain ⟨rest, hrest⟩ := hat.focus.listing.cons_of_direct hat.focus.direct
    obtain ⟨rest', hrest'⟩ := hc.synced.listing.cons_of_direct hat.focus.direct
    rw [hrest] at hx
    refine ((hc.synced.free x).1 hfree).2 ?_
    rw [hrest', ← Option.some.inj hx]
    exact mem_cons_self
  · rw [map_append, visible_append]
    intro e he hk
    rcases mem_append.1 he with he | he
    · exact hat.focus.owns.readable_frame (nodup_append.1 hat.nodup).2.1 ht.shape.sectorCount
        (fun e he _ => hkept e he) e he hk
    · obtain rfl : e = (new (fromStr path.name) start kind).slot := by
        simpa using mem_of_mem_filter he
      exact resolves_new _ hk

/-- What a write without space leaves of the directory: its blocks are as they were, and so is every file but `f`. -/
structure Spoilt (s : LemonFS) (dir : Directory) (chain : List ℕ) (slots : List Slot) (inner : List ℕ) (f : File)
    (s' : LemonFS) : Prop where
  touches : s.toVolume.Touches (chain ++ inner) s'.toVolume
  head : ∀ x, chain.head? = some x → ¬s'.toVolume.Free x
  listing : DirChain s'.disk dir.head chain slots
  readable : Readable s'.disk slots
  apart : ∀ e ∈ slots, e ≠ (DirectoryEntry.file f).slot → ∀ own, Owns s.disk [e] own →
    ∀ x ∈ own, s'.disk.sectors x = s.disk.sectors x

/-- The first link block is all zeros after the wipe, and a file without link blocks is resolved as before. -/
theorem OutOfSpace.link_after {ptr : LinkPointer} {v v' : Volume} (hout : OutOfSpace ind ext n w taken v v1 v')
    (hlink : LinkChain v.disk ptr ind ext) :
    LinkChain v'.disk ptr (ind.take 1) (if ind = [] then ext else []) := by
  have hn := hout.touches.shape.sectorCount
  cases hlink with
  | none hv => exact .none hv
  | extent hv hd => exact .extent hv hd
  | @block _ sec ind ext hv hd hr =>
    have hzero : v'.disk.At ptr.start Sector.zero := by
      refine ⟨by rw [hn]; exact hr.1, ?_⟩
      rw [hout.takes.disk, hout.wipes.disk, if_pos (mem_append_left _ mem_cons_self)]
    have hlast : (LinkBlock.decode Sector.zero).last.isValid = false := by decide +kernel
    exact .block hv hd hzero (.none hlast)

theorem Located.spoilt (hloc : Located s path dir chain0 es owned0 before chain slots inner after)
    (hc : Child s dir inner path l₁ (.file f) l₂ i1 (ind ++ fileBlocks ext) i2)
    (hlink : LinkChain s.disk f.head ind ext) (hout : OutOfSpace ind ext n w taken s.toVolume v1 s'.toVolume) :
    Spoilt s dir chain slots inner f s' := by
  have hat := hloc.at_dir
  have hsub : ind ++ w ⊆ ind ++ fileBlocks ext := by
    intro x hx
    rcases mem_append.1 hx with hx | hx
    · exact mem_append_left _ hx
    · rcases hout.surplus with rfl | ⟨rfl, -⟩
      · cases hx
      · exact mem_append_right _ (mem_of_mem_drop hx)
  have ht := hout.touches
  have hn := ht.shape.sectorCount
  have hnodup := (nodup_append.1 hat.nodup).2.1
  have hchain : ∀ x ∈ chain, x ∉ ind ++ w := fun x hx hx' => hat.chain_not_inner hx (hc.own_subset (hsub hx'))
  have hmem : (DirectoryEntry.file f).slot ∈ slots := by
    refine hat.focus.shown.mem ?_ (show FileType.file ≠ .symlink by decide)
    rw [hc.visible_children]
    exact mem_append_right _ mem_cons_self
  have hapart : ∀ e ∈ slots, e ≠ (DirectoryEntry.file f).slot → ∀ own, Owns s.disk [e] own →
      ∀ x ∈ own, s'.disk.sectors x = s.disk.sectors x := by
    intro e he hne own hown x hx
    obtain ⟨own', hown', hsublist⟩ := hat.slots_owns.of_mem he
    obtain rfl := hown.unique hown'
    refine ht.disk x (fun hx' => ?_) (hat.used (mem_append_right _ (hsublist.subset hx)))
    exact hat.slots_owns.disjoint hnodup he hmem hne hown hc.owns hx (hsub hx')
  refine ⟨ht.mono fun x hx => mem_append_right _ (hc.own_subset (hsub hx)), fun x hx hfree => ?_,
    hat.focus.listing.frame hn fun x hx => ?_, fun e he hk => ?_, hapart⟩
  · have hx := List.mem_of_head? hx
    exact hat.used (mem_append_left _ hx) (ht.free x (hchain x hx) hfree)
  · exact ht.disk x (hchain x hx) (hat.used (mem_append_left _ hx))
  · by_cases heq : e = (DirectoryEntry.file f).slot
    · rw [heq]
      have hlink' := hout.link_after hlink
      refine ⟨_, hlink'.resolveLinks ?_⟩
      refine length_le_of_nodup ?_ fun x hx => (hlink'.mem_ind x hx).2
      cases ind with
      | nil => exact nodup_nil
      | cons x ind => exact nodup_singleton x
    · obtain ⟨own, hown, hsublist⟩ := hat.slots_owns.of_mem he
      refine hown.readable_frame (hnodup.sublist hsublist) hn (fun e' he' _ own' hown' => ?_) e mem_cons_self hk
      obtain rfl := mem_singleton.1 he'
      exact hapart e' he heq own' hown'

theorem Located.undisturbed_noSpace {src : PhysPage}
    (hloc : Located s (Call.write path src).path dir chain0 es owned0 before chain slots inner after)
    (hplain : (Call.write path src).Plain s)
    (hc : Child s dir inner path l₁ (.file f) l₂ i1 (ind ++ fileBlocks ext) i2)
    (hlink : LinkChain s.disk f.head ind ext) (hout : OutOfSpace ind ext n w taken s.toVolume v1 s'.toVolume)
    (hsb : s'.superblock = s.superblock) (hroot : q.isRoot = false) (hq : s.HasFile q e)
    (hnot : ¬path.route <+: q.route) : Undisturbed s.disk s'.disk q := by
  have hspoilt := hloc.spoilt hc hlink hout
  refine hloc.undisturbed hplain hspoilt.touches hsb hspoilt.head hspoilt.listing hspoilt.readable
    (fun m e own _ hm _ hl hown => ⟨hl, hspoilt.apart e (lookup_some hl).1 ?_ own hown⟩) hroot hq hnot
  rintro rfl
  exact hm ((lookup_some hl).2.symm.trans ((DirectoryEntry.slot_name _).trans hc.named))

/-- After a `create`, `write` or `delete` that succeeds or runs out of space, a fresh mount gives for every file whose
path does not go through the one of the call what a fresh mount gave before it. A deletion must not move an entry of a
name that the path goes through in front of another one of that name. -/
theorem others_undisturbed (s s' : LemonFS) (c : Call) (r : Except Fault Unit) (path : Path) (e : Slot)
    (hs : s.Consistent) (hcall : c.isRoute = false) (horder : c.KeepsOrder s path) (hrun : c.run s = (r, s'))
    (hr : r = .ok () ∨ r = .error (.fs .noSpace)) (hroot : path.isRoot = false) (hq : s.HasFile path e)
    (hnot : ¬c.path.route <+: path.route) : Undisturbed s.disk s'.disk path := by
  have hi := hs.inv
  have hplain : c.Plain s := plain_of_noSymlink hi hs.noSymlink
  cases outcome_of_run hi hplain.live hrun with
  | refused => exact undisturbed_of_hasFile hi hi hroot hq rfl ⟨hq, fun _ _ _ _ => rfl⟩
  | panicked => rcases hr with hr | hr <;> cases hr
  | leaked hleak =>
    obtain ⟨l, ht⟩ := hleak.taken
    rw [show s'.disk = s.disk from ht.disk]
    exact undisturbed_of_hasFile hi hi hroot hq rfl ⟨hq, fun _ _ _ _ => rfl⟩
  | outOfSpace hloc hc hlink _ hout hsb => exact hloc.undisturbed_noSpace hplain hc hlink hout hsb hroot hq hnot
  | created hloc _ hc => exact hloc.undisturbed_create hplain hc hroot hq hnot
  | written hloc hw =>
    have hu := hw.update hloc.at_dir hloc.head_iff
    exact undisturbed_of_hasFile hi (hu.inv hloc.at_dir) hroot hq hu.touches_all.shape.sectorCount
      (hloc.other hplain hu (fun m e own _ hm hk hl hown => hw.others hloc.at_dir hu hm hk hl hown) hq hnot)
  | deleted hloc hd =>
    obtain ⟨inner', hu⟩ := hd.update hloc.at_dir hloc.head_iff
    have hlast := fun m => horder _ _ _ _ m hloc.parent hd.child.children hd.child.named hd.child.first
    exact undisturbed_of_hasFile hi (hu.inv hloc.at_dir) hroot hq hu.touches_all.shape.sectorCount
      (hloc.other hplain hu (fun m e own hway hm hk hl hown => hd.others hloc.at_dir hu (hlast m hway) hm hk hl hown)
        hq hnot)
  | routed => cases hcall

end Survive

theorem OneFile.hasFile {s : LemonFS} (h : OneFile s) :
    s.HasFile ⟨[0x2F, 0x61]⟩ ⟨fromStr [0x61], .file, ⟨3, 1⟩⟩ := by
  obtain ⟨chain, es, owned, hholds, hcache, -⟩ := h.consistent.tree
  refine ⟨chain, es, s.rootPtr, es, hholds.listing, .here, ?_, rfl⟩
  rw [← hcache, h.root]
  rfl

/-- A symlink `b` created beside the file `a`. -/
theorem others_undisturbed_beside_symlink :
    ∃ s s', s.Consistent ∧ create ⟨[0x2F, 0x62]⟩ 2 s = (.ok (), s') ∧
      Undisturbed s.disk s'.disk ⟨[0x2F, 0x61]⟩ := by
  obtain ⟨s, s', hs, hrun⟩ := exists_linked
  exact ⟨s, s', hs.consistent, hrun, others_undisturbed s s' (.create ⟨[0x2F, 0x62]⟩ 2) _ ⟨[0x2F, 0x61]⟩ _ hs.consistent
    rfl trivial hrun (.inl rfl) (by decide) hs.hasFile (by decide)⟩

/-- The path of 37 letters, of which 36 are stored. -/
def longPath : Path := ⟨0x2F :: List.replicate 37 0x62⟩

def storedPath : Path := ⟨0x2F :: List.replicate 36 0x62⟩

/-- The root lists a file `a`, then a file and a directory of the same name. -/
structure TwoAlike (s : LemonFS) : Prop where
  consistent : s.Consistent
  root : s.root = [.file ⟨fromStr [0x61], 0, ⟨3, 1⟩, []⟩,
    new (fromStr longPath.name) 4 .file,
    new (fromStr longPath.name) 5 .directory]

theorem exists_twoAlike : ∃ s, TwoAlike s := by
  obtain ⟨s0, h0⟩ := exists_blank
  have hnot : longPath.isRoot = false := by decide
  have hparent : longPath.parent.isRoot = true := by decide
  have hstored : (new (fromStr longPath.name) 4 .file).name ≠ longPath.name := by decide
  -- the file `a` gets sector 3, the two entries of the long name 4 and 5
  obtain ⟨s1, -, hs1, hrest1⟩ := create_file h0
  have habsent1 : s1.rootDir.getChild longPath.name = none := getChild_rootDir hs1.root rfl
  obtain ⟨s2, -, hmade2⟩ := @Small.create 4 s1 longPath 0 0 .file hs1.small hnot hparent habsent1 rfl (by decide)
    (by norm_num) (by rw [hs1.root]; norm_num)
  have hsmall2 : Small 5 s2 := hmade2.small hs1.small fun h => by cases h
  have hroot2 : s2.root = [.file ⟨fromStr [0x61], 0, ⟨3, 1⟩, []⟩,
      new (fromStr longPath.name) 4 .file] := by
    rw [hmade2.root, hs1.root]
    rfl
  have habsent2 : s2.rootDir.getChild longPath.name = none := by
    rw [Directory.getChild, rootDir, hroot2, List.find?_eq_none]
    intro x hx
    rcases mem_pair.1 hx with rfl | rfl
    · exact show ¬_ by decide
    · simpa using hstored
  obtain ⟨s, -, hmade⟩ := @Small.create 5 s2 longPath 1 1 .directory hsmall2 hnot hparent habsent2 rfl (by decide)
    (by norm_num) (by rw [hroot2]; norm_num)
  have hzero : s2.disk.sectors 5 = Sector.zero := by
    rw [hmade2.rest 5 (by norm_num), hrest1 5 (by norm_num), h0.sector (by norm_num) (by norm_num)]
  have hempty : DirChain s2.disk ⟨5, 512⟩ [5] [] := dirChain_zero (by rw [hsmall2.filled.sectorCount]; norm_num) hzero
  have hinv := hmade.inv fun _ => hempty
  have hroot : s.root = [.file ⟨fromStr [0x61], 0, ⟨3, 1⟩, []⟩,
      new (fromStr longPath.name) 4 .file,
      new (fromStr longPath.name) 5 .directory] := by
    rw [hmade.root, hroot2]
    rfl
  refine ⟨s, ⟨hinv.mounted, ?_⟩, hroot⟩
  obtain ⟨chain, es, owned, hh, -⟩ := hinv.tree
  obtain ⟨-, hes⟩ := hh.listing.unique hmade.listing
  rw [hroot] at hes
  refine ⟨chain, es, owned, hh, by rw [hroot, hes]; rfl, fun e hin => ?_⟩
  have hes : es = [⟨fromStr [0x61], .file, ⟨3, 1⟩⟩,
      (new (fromStr longPath.name) 4 .file).slot,
      (new (fromStr longPath.name) 5 .directory).slot] := hes
  rw [hes] at hin
  cases hin with
  | here he =>
    simp only [mem_cons, not_mem_nil, or_false] at he
    rcases he with rfl | rfl | rfl <;> exact fun h => by cases h
  | inside hmem hk hchain hin =>
    simp only [mem_cons, not_mem_nil, or_false] at hmem
    rcases hmem with rfl | rfl | rfl
    · cases hk
    · cases hk
    · have hempty' : DirChain s.disk ⟨5, 512⟩ [5] [] := by
        refine hempty.frame ?_ fun x hx => hmade.rest x ?_
        · rw [hmade.filled.sectorCount, hsmall2.filled.sectorCount]
        · rw [mem_singleton.1 hx]
          norm_num
      obtain ⟨-, rfl⟩ := hchain.unique hempty'
      cases hin with
      | here he => cases he
      | inside hmem => cases hmem

/-- Deleting `a` moves the directory in front of the file, which is not found any more. -/
theorem delete_hides_file :
    ∃ s s' e, s.Consistent ∧ s.HasFile storedPath e ∧ delete ⟨[0x2F, 0x61]⟩ s = (.ok (), s') ∧
      ¬Path.route ⟨[0x2F, 0x61]⟩ <+: storedPath.route ∧ ¬Undisturbed s.disk s'.disk storedPath := by
  obtain ⟨s, hs⟩ := exists_twoAlike
  have hi := hs.consistent.inv
  have hplain : (Call.delete ⟨[0x2F, 0x61]⟩).Plain s := plain_of_root rfl
  have hget : s.rootDir.getChild (Path.name ⟨[0x2F, 0x61]⟩) = some (.file ⟨fromStr [0x61], 0, ⟨3, 1⟩, []⟩) :=
    getChild_rootDir hs.root rfl
  obtain ⟨s', hrun⟩ := delete_existing hi hplain.live rfl (getParent_root rfl) hget
  obtain ⟨chain, es, owned, hh, hcache, -⟩ := hs.consistent.tree
  refine ⟨s, s', (new (fromStr longPath.name) 4 .file).slot, hs.consistent,
    ⟨chain, es, s.rootPtr, es, hh.listing, .here, ?_, rfl⟩, hrun, by decide, ?_⟩
  · rw [← hcache, hs.root]
    rfl
  · rintro ⟨t, t', -, hmount, ⟨size, -, hsize⟩, -⟩
    have hcall : (Call.delete ⟨[0x2F, 0x61]⟩).run s = (.ok (), s') := hrun
    cases outcome_of_run hi hplain.live hcall with
    | @deleted _ dir _ _ _ _ _ _ _ _ _ l₁ l₂ c _ _ _ _ _ hloc hd =>
      obtain ⟨inner', hu⟩ := hd.update hloc.at_dir hloc.head_iff
      obtain rfl := rootDir_of_getParent hloc.parent rfl
      have hsplit : l₁ = [] ∧ l₂ = [new (fromStr longPath.name) 4 .file,
          new (fromStr longPath.name) 5 .directory] := by
        have hchildren := hs.root.symm.trans hd.child.children
        cases l₁ with
        | nil => exact ⟨rfl, (List.cons.inj hchildren).2.symm⟩
        | cons x l =>
          have hfirst := hd.child.first x List.mem_cons_self
          rw [← (List.cons.inj hchildren).1] at hfirst
          exact absurd (by decide) hfirst
      obtain ⟨rfl, rfl⟩ := hsplit
      obtain ⟨chain₁, owned₁, hh', -⟩ := hloc.new_tree hu
      obtain ⟨t₂, ht₂⟩ := hh'.remount (hu.inv hloc.at_dir).mounted
      obtain rfl := Except.ok.inj (hmount.symm.trans ht₂.run)
      -- the name is looked up in the new root
      obtain ⟨-, dir', f, hpar', hget', -⟩ := child_of_fileSize hsize
      obtain rfl := rootDir_of_getParent hpar' (by decide)
      have hslot := getChild_slot t'.rootDir storedPath.name
      rw [hget', show t'.rootDir.children = t'.root from rfl, ht₂.slots, if_pos (by decide)] at hslot
      have hfound : (lookup (visible (([] ++ moveLast [new (fromStr longPath.name) 4 .file,
          new (fromStr longPath.name) 5 .directory]).map DirectoryEntry.slot))
          storedPath.name).map Slot.kind = some .directory := by decide
      rw [← hslot] at hfound
      cases hfound

end MaramOS
