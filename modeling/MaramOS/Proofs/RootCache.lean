import MaramOS.Proofs.Creation
import MaramOS.Proofs.ReadWrite

/-! The cached root and the root on disk. Every call patches the cache beside the directory blocks, so the two agree
after a call if the entry that it puts into the cache is the one that the parser makes of the new slot. A new file and
a rewritten one get no links in the cache, and a symlink two levels down is looked for in the root but not refreshed
there; all else is mirrored. -/

namespace MaramOS

open List Prog Volume LemonFS
open DirectoryEntry renaming slot → slotOf

/-- The cached root is what the parser makes of the root on disk. -/
structure Mirrors (s : LemonFS) : Prop where
  slots : ∃ chain, DirChain s.disk s.rootPtr chain (s.root.map slotOf)
  parsed : ∀ c ∈ s.root, Parsed s.disk c

/-- What a call on the root puts into the cache is what it puts on disk. -/
def Call.Mirrored (s : LemonFS) : Call → Prop
  | .create path flags => path.parent.isRoot = true →
      (∀ bits, DirEntryFlags.fromBits (UInt8.ofNat flags) = some bits → FileType.fromDirflags bits ≠ .file) ∧
        (Filename.fromStr path.name).isEmpty = false
  | .write path src => path.parent.isRoot = true → ∀ f, s.rootDir.getChild path.name = some (.file f) →
      (fileBlocks f.links).length = 8 * src.count ∧ coalesce (fileBlocks f.links) = f.links
  | .delete _ => True
  | .routeSymlink symlink dest => symlink.parent.isRoot = false → symlink.parent.parent.isRoot = true →
      ∀ name old target, s.rootDir.getChild symlink.name = some (.symLink name old) →
        s.routeTarget dest = .ok target → target = old

section Mount

variable {s : LemonFS} {d : Disk}

theorem eq_of_parsed {l l' : List DirectoryEntry} (h : ∀ c ∈ l, Parsed d c) (h' : ∀ c ∈ l', Parsed d c)
    (hslots : l.map slotOf = l'.map slotOf) : l = l' := by
  induction l generalizing l' with
  | nil => exact (map_eq_nil_iff.1 hslots.symm).symm
  | cons c l ih =>
    cases l' with
    | nil => cases hslots
    | cons c' l' =>
      obtain ⟨hhead, htail⟩ := List.cons.inj hslots
      rw [(h c mem_cons_self).ext (h' c' mem_cons_self) hhead,
        ih (fun x hx => h x (mem_cons_of_mem _ hx)) (fun x hx => h' x (mem_cons_of_mem _ hx)) htail]

theorem mounted_of_init (h : init d = .ok s) : ∃ d' sb, mount d' sb = .ok s := by
  unfold init at h
  split at h
  · exact ⟨_, _, h⟩
  · split at h
    · exact ⟨_, _, h⟩
    · cases h
  · cases h

theorem root_of_mount {sb : SuperBlock} (h : mount d sb = .ok s) :
    ∃ dir, Directory.openAt s.disk (Filename.fromStr [0x2F]) s.rootPtr = .ok dir ∧ dir.children = s.root := by
  unfold mount at h
  cases hblocks : (range' sb.bitmapStart (sb.dataStart - sb.bitmapStart)).mapM (readData d) with
  | error e =>
    rw [hblocks, error_bind] at h
    cases h
  | ok blocks =>
  cases hbitmap : loadBitmap sb blocks with
  | error e =>
    rw [hblocks, ok_bind, hbitmap, error_bind] at h
    cases h
  | ok bitmap =>
  cases hroot : Directory.openAt d (Filename.fromStr [0x2F]) ⟨sb.dataEnd, 512⟩ with
  | error e =>
    rw [hblocks, ok_bind, hbitmap, ok_bind, hroot, error_bind] at h
    cases h
  | ok dir =>
    rw [hblocks, ok_bind, hbitmap, ok_bind, hroot, ok_bind] at h
    cases h
    exact ⟨dir, hroot, rfl⟩

theorem mirrors_of_init (hi : s.Inv) (h : init d = .ok s) : Mirrors s := by
  obtain ⟨d', sb, hmount⟩ := mounted_of_init h
  obtain ⟨dir, hopen, hchildren⟩ := root_of_mount hmount
  obtain ⟨chain, es, owned, hh, -⟩ := hi.tree
  obtain ⟨hn, hn', -⟩ := nodup_append.1 hh.nodup
  obtain ⟨dir', hopen', -, -, hslots, hparsed⟩ := hh.listing.openAt rfl (hh.owns.readable hn')
    (length_le_of_nodup hn hh.listing.mem_lt) (Filename.fromStr [0x2F])
  rw [hopen] at hopen'
  cases hopen'
  rw [hchildren] at hslots hparsed
  exact ⟨⟨chain, by rw [hslots]; exact hh.listing⟩, hparsed⟩

theorem Mirrors.remount (h : Mirrors s) (hi : s.Inv) :
    ∃ t, init s.disk = .ok t ∧ t.disk = s.disk ∧ t.rootDir = s.rootDir := by
  obtain ⟨chain, es, owned, hh, -⟩ := hi.tree
  obtain ⟨t, ht⟩ := hh.remount hi.mounted
  obtain ⟨chain', hchain'⟩ := h.slots
  obtain ⟨-, hes⟩ := hh.listing.unique hchain'
  refine ⟨t, ht.run, ht.disk, ?_⟩
  rw [rootDir, rootDir, ht.rootPtr, eq_of_parsed ht.parsed h.parsed (ht.slots.trans hes)]

end Mount

theorem answers_congr {s t : LemonFS} (hdisk : t.disk = s.disk) (hroot : t.rootDir = s.rootDir) (path : Path) :
    t.fileSize path = s.fileSize path ∧ t.list path = s.list path ∧ ∀ dest, t.read path dest = s.read path dest := by
  have hpar : t.getParent path = s.getParent path := by rw [getParent, getParent, hdisk, hroot]
  have hcache : t.root = s.root := congrArg Directory.children hroot
  refine ⟨?_, ?_, fun dest => ?_⟩
  · rw [fileSize, fileSize, hpar]
  · rw [LemonFS.list, LemonFS.list, hpar, hcache, hdisk]
  · rw [LemonFS.read, LemonFS.read, hpar, hdisk]

section Frame

variable {d d' : Disk} {es : List Slot} {owned : List ℕ} {own chain inner : List ℕ} {e : Slot} {sub : List Slot}

theorem Parsed.frame {c : DirectoryEntry} (h : Parsed d c) (hown : Owns d [c.slot] own) (hnodup : own.Nodup)
    (hn : d'.sectorCount = d.sectorCount) (hsame : ∀ x ∈ own, d'.sectors x = d.sectors x) :
    Parsed d' c := by
  cases c with
  | directory => trivial
  | symLink => trivial
  | file f =>
    obtain ⟨ind, ext, rfl, hlink⟩ := hown.file_inv rfl
    have hind := (nodup_append.1 hnodup).1
    have hlink' := hlink.frame hn fun x hx => hsame x (mem_append_left _ hx)
    have hlinks := links_of_parsed h hlink (length_le_of_nodup hind fun x hx => (hlink.mem_ind x hx).2)
    refine ⟨?_, h.2⟩
    rw [hlinks]
    exact hlink'.resolveLinks (length_le_of_nodup hind fun x hx => (hlink'.mem_ind x hx).2)

theorem SlotIn.part_subset (h : SlotIn d es e) (howns : Owns d es owned) (hk : e.kind = .directory)
    (hchain : DirChain d e.link chain sub) (hsub : Owns d sub inner) :
    chain ++ inner ⊆ owned := by
  induction h generalizing owned with
  | here he =>
    obtain ⟨own, hown, hpart⟩ := howns.of_mem he
    obtain ⟨chain', sub', inner', rfl, -, hchain', hinner'⟩ := hown.directory_inv hk
    obtain ⟨rfl, rfl⟩ := hchain.unique hchain'
    obtain rfl := hsub.unique hinner'
    exact hpart.subset
  | inside hmem hkd hchain1 _ ih =>
    obtain ⟨own, hown, hpart⟩ := howns.of_mem hmem
    obtain ⟨chain', sub', inner', rfl, -, hchain', hinner'⟩ := hown.directory_inv hkd
    obtain ⟨-, rfl⟩ := hchain1.unique hchain'
    exact fun x hx => hpart.subset (mem_append_right _ (ih hinner' hk hchain hx))

theorem SlotIn.apart {e' : Slot} (h : SlotIn d es e) (howns : Owns d es owned) (hnodup : owned.Nodup)
    (hk : e.kind = .directory) (hchain : DirChain d e.link chain sub) (hsub : Owns d sub inner) (he' : e' ∈ es)
    (hk' : e'.kind ≠ .directory) (hown' : Owns d [e'] own) :
    ∀ x ∈ own, x ∉ chain ++ inner := by
  have happart : ∀ top ∈ es, top.kind = .directory → ∀ part, Owns d [top] part → chain ++ inner ⊆ part →
      ∀ x ∈ own, x ∉ chain ++ inner := by
    intro top htop hkt part hpart hin x hx hx'
    refine howns.disjoint hnodup he' htop ?_ hown' hpart hx (hin hx')
    rintro rfl
    exact hk' hkt
  cases h with
  | here he =>
    obtain ⟨part, hpart, -⟩ := howns.of_mem he
    exact happart e he hk part hpart ((SlotIn.here mem_cons_self).part_subset hpart hk hchain hsub)
  | inside hmem hkd hchain1 hin =>
    obtain ⟨part, hpart, -⟩ := howns.of_mem hmem
    exact happart _ hmem hkd part hpart
      ((SlotIn.inside mem_cons_self hkd hchain1 hin).part_subset hpart hk hchain hsub)

end Frame

section Step

variable {s s' : LemonFS} {c : Call} {path : Path} {dir : Directory}
  {chain0 owned0 before chain inner after chain' inner' : List ℕ} {es slots : List Slot} {v1 : Volume}
  {children' : List DirectoryEntry} {x : DirectoryEntry} {l1 l2 : List DirectoryEntry} {i1 i2 : List ℕ}

theorem Mirrors.shown (h : Mirrors s) : Shown s.root := by
  obtain ⟨chain, hchain⟩ := h.slots
  intro x hx
  simpa using filter_eq_self.1 hchain.visible x.slot (mem_map_of_mem hx)

theorem Mirrors.below (h : Mirrors s) (hlive : c.Live s)
    (hloc : Located s c.path dir chain0 es owned0 before chain slots inner after)
    (hu : Update s dir chain inner v1 children' chain' inner' s') (hne : c.path.parent.isRoot = false) : Mirrors s' := by
  have hat := hloc.at_dir
  have hh := hat.holds
  have hhead : dir.head ≠ s.rootPtr := fun heq => by simpa [hne] using hloc.head_iff.2 heq
  have hroot := hu.uncached hhead
  obtain ⟨chain1, hchain1⟩ := h.slots
  obtain ⟨-, rfl⟩ := hh.listing.unique hchain1
  obtain ⟨chain2, owned2, hh', -⟩ := hloc.new_tree hu
  rw [if_neg (by rw [Path.components_parent, ← Path.isRoot_parent, hne]; exact Bool.false_ne_true)] at hh'
  refine ⟨⟨chain2, by rw [hroot]; exact hh'.listing⟩, fun x hx => ?_⟩
  rw [hroot] at hx
  obtain ⟨e, hin, hk, hlink⟩ := hlive.resolve_left (by rw [hne]; exact Bool.false_ne_true) dir _ _ hloc.parent hh.listing
  have hnodup := (nodup_append.1 hh.nodup).2.1
  obtain ⟨own, hown, hsub⟩ := hh.owns.of_mem (mem_map_of_mem (f := slotOf) hx)
  by_cases hkx : x.slot.kind = .directory
  · cases x with
    | directory => trivial
    | file => cases hkx
    | symLink => trivial
  · refine (h.parsed x hx).frame hown (hnodup.sublist hsub) hu.touches_all.shape.sectorCount fun y hy => ?_
    have hout := hin.apart hh.owns hnodup hk (hlink ▸ hat.focus.listing) hat.slots_owns
      (mem_map_of_mem (f := slotOf) hx) hkx hown y hy
    exact hu.touches_all.disk y hout (hh.used y (mem_append_right _ (hsub.subset hy)))

theorem Mirrors.of_root (hu : Update s s.rootDir chain inner v1 children' chain' inner' s') (hroot : s'.root = children')
    (hshown : Shown children') (hparsed : ∀ x ∈ children', Parsed s'.disk x) : Mirrors s' := by
  have hptr : s'.rootPtr = s.rootPtr := by rw [rootPtr, rootPtr, hu.superblock]
  refine ⟨⟨chain', ?_⟩, by rwa [hroot]⟩
  rw [hptr, hroot, ← visible_of_shown hshown]
  exact hu.synced.listing

theorem Mirrors.parsed_after (h : Mirrors s) (hat : At s s.rootDir chain0 es owned0 before chain slots inner after)
    {t : List ℕ} (ht : s.toVolume.Touches t v1)
    (hs : Synced { s.rootDir with children := children' } chain chain' v1 s'.toVolume) (hx : x ∈ s.root)
    (hout : ∀ own, Owns s.disk [x.slot] own → ∀ y ∈ own, y ∉ t) : Parsed s'.disk x := by
  have hmem : x.slot ∈ visible (s.rootDir.children.map slotOf) := by
    rw [show s.rootDir.children = s.root from rfl, visible_of_shown h.shown]
    exact mem_map_of_mem hx
  obtain ⟨own, hown, hsub⟩ := hat.focus.owns.of_mem hmem
  have hnodup := (nodup_append.1 hat.nodup).2.1
  refine (h.parsed x hx).frame hown (hnodup.sublist hsub) (ht.shape.trans hs.shape).sectorCount fun y hy => ?_
  exact hat.same ht hs (hsub.subset hy) (hout own hown y hy)

theorem mem_visible_slot {l : List DirectoryEntry} (hx : x ∈ l) (hname : x.slot.name.isEmpty = false) :
    x.slot ∈ visible (l.map slotOf) :=
  mem_filter.2 ⟨mem_map_of_mem hx, by rw [hname]; rfl⟩

theorem Mirrors.parsed_beside (h : Mirrors s) (hat : At s s.rootDir chain0 es owned0 before chain slots inner after)
    {y : DirectoryEntry} {own : List ℕ} (hc : Child s s.rootDir inner path l1 y l2 i1 own i2)
    (ht : s.toVolume.Touches own v1)
    (hs : Synced { s.rootDir with children := children' } chain chain' v1 s'.toVolume) (hx : x ∈ l1 ∨ x ∈ l2) :
    Parsed s'.disk x := by
  have hroot : s.root = l1 ++ y :: l2 := hc.children
  have hmem : x ∈ s.root := by
    rw [hroot, mem_append, mem_cons]
    exact hx.imp id .inr
  refine h.parsed_after hat ht hs hmem fun own' hown z hz => (hc.apart hat ?_ hown hz).2
  exact hx.imp (mem_visible_slot · (h.shown x hmem)) (mem_visible_slot · (h.shown x hmem))

theorem Mirrors.parsed_written (h : Mirrors s) (hat : At s s.rootDir chain0 es owned0 before chain slots inner after)
    {src : PhysPage} {f f' : File} {ind lbas : List ℕ} {ext : List LinkPointer}
    (hw : Written s s.rootDir chain inner path src l1 f l2 i1 ind ext i2 f' lbas v1 chain' s')
    (hlen : (fileBlocks f.links).length = 8 * src.count) (hcoalesce : coalesce (fileBlocks f.links) = f.links) :
    Parsed s'.disk (.file f') := by
  have hmem : .file f ∈ s.root := by
    rw [show s.root = l1 ++ .file f :: l2 from hw.child.children]
    exact mem_append_right _ mem_cons_self
  have hnodup := (nodup_append.1 hat.nodup).2.1
  rw [hw.child.split, nodup_append, nodup_append, nodup_append] at hnodup
  have hind : ind.Nodup := hnodup.2.1.1.1
  have hlinks := links_of_parsed (h.parsed _ hmem) hw.link
    (length_le_of_nodup hind fun x hx => (hw.link.mem_ind x hx).2)
  rw [hlinks] at hlen hcoalesce
  have hnew : newChain s.bitmap ind ext (8 * src.count) = fileBlocks ext := by
    rw [newChain, ← hlen, take_left]
  have hlink := hw.link_after hat
  have haddrs := hw.addrs_new
  have hlbas := (nodup_append.1 hw.rewritten.nodup).1
  rw [hnew, hcoalesce] at hlink haddrs
  rw [hw.rewritten.file]
  refine ⟨?_, ?_⟩
  · rw [show File.links { f with head := f'.head, size := 4096 * src.count } = f.links from rfl, hlinks]
    exact hlink.resolveLinks (length_le_of_nodup hlbas fun x hx => (hlink.mem_ind x hx).2)
  · have hsum := wsum_of_addrs haddrs (hnew ▸ (nodup_append.1 hw.rewritten.nodup).2.1) fun x hx =>
      hw.newChain_lt hat x (mem_append_right _ (hnew ▸ hx))
    rw [show File.links { f with head := f'.head, size := 4096 * src.count } = f.links from rfl, hlinks, hsum, hlen]
    show 4096 * src.count = _
    omega

theorem Mirrors.step (h : Mirrors s) (hi : s.Inv) (hlive : c.Live s) (hblank : c.Blank s) (hmir : c.Mirrored s)
    (hrun : c.run s = (.ok (), s')) : s'.Inv ∧ Mirrors s' := by
  cases outcome_of_run hi hlive hrun with
  | @created path flags bits dir _ _ _ _ _ _ _ _ _ start _ _ hloc hbits hc =>
    obtain ⟨inner', hu⟩ := hloc.created hbits hc hblank
    refine ⟨hu.inv hloc.at_dir, ?_⟩
    cases hroot : path.parent.isRoot with
    | false => exact @Mirrors.below _ _ (.create path flags) _ _ _ _ _ _ _ _ _ _ _ _ _ h hlive hloc hu hroot
    | true =>
      obtain ⟨hkind, hname⟩ := hmir hroot
      have hkind := hkind bits hbits
      obtain rfl := rootDir_of_getParent hloc.parent hroot
      refine .of_root hu (by rw [hc.root, if_pos hroot]; rfl) (fun x hx => ?_) fun x hx => ?_
      · rcases mem_append.1 hx with hx | hx
        · exact h.shown x hx
        · obtain rfl := mem_singleton.1 hx
          generalize FileType.fromDirflags bits = kind at hkind
          cases kind with
          | file => exact absurd rfl hkind
          | directory => exact hname
          | symlink => exact hname
      · rcases mem_append.1 hx with hx | hx
        · exact h.parsed_after hloc.at_dir hc.touches hc.synced hx fun _ _ _ _ => not_mem_nil
        · obtain rfl := mem_singleton.1 hx
          generalize FileType.fromDirflags bits = kind at hkind
          cases kind with
          | file => exact absurd rfl hkind
          | directory => trivial
          | symlink => trivial
  | @written path src dir _ _ _ _ _ _ _ _ _ l1 l2 f f' _ _ _ _ _ _ _ hloc hw =>
    have hu := hw.update hloc.at_dir hloc.head_iff
    refine ⟨hu.inv hloc.at_dir, ?_⟩
    cases hroot : path.parent.isRoot with
    | false => exact @Mirrors.below _ _ (.write path src) _ _ _ _ _ _ _ _ _ _ _ _ _ h hlive hloc hu hroot
    | true =>
      obtain rfl := rootDir_of_getParent hloc.parent hroot
      have hre : Rearranged (.write path src) (l1 ++ .file f :: l2) (l1 ++ .file f' :: l2) :=
        .rewritten (by rw [hw.rewritten.file])
      have hshown := h.shown
      rw [show s.root = l1 ++ .file f :: l2 from hw.child.children] at hshown
      obtain ⟨hlen, hcoalesce⟩ := hmir hroot f hw.child.getChild
      refine .of_root hu (by rw [hw.root, if_pos hroot]) (hre.shown trivial hshown) fun x hx => ?_
      rcases mem_append.1 hx with hx | hx
      · exact h.parsed_beside hloc.at_dir hw.child hw.rewritten.touches hw.synced (.inl hx)
      · rcases mem_cons.1 hx with rfl | hx
        · exact h.parsed_written hloc.at_dir hw hlen hcoalesce
        · exact h.parsed_beside hloc.at_dir hw.child hw.rewritten.touches hw.synced (.inr hx)
  | @deleted path dir _ _ _ _ _ _ _ _ _ l1 l2 x _ _ _ _ _ hloc hd =>
    obtain ⟨inner', hu⟩ := hd.update hloc.at_dir hloc.head_iff
    refine ⟨hu.inv hloc.at_dir, ?_⟩
    cases hroot : path.parent.isRoot with
    | false => exact @Mirrors.below _ _ (.delete path) _ _ _ _ _ _ _ _ _ _ _ _ _ h hlive hloc hu hroot
    | true =>
      obtain rfl := rootDir_of_getParent hloc.parent hroot
      have hre : Rearranged (.delete path) (l1 ++ x :: l2) (l1 ++ moveLast l2) := .removed
      have hshown := h.shown
      rw [show s.root = l1 ++ x :: l2 from hd.child.children] at hshown
      refine .of_root hu (by rw [hd.root, if_pos hroot]) (hre.shown trivial hshown) fun y hy => ?_
      rw [mem_append, mem_moveLast] at hy
      exact h.parsed_beside hloc.at_dir hd.child (hd.wipes.touches (List.Subset.refl _)) hd.synced hy
  | @routed symlink dest dir _ _ _ _ _ _ _ _ _ l1 l2 name old target _ _ _ _ hloc hr =>
    have hu := hloc.routed hr
    refine ⟨hu.inv hloc.at_dir, ?_⟩
    cases hroot : symlink.parent.parent.isRoot with
    | false => exact @Mirrors.below _ _ (.routeSymlink symlink dest) _ _ _ _ _ _ _ _ _ _ _ _ _ h hlive hloc hu hroot
    | true =>
      obtain rfl := rootDir_of_getParent hloc.parent hroot
      have hre : Rearranged (.routeSymlink symlink dest) (l1 ++ .symLink name old :: l2)
        (l1 ++ .symLink name target :: l2) :=
        .retargeted
      have hchildren : s.root = l1 ++ .symLink name old :: l2 := hr.child.children
      have hshown := h.shown
      rw [hchildren] at hshown
      have hcache : s'.root = l1 ++ .symLink name target :: l2 := by
        rw [hr.root]
        split_ifs with hparent
        · rfl
        · rw [hchildren, hmir (by simpa using hparent) hroot name old target hr.child.getChild hr.routed]
      refine .of_root hu hcache (hre.shown trivial hshown) fun y hy => ?_
      have ht : s.toVolume.Touches [] s.toVolume := Touches.refl _ _
      rcases mem_append.1 hy with hy | hy
      · exact h.parsed_after hloc.at_dir ht hr.synced (by rw [hchildren]; exact mem_append_left _ hy)
          fun _ _ _ _ => not_mem_nil
      · rcases mem_cons.1 hy with rfl | hy
        · trivial
        · exact h.parsed_after hloc.at_dir ht hr.synced
            (by rw [hchildren]; exact mem_append_right _ (mem_cons_of_mem _ hy)) fun _ _ _ _ => not_mem_nil

end Step

/-- A successful call on the root or a live directory that puts into the cache what it puts on disk, with an empty
block for a new directory. -/
def Call.Mirroring (s : LemonFS) (c : Call) (r : Except Fault Unit) : Prop :=
  r = .ok () ∧ c.Live s ∧ c.Blank s ∧ c.Mirrored s

/-- In every run of such calls from a mounted tree, a fresh mount parses the root that is cached, and gives the same
answers. -/
theorem cache_mirrors_disk (d : Disk) (s₀ s : LemonFS) (h₀ : init d = .ok s₀) (hi : s₀.Inv)
    (hruns : Runs Call.run Call.Mirroring s₀ s) :
    ∃ t, init s.disk = .ok t ∧ t.root = s.root ∧
      ∀ path, t.fileSize path = s.fileSize path ∧ t.list path = s.list path ∧
        ∀ dest, t.read path dest = s.read path dest := by
  have hinv : s.Inv ∧ Mirrors s := by
    refine hruns.invariant (fun s => s.Inv ∧ Mirrors s) ⟨hi, mirrors_of_init hi h₀⟩ ?_
    rintro s c r s' ⟨hi, hm⟩ hrun ⟨rfl, hlive, hblank, hmir⟩
    exact hm.step hi hlive hblank hmir hrun
  obtain ⟨t, hrun, hdisk, hroot⟩ := hinv.2.remount hinv.1
  exact ⟨t, hrun, congrArg Directory.children hroot, answers_congr hdisk hroot⟩

theorem exists_fresh_init : ∃ d s, init d = .ok s ∧ Fresh (disk4101 fun _ => Sector.zero) s := by
  have hspec := format_spec ⟨disk4101 fun _ => Sector.zero, BitmapAllocator.new 0⟩
  rcases hrun : format ⟨disk4101 fun _ => Sector.zero, BitmapAllocator.new 0⟩ with ⟨_ | sb, v⟩
  · exact absurd (wp_error hspec hrun).2 (by norm_num [disk4101])
  · have hf := wp_ok hspec hrun
    obtain ⟨s, hs, -⟩ := @Formatted.mount _ _ _ hf (sealSb sb) rfl rfl rfl
    have hinit : init v.disk = .ok s := by
      rw [init, hf.getSuperblock]
      exact hs
    exact ⟨v.disk, s, hinit, _, sb, v, hrun, .inl hinit⟩

/-- A directory made in the root of a fresh partition. -/
theorem cache_mirrors_new_directory :
    ∃ d s₀ s t, init d = .ok s₀ ∧ create ⟨[0x2F, 0x64]⟩ 1 s₀ = (.ok (), s) ∧ init s.disk = .ok t ∧ t.root = s.root := by
  obtain ⟨d, s₀, hinit, h₀⟩ := exists_fresh_init
  obtain ⟨s, hrun, -⟩ := @create_first _ ⟨[0x2F, 0x64]⟩ 1 1 .directory s₀ h₀ rfl rfl rfl (by decide)
  have hzero : s₀.disk.sectors 3 = Sector.zero := h₀.sector le_rfl (by norm_num)
  have hmir : (Call.create ⟨[0x2F, 0x64]⟩ 1).Mirrored s₀ := by
    refine fun _ => ⟨fun bits hbits => ?_, by decide⟩
    obtain rfl : (1 : UInt8) = bits := Option.some.inj hbits
    decide
  have hcall : (Call.create ⟨[0x2F, 0x64]⟩ 1).run s₀ = (.ok (), s) := hrun
  have hplain : (Call.create ⟨[0x2F, 0x64]⟩ 1).Plain s₀ := plain_of_root rfl
  obtain ⟨t, hmount, hroot, -⟩ := cache_mirrors_disk d s₀ s hinit h₀.inv
    (.call .start hcall ⟨rfl, hplain.live, h₀.small.blank hzero _ _, hmir⟩)
  exact ⟨d, s₀, s, t, hinit, hrun, hmount, hroot⟩

/-- A new file in the root is cached with size 0, and parsed with size 1 by the next mount. -/
theorem new_file_cached_empty :
    ∃ d s₀ s t, init d = .ok s₀ ∧ create ⟨[0x2F, 0x61]⟩ 0 s₀ = (.ok (), s) ∧ init s.disk = .ok t ∧
      s.fileSize ⟨[0x2F, 0x61]⟩ = .ok 0 ∧ t.fileSize ⟨[0x2F, 0x61]⟩ = .ok 1 := by
  obtain ⟨d, s₀, hinit, h₀⟩ := exists_fresh_init
  obtain ⟨s, hrun, hs, -⟩ := create_file h₀
  have hget := hs.getChild
  obtain ⟨chain, es, owned, hh, hcache, -⟩ := hs.consistent.tree
  obtain ⟨t, ht⟩ := hh.remount hs.consistent.mounted
  have hl : lookup es (Path.name ⟨[0x2F, 0x61]⟩) = some ⟨Filename.fromStr [0x61], .file, ⟨3, 1⟩⟩ := by
    rw [← hcache, hs.root]
    rfl
  obtain ⟨dir, f, hpar, hget', hhead, hparsed⟩ := ht.file .here hl rfl
  have hlink : LinkChain s.disk ⟨3, 1⟩ [] [⟨3, 1⟩] := .extent rfl rfl
  have hlinks : f.links = [⟨3, 1⟩] := links_of_parsed hparsed (by rw [hhead]; exact hlink) (Nat.zero_le _)
  refine ⟨d, s₀, s, t, hinit, hrun, ht.run, fileSize_of_child rfl (getParent_root rfl) hget, ?_⟩
  rw [fileSize_of_child rfl hpar hget', hparsed.2, hlinks]
  rfl

end MaramOS
