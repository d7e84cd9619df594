import MaramOS.Proofs.Sample

/-! What happens to the other entries of the directory a call works on. The directory is parsed into its children
and written back whole, so an entry is still there if the parser makes a child of it and the child is stored as
the entry was: its file can be resolved and its flags are those the file system writes itself. -/

namespace MaramOS

open List Prog Volume LemonFS
open DirectoryEntry (toDentry fromDirEntry slot_toDentry)
open DirectoryEntry renaming slot → slotOf

/-- The entries in the blocks of a directory, the empty ones among them. -/
def dirEntries (d : Disk) (chain : List ℕ) : List DirEntry :=
  chain.flatMap fun x => List.ofFn (DirBlock.decode (d.sectors x)).entries

def listed (es : List DirEntry) : List DirEntry := es.filter fun e => !e.name.isEmpty

def Slot.Opens (d : Disk) (e : Slot) : Prop := e.kind = .file → ∃ links, resolveLinks d e.link = .ok links

/-- The flags are those of a file, a directory or a symlink, with no other bit. -/
def DirEntry.Regular (e : DirEntry) : Prop := e.flags = 0 ∨ e.flags = .isDir ∨ e.flags = .isSymlink

def Directory.Lists (d : Disk) (dir : Directory) (slots : List Slot) : Prop :=
  ∀ e, e ∈ visible (dir.children.map slotOf) ↔ e ∈ slots ∧ e.Opens d

def Call.entryName : Call → Str
  | .create path _ => path.name
  | .write path _ => path.name
  | .delete path => path.name
  | .routeSymlink symlink _ => symlink.name

/-- An entry that is not the one the call works on: it has another name, also as a new entry would store it. -/
def Call.Other (c : Call) (e : DirEntry) : Prop :=
  e.name.isEmpty = false ∧ e.name.toStr ≠ c.entryName ∧
    ∀ kind, e.name ≠ (DirectoryEntry.new (Filename.fromStr c.entryName) 0 kind).filename

section Parse

variable {d : Disk} {cs : List DirectoryEntry} {ptr : LinkPointer} {chain : List ℕ} {slots : List Slot}

theorem fromDirEntry_ok {e : DirEntry} {c : DirectoryEntry} (h : fromDirEntry d e = .ok c) :
    c.slot = e.slot ∧ e.slot.Opens d := by
  unfold fromDirEntry at h
  by_cases hsym : e.flags.contains .isSymlink = true
  · rw [if_pos hsym] at h
    cases h
    refine ⟨by simp [slotOf, DirEntry.slot, hsym], fun hk => ?_⟩
    simp [DirEntry.slot, hsym] at hk
  by_cases hdir : e.flags.contains .isDir = true
  · rw [if_neg hsym, if_pos hdir] at h
    cases h
    refine ⟨by simp [slotOf, DirEntry.slot, hsym, hdir], fun hk => ?_⟩
    simp [DirEntry.slot, hsym, hdir] at hk
  · rw [if_neg hsym, if_neg hdir] at h
    have hflags : (e.flags.contains .isDir || e.flags.contains .isSymlink) = false := by simp [hsym, hdir]
    rw [File.fromDirEntry, if_neg (by rw [hflags]; exact Bool.false_ne_true)] at h
    cases hlinks : resolveLinks d e.link with
    | error fault =>
      rw [hlinks, error_bind] at h
      cases h
    | ok links =>
      rw [hlinks, ok_bind] at h
      cases h
      exact ⟨by simp [slotOf, DirEntry.slot, hsym, hdir], fun _ => ⟨links, hlinks⟩⟩

theorem mem_parseEntries {es : List DirEntry} (h : parseEntries d es = .ok cs) (e : Slot) :
    e ∈ cs.map slotOf ↔ e ∈ visible (es.map DirEntry.slot) ∧ e.Opens d := by
  induction es generalizing cs with
  | nil =>
    cases h
    simp [visible]
  | cons a es ih =>
    have hname : a.slot.name = a.name := rfl
    rw [parseEntries] at h
    by_cases hempty : a.name.isEmpty = true
    · have hskip : visible ((a :: es).map DirEntry.slot) = visible (es.map DirEntry.slot) := by
        simp [visible, hname, hempty]
      rw [if_pos hempty] at h
      rw [hskip]
      exact ih h
    · have hkeep : visible ((a :: es).map DirEntry.slot) = a.slot :: visible (es.map DirEntry.slot) := by
        simp [visible, hname, hempty]
      rw [if_neg hempty] at h
      rw [hkeep, mem_cons]
      cases hparse : fromDirEntry d a with
      | ok c =>
        rw [hparse] at h
        obtain ⟨hslot, hopens⟩ := fromDirEntry_ok hparse
        cases hrest : parseEntries d es with
        | error fault =>
          rw [hrest] at h
          cases h
        | ok cs' =>
          rw [hrest] at h
          cases h
          rw [map_cons, mem_cons, ih hrest, hslot, or_and_right]
          refine or_congr_left ⟨fun he => ⟨he, he ▸ hopens⟩, fun he => he.1⟩
      | error fault =>
        have hclosed : ¬a.slot.Opens d := by
          intro hopens
          obtain ⟨c, hc, -⟩ := fromDirEntry_spec hopens
          rw [hparse] at hc
          cases hc
        rw [hparse] at h
        cases fault with
        | fs err =>
          rw [ih h, or_and_right]
          refine ⟨fun he => .inr he, fun he => he.resolve_left ?_⟩
          rintro ⟨rfl, hopens⟩
          exact hclosed hopens
        | panic => cases h
        | diverge => cases h

theorem mem_children_of_dirChain (h : DirChain d ptr chain slots) {k : ℕ}
    (hparse : addChildrenFromLink d k ptr = .ok cs) (e : Slot) :
    e ∈ cs.map slotOf ↔ e ∈ slots ∧ e.Opens d := by
  induction h generalizing k cs with
  | done hd =>
    cases k with
    | zero => cases hparse
    | succ k =>
      rw [addChildrenFromLink, hd] at hparse
      cases hparse
      simp
  | @block ptr sec chain es hd hr _ ih =>
    cases k with
    | zero => cases hparse
    | succ k =>
      rw [addChildrenFromLink, hd, LinkPointer.read, hr.read, Bool.not_true, if_neg Bool.false_ne_true,
        ok_bind] at hparse
      simp only at hparse
      cases hhere : parseEntries d (ofFn (DirBlock.decode sec).entries) with
      | error fault =>
        rw [hhere, error_bind] at hparse
        cases hparse
      | ok here =>
        rw [hhere, ok_bind] at hparse
        cases hrest : addChildrenFromLink d k (DirBlock.decode sec).next with
        | error fault =>
          rw [hrest, error_bind] at hparse
          cases hparse
        | ok rest =>
          rw [hrest, ok_bind] at hparse
          cases hparse
          rw [map_append, mem_append, mem_append, mem_parseEntries hhere, ih hrest, or_and_right,
            Sector.slots]

theorem slots_eq_dirEntries (h : DirChain d ptr chain slots) :
    slots = visible ((dirEntries d chain).map DirEntry.slot) := by
  induction h with
  | done => rfl
  | block _ hr _ ih =>
    rw [dirEntries, flatMap_cons, map_append, visible_append, hr.2, ← dirEntries, ← ih]
    rfl

end Parse

variable {e : DirEntry} {dir : Directory} {chain : List ℕ}

theorem toDentry_of_slot {c : DirectoryEntry} (hslot : c.slot = e.slot) (he : e.Regular) :
    c.toDentry = e := by
  obtain ⟨name, flags, link⟩ := e
  rcases he with rfl | rfl | rfl <;> cases c <;>
    simp_all [slotOf, DirEntry.slot, toDentry, DirEntryFlags.contains_stored]

theorem regular_toDentry (c : DirectoryEntry) : c.toDentry.Regular := by
  cases c with
  | file => exact .inl rfl
  | directory => exact .inr (.inl rfl)
  | symLink => exact .inr (.inr rfl)

theorem flatMap_of_getElem? {α β : Type} {l : List α} {f : α → List β} {g : ℕ → List β}
    (h : ∀ i x, l[i]? = some x → f x = g i) : l.flatMap f = (List.range l.length).flatMap g := by
  induction l using List.reverseRecOn with
  | nil => rfl
  | append_singleton l a ih =>
    have hlast : (l ++ [a])[l.length]? = some a := by simp
    rw [flatMap_append, flatMap_singleton, length_append, length_singleton, range_succ, flatMap_append, flatMap_singleton,
      h _ a hlast, ih fun i x hx => h i x ?_]
    rw [List.getElem?_append_left (List.getElem?_eq_some_iff.1 hx).1, hx]

theorem flatMap_parts {α : Type} (l : List α) (n : ℕ) :
    ((List.range n).flatMap fun i => (l.drop (i * 8)).take 8) = l.take (n * 8) := by
  induction n with
  | zero => simp
  | succ n ih => rw [range_succ, flatMap_append, flatMap_singleton, ih, Nat.succ_mul, List.take_add]

theorem listed_dirEntries {d : Disk} (hstored : ∀ i x, chain[i]? = some x → d.sectors x = (dir.blockAt chain i).encode)
    (hlen : dir.children.length ≤ 8 * chain.length) (hfits : ∀ c ∈ dir.children, c.slot.link.Fits) :
    listed (dirEntries d chain) = listed (dir.children.map toDentry) := by
  have hblock : ∀ i x, chain[i]? = some x → listed (ofFn (DirBlock.decode (d.sectors x)).entries) =
      listed (((dir.children.drop (i * 8)).take 8).map toDentry) := by
    intro i x hx
    have hpart : ∀ c ∈ (dir.children.drop (i * 8)).take 8, c.slot.link.Fits := fun c hc =>
      hfits c (mem_of_mem_drop (mem_of_mem_take hc))
    have hzero : listed (replicate (8 - (((dir.children.drop (i * 8)).take 8).map toDentry).length) DirEntry.zero) = [] :=
      filter_eq_nil_iff.2 fun e he => by rw [eq_of_mem_replicate he]; decide
    rw [hstored i x hx, entries_encode _ _ (fun _ => rfl) hpart]
    have hpad := ofFn_getD (((dir.children.drop (i * 8)).take 8).map toDentry) (by simp)
    rw [listed, listed, ← List.append_nil (filter _ (map toDentry _)), ← hzero, listed, ← filter_append]
    exact congrArg _ hpad
  calc listed (dirEntries d chain)
      = chain.flatMap fun x => listed (ofFn (DirBlock.decode (d.sectors x)).entries) := filter_flatMap
    _ = (List.range chain.length).flatMap fun i => listed (((dir.children.drop (i * 8)).take 8).map toDentry) :=
        flatMap_of_getElem? hblock
    _ = listed (((List.range chain.length).flatMap fun i => (dir.children.drop (i * 8)).take 8).map toDentry) := by
        simp only [listed, map_flatMap, filter_flatMap]
    _ = listed (dir.children.map toDentry) := by
        rw [flatMap_parts, take_of_length_le (by omega)]

theorem mem_listed {es : List DirEntry} : e ∈ listed es ↔ e ∈ es ∧ e.name.isEmpty = false := by
  rw [listed, mem_filter, Bool.not_eq_true']

theorem Synced.listed_dirEntries {chain' : List ℕ} {v v' : Volume} (h : Synced dir chain chain' v v')
    (hfits : ∀ c ∈ dir.children, c.slot.link.Fits) :
    listed (dirEntries v'.disk chain') = listed (dir.children.map toDentry) := by
  have hcover := dir.length_le_blocks
  refine MaramOS.listed_dirEntries h.stored ?_ hfits
  rw [h.length]
  omega

theorem Synced.mem_dirEntries {chain' : List ℕ} {v v' : Volume} (h : Synced dir chain chain' v v')
    (hfits : ∀ c ∈ dir.children, c.slot.link.Fits) (hname : e.name.isEmpty = false) :
    e ∈ dirEntries v'.disk chain' ↔ e ∈ dir.children.map toDentry := by
  rw [← and_iff_left_of_imp fun _ : e ∈ dirEntries v'.disk chain' => hname, ← mem_listed, h.listed_dirEntries hfits,
    mem_listed,
    and_iff_left hname]

section Survive

variable {s s' : LemonFS} {dir : Directory} {chain inner chain' : List ℕ} {slots : List Slot} {v₁ : Volume}
  {children' : List DirectoryEntry}

theorem mem_toDentry_iff (hlisting : DirChain s.disk dir.head chain slots) (hlists : dir.Lists s.disk slots)
    {e : DirEntry} (he : e ∈ dirEntries s.disk chain) (hname : e.name.isEmpty = false) :
    e ∈ dir.children.map toDentry ↔ e.slot.Opens s.disk ∧ e.Regular := by
  constructor
  · intro hmem
    obtain ⟨c, hc, rfl⟩ := mem_map.1 hmem
    refine ⟨((hlists _).1 ?_).2, regular_toDentry c⟩
    rw [slot_toDentry, visible, mem_filter]
    refine ⟨mem_map_of_mem hc, ?_⟩
    have hslot : c.slot.name = c.toDentry.name := by rw [← slot_toDentry]; rfl
    rw [hslot, hname]
    rfl
  · rintro ⟨hopens, hregular⟩
    have hmem : e.slot ∈ slots := by
      rw [slots_eq_dirEntries hlisting, visible, mem_filter]
      exact ⟨mem_map_of_mem he, by rw [show e.slot.name = e.name from rfl, hname]; rfl⟩
    obtain ⟨c, hc, hslot⟩ := mem_map.1 (mem_filter.1 ((hlists _).2 ⟨hmem, hopens⟩)).1
    exact mem_map.2 ⟨c, hc, toDentry_of_slot hslot hregular⟩

namespace LemonFS.Child

variable {path : Path} {l1 l2 : List DirectoryEntry} {x x' : DirectoryEntry} {i1 own i2 : List ℕ}

theorem keep (hc : Child s dir inner path l1 x l2 i1 own i2) :
    ∀ y ∈ dir.children, y.name ≠ path.name → y ∈ l1 ++ x' :: l2 := by
  intro y hy hne
  rw [hc.children] at hy
  simp only [mem_append, mem_cons] at hy ⊢
  rcases hy with hy | rfl | hy
  · exact .inl hy
  · exact absurd hc.named hne
  · exact .inr (.inr hy)

theorem old (hc : Child s dir inner path l1 x l2 i1 own i2) (hnamed : x'.name = path.name) :
    ∀ y ∈ l1 ++ x' :: l2, y.name ≠ path.name → y ∈ dir.children := by
  intro y hy hne
  rw [hc.children]
  simp only [mem_append, mem_cons] at hy ⊢
  rcases hy with hy | rfl | hy
  · exact .inl hy
  · exact absurd hnamed hne
  · exact .inr (.inr hy)

end LemonFS.Child

theorem LemonFS.Ready.rewrites (h : Ready s dir chain slots inner) {c : Call} (hpar : s.getParent c.path = .ok dir)
    (hrun : c.run s = (.ok (), s')) :
    ∃ chain' children' v₁, Synced { dir with children := children' } chain chain' v₁ s'.toVolume ∧
      (∀ x ∈ children', x.slot.link.Fits) ∧ ∀ x, c.Other x.toDentry → (x ∈ children' ↔ x ∈ dir.children) := by
  have hother : ∀ x : DirectoryEntry, c.Other x.toDentry → x.name ≠ c.entryName := by
    intro x hx
    have hne := hx.2.1
    rwa [show x.toDentry.name.toStr = x.name by cases x <;> rfl] at hne
  cases c with
  | create path flags =>
    obtain ⟨bits, start, v₁, chain', -, hc⟩ := wp_ok (create_spec h hpar flags) hrun
    have hstart : start < s.disk.sectorCount := by
      have hinside := h.area.inside
      rcases hc.taken with ⟨-, rfl, -⟩ | ⟨-, ht⟩
      · omega
      · have := h.area.free_lt start (ht.wasFree start mem_cons_self)
        omega
    refine ⟨chain', _, v₁, hc.synced, fun x hx => ?_, fun x hx => ⟨fun hmem => ?_, mem_append_left _⟩⟩
    · rcases mem_append.1 hx with hx | hx
      · exact h.fits x hx
      · rw [mem_singleton.1 hx]
        exact fits_new _ _ s.disk.fits hstart
    · refine (mem_append.1 hmem).resolve_right fun hnew => hx.2.2 (FileType.fromDirflags bits) ?_
      rw [mem_singleton.1 hnew]
      cases FileType.fromDirflags bits <;> rfl
  | write path src =>
    obtain ⟨l1, f, l2, i1, ind, ext, i2, f', lbas, v₁, chain', hw⟩ := wp_ok (write_spec h hpar src) hrun
    have hnamed : (DirectoryEntry.file f').name = path.name := by
      rw [hw.rewritten.file]
      exact hw.child.named
    exact ⟨chain', _, v₁, hw.synced, hw.child.fits_replace h hw.rewritten.fits, fun x hx =>
      ⟨fun hmem => hw.child.old hnamed x hmem (hother x hx), fun hmem => hw.child.keep x hmem (hother x hx)⟩⟩
  | delete path =>
    obtain ⟨l1, x, l2, i1, own, i2, v₁, chain', hd⟩ := wp_ok (delete_spec h hpar) hrun
    refine ⟨chain', _, v₁, hd.synced, hd.child.fits_remove h, fun y hy => ?_⟩
    rw [hd.child.children, mem_append, mem_append, mem_moveLast, mem_cons]
    refine or_congr_right ⟨.inr, fun hmem => hmem.resolve_left ?_⟩
    rintro rfl
    exact hother y hy hd.child.named
  | routeSymlink symlink dest =>
    obtain ⟨l1, name, old, target, l2, i1, own, i2, chain', hr⟩ := wp_ok (routeSymlink_spec h hpar) hrun
    have hnamed : (DirectoryEntry.symLink name target).name = symlink.name := hr.child.named
    have hfit : (DirectoryEntry.symLink name target).slot.link.Fits := routeTarget_fits h.rootFits hr.routed
    exact ⟨chain', _, s.toVolume, hr.synced, hr.child.fits_replace h hfit, fun x hx =>
      ⟨fun hmem => hr.child.old hnamed x hmem (hother x hx), fun hmem => hr.child.keep x hmem (hother x hx)⟩⟩

end Survive

theorem lists_of_getParent {s : LemonFS} {path : Path} {slots : List Slot} (hpar : s.getParent path = .ok dir)
    (hroot : path.parent.isRoot = false) (hlisting : DirChain s.disk dir.head chain slots) :
    dir.Lists s.disk slots := by
  obtain ⟨name, ptr, hopen⟩ := getParent_sub hroot hpar
  obtain ⟨rfl, hparse⟩ := openAt_ok hopen
  intro e
  have hmem := mem_children_of_dirChain hlisting hparse
  rw [visible, mem_filter, hmem, and_iff_left_iff_imp]
  rintro ⟨hslot, -⟩
  rw [← hlisting.visible] at hslot
  exact (mem_filter.1 hslot).2

/-- After a successful call the directory is a chain again. All the other entries it had on disk are still there, with
their names, flags and pointers, if and only if each of them was, in the root, cached as it is on disk and, below the
root, could be parsed and had no other flags than those of its kind. -/
theorem siblings_survive_iff (s s' : LemonFS) (c : Call) (dir : Directory) (chain : List ℕ) (slots : List Slot)
    (inner : List ℕ) (h : Ready s dir chain slots inner) (hpar : s.getParent c.path = .ok dir)
    (hrun : c.run s = (.ok (), s')) :
    ∃ chain' slots', DirChain s'.disk dir.head chain' slots' ∧
      ((∀ e ∈ dirEntries s.disk chain, c.Other e → e ∈ dirEntries s'.disk chain') ↔
        ∀ e ∈ dirEntries s.disk chain, c.Other e →
          if c.path.parent.isRoot then e ∈ s.root.map DirectoryEntry.toDentry else e.slot.Opens s.disk ∧ e.Regular) := by
  obtain ⟨chain', children', v₁, hs, hfits, hsame⟩ := h.rewrites hpar hrun
  refine ⟨chain', _, hs.listing, forall_congr' fun e => forall_congr' fun he => forall_congr' fun hother => ?_⟩
  have hstored : e ∈ dirEntries s'.disk chain' ↔ e ∈ dir.children.map toDentry := by
    rw [hs.mem_dirEntries hfits hother.1, List.mem_map, List.mem_map]
    refine exists_congr fun x => and_congr_left ?_
    rintro rfl
    exact hsame x hother
  rw [hstored]
  cases hroot : c.path.parent.isRoot with
  | true =>
    rw [rootDir_of_getParent hpar hroot, if_pos rfl]
    rfl
  | false =>
    rw [if_neg Bool.false_ne_true]
    exact mem_toDentry_iff h.listing (lists_of_getParent hpar hroot h.listing) he hother.1

theorem stored_root {s : LemonFS} (hstored : s.disk.sectors 4099 = (s.rootDir.blockAt [4099] 0).encode)
    (hlen : s.root.length ≤ 8) (hfits : ∀ c ∈ s.root, c.slot.link.Fits) :
    listed (dirEntries s.disk [4099]) = listed (s.root.map toDentry) := by
  refine @listed_dirEntries s.rootDir [4099] s.disk (fun i x hx => ?_) hlen hfits
  cases i with
  | zero =>
    cases hx
    exact hstored
  | succ i => cases hx

/-- The entry of the file `a` after the symlink `b` has been created beside it. -/
theorem siblings_survive_beside_file :
    ∃ s s' chain chain' slots slots' inner, Ready s s.rootDir chain slots inner ∧
      create ⟨[0x2F, 0x62]⟩ 2 s = (.ok (), s') ∧ ⟨Filename.fromStr [0x61], 0, ⟨3, 1⟩⟩ ∈ dirEntries s.disk chain ∧
      DirChain s'.disk s.rootPtr chain' slots' ∧ ⟨Filename.fromStr [0x61], 0, ⟨3, 1⟩⟩ ∈ dirEntries s'.disk chain' := by
  obtain ⟨s, s', hs, hrun⟩ := exists_linked
  obtain ⟨chain₀, es, owned₀, before, chain, slots, inner, after, hat⟩ := hs.small.inv.at fun _ _ _ => .root
  obtain ⟨es₁, hone⟩ := hs.small.listing
  obtain ⟨rfl, -⟩ := hat.focus.listing.unique hone
  have hentries := stored_root hs.stored (by rw [hs.root]; decide) hs.small.inv.fits
  have hfile : (⟨Filename.fromStr [0x61], 0, ⟨3, 1⟩⟩ : DirEntry) ∈ dirEntries s.disk [4099] := by
    refine (mem_listed.1 ?_).1
    rw [hentries, mem_listed, hs.root]
    exact ⟨mem_cons_self, by decide⟩
  have hother : (Call.create ⟨[0x2F, 0x62]⟩ 2).Other ⟨Filename.fromStr [0x61], 0, ⟨3, 1⟩⟩ := by
    refine ⟨by decide, by decide, fun kind h => ?_⟩
    have hname := congrArg Filename.toStr h
    cases kind <;> exact absurd hname (by decide)
  obtain ⟨chain', slots', hlisting', hiff⟩ := siblings_survive_iff s s' (.create ⟨[0x2F, 0x62]⟩ 2) s.rootDir [4099] slots
    inner hat.ready (getParent_root rfl) hrun
  refine ⟨s, s', [4099], chain', slots, slots', inner, hat.ready, hrun, hfile, hlisting', hiff.2 (fun e he hne => ?_) _ hfile
    hother⟩
  rw [if_pos (by decide)]
  have hmem := mem_listed.2 ⟨he, hne.1⟩
  rw [hentries] at hmem
  exact (mem_listed.1 hmem).1

/-- A root block with one file `b`, whose link block would lie behind the end of the partition. -/
def brokenRoot : Sector := (singleFile (Filename.fromStr [0x62]) ⟨5000, 0⟩ ⟨0, 0⟩).encode

/-- The state that mounting gives: the parser leaves the file out. -/
def brokenFile : LemonFS where
  disk := disk4101 fun x => if x = 4099 then brokenRoot else Sector.zero
  bitmap := ⟨[.full, .full], 3⟩
  superblock := { SuperBlock.decode Sector.zero with bitmapStart := 1, dataStart := 3, dataEnd := 4099 }
  root := []

/-- The file cannot be resolved, and a `create` beside it succeeds and drops its entry. -/
theorem unreadable_sibling_lost :
    ∃ s' slots slots', addChildrenFromLink brokenFile.disk brokenFile.disk.fuel brokenFile.rootPtr = .ok brokenFile.root ∧
      DirChain brokenFile.disk brokenFile.rootPtr [4099] slots ∧
      ⟨Filename.fromStr [0x62], 0, ⟨5000, 0⟩⟩ ∈ dirEntries brokenFile.disk [4099] ∧
      create ⟨[0x2F, 0x61]⟩ 2 brokenFile = (.ok (), s') ∧ DirChain s'.disk brokenFile.rootPtr [4099] slots' ∧
      ⟨Filename.fromStr [0x62], 0, ⟨5000, 0⟩⟩ ∉ dirEntries s'.disk [4099] := by
  have hrun : create ⟨[0x2F, 0x61]⟩ 2 brokenFile = (.ok (), (create ⟨[0x2F, 0x61]⟩ 2 brokenFile).2) :=
    run_of_result (by decide +kernel)
  have hbefore : DirChain brokenFile.disk brokenFile.rootPtr [4099] _ :=
    .block rfl ⟨by decide, rfl⟩ (.done (by decide +kernel))
  have hafter : DirChain (create ⟨[0x2F, 0x61]⟩ 2 brokenFile).2.disk brokenFile.rootPtr [4099] _ :=
    .block rfl ⟨by decide +kernel, rfl⟩ (.done (by decide +kernel))
  have hnames : ((dirEntries (create ⟨[0x2F, 0x61]⟩ 2 brokenFile).2.disk [4099]).all fun e =>
    e.name.toStr != [0x62]) = true := by
    decide +kernel
  have hfile : ⟨Filename.fromStr [0x62], 0, ⟨5000, 0⟩⟩ ∈ dirEntries brokenFile.disk [4099] := by
    have hentries := entries_single (Filename.fromStr [0x62]) ⟨5000, 0⟩ ⟨0, 0⟩ ⟨by norm_num, by norm_num⟩
    rw [dirEntries, List.flatMap_singleton, List.mem_ofFn]
    exact ⟨0, congrFun hentries 0⟩
  have hparse : (addChildrenFromLink brokenFile.disk brokenFile.disk.fuel brokenFile.rootPtr).toOption.map List.length =
      some 0 := by decide +kernel
  refine ⟨_, _, _, ?_, hbefore, hfile, hrun, hafter, fun hmem => ?_⟩
  · cases hopen : addChildrenFromLink brokenFile.disk brokenFile.disk.fuel brokenFile.rootPtr with
    | error e =>
      rw [hopen] at hparse
      cases hparse
    | ok children =>
      rw [hopen] at hparse
      rw [List.length_eq_zero_iff.1 (Option.some.inj hparse)]
      rfl
  · have := List.all_eq_true.1 hnames _ hmem
    exact absurd this (by decide)

end MaramOS
