import MaramOS.Proofs.Delete
import MaramOS.Proofs.Relist
import MaramOS.Proofs.Rewrite

/-! What each call does, stated once. A call that gets as far as its parent
directory either fails without a change, or changes something below that
directory and then writes the directory back. -/

namespace MaramOS

open List

open DirectoryEntry (new)
open Filename (fromStr)

variable {α : Type}

theorem findIdx?_split {p : α → Bool} {l : List α} {i : ℕ} (h : l.findIdx? p = some i) :
    ∃ l1 a l2, l = l1 ++ a :: l2 ∧ l1.length = i ∧ p a = true ∧ ∀ x ∈ l1, p x = false := by
  obtain ⟨hi, hp, hbefore⟩ := List.findIdx?_eq_some_iff_getElem.1 h
  refine ⟨l.take i, l[i], l.drop (i + 1), ?_, by simp; omega, hp, fun x hx => ?_⟩
  · rw [← drop_eq_getElem_cons hi, take_append_drop]
  · obtain ⟨j, hj, rfl⟩ := mem_take_iff_getElem.1 hx
    simpa using hbefore j (by omega)

/-- What stands in the place of a removed element and after it. -/
def moveLast {α : Type} (l : List α) : List α :=
  match l.getLast? with
  | none => []
  | some x => x :: l.dropLast

theorem swapRemove_split (l1 l2 : List α) (a : α) :
    swapRemove (l1 ++ a :: l2) l1.length = l1 ++ moveLast l2 := by
  obtain rfl | ⟨init, x, rfl⟩ := eq_nil_or_concat l2
  · simp [swapRemove, moveLast, set_append_right]
  · rw [concat_eq_append]
    have hlast : (l1 ++ a :: (init ++ [x])).getLast? = some x := by
      rw [← cons_append, ← append_assoc, List.getLast?_concat]
    rw [swapRemove, hlast]
    simp only [set_append_right _ _ le_rfl, Nat.sub_self, set_cons_zero]
    rw [← cons_append, ← append_assoc, dropLast_concat]
    simp [moveLast]

theorem mem_moveLast {l : List α} {x : α} : x ∈ moveLast l ↔ x ∈ l := by
  obtain rfl | ⟨init, y, rfl⟩ := eq_nil_or_concat l
  · simp [moveLast]
  · simp [moveLast, concat_eq_append, or_comm]

theorem length_moveLast (l : List α) : (moveLast l).length = l.length := by
  obtain rfl | ⟨init, y, rfl⟩ := eq_nil_or_concat l
  · rfl
  · simp [moveLast, concat_eq_append]

namespace LemonFS

open Prog Volume

variable {s s' : LemonFS} {dir : Directory} {chain inner : List ℕ} {slots : List Slot} {path : Path} {name : Str}
  {start : ℕ} {kind : FileType} {v1 : Volume} {l1 l2 : List DirectoryEntry} {c : DirectoryEntry} {i1 own i2 : List ℕ}

theorem wp_onVolume_seq {α β : Type} {x : FsProg α} {f : α → FsCall β} {Q : α → Volume → Prop}
    {E' : Fault → Volume → Prop} {R : β → LemonFS → Prop} {E : Fault → LemonFS → Prop}
    (h : wp x s.toVolume Q E') (hQ : ∀ a v, Q a v → wp (f a) { s with toVolume := v } R E)
    (hE : ∀ e v, E' e v → E e { s with toVolume := v }) : wp (onVolume x >>= f) s R E :=
  wp_bind.2 (wp_zoom.2 (wp_mono h hQ hE))

theorem getChild_of_findChildIdx (hfind : dir.findChildIdx name = none) :
    dir.getChild name = none := by
  rw [Directory.findChildIdx, List.findIdx?_eq_none_iff] at hfind
  rw [Directory.getChild, List.find?_eq_none]
  intro c hc
  rw [hfind c hc]
  exact Bool.false_ne_true

/-- The child of `dir` that `path` names, and how the sectors below `dir` divide
into those of the children before it, its own, and those of the children after it. -/
structure Child (s : LemonFS) (dir : Directory) (inner : List ℕ) (path : Path) (l1 : List DirectoryEntry)
    (c : DirectoryEntry) (l2 : List DirectoryEntry) (i1 own i2 : List ℕ) : Prop where
  children : dir.children = l1 ++ c :: l2
  named : c.name = path.name
  first : ∀ x ∈ l1, x.name ≠ path.name
  split : inner = i1 ++ (own ++ i2)
  before : Owns s.disk (visible (l1.map DirectoryEntry.slot)) i1
  owns : Owns s.disk [c.slot] own
  after : Owns s.disk (visible (l2.map DirectoryEntry.slot)) i2

theorem visible_cons {e : Slot} (he : e.name.isEmpty = false) (l : List Slot) :
    visible (e :: l) = [e] ++ visible l := by
  simp [visible, he]

theorem Ready.child (h : Ready s dir chain slots inner) {idx : ℕ}
    (hfind : dir.findChildIdx path.name = some idx) :
    ∃ l1 c l2 i1 own i2, Child s dir inner path l1 c l2 i1 own i2 ∧ l1.length = idx := by
  obtain ⟨l1, c, l2, hsplit, hlen, hname, hfirst⟩ := findIdx?_split hfind
  have hnamed : c.name = path.name := by simpa using hname
  have howns := h.owns
  rw [hsplit, map_append, map_cons, visible_append,
    visible_cons (DirectoryEntry.visible_of_name hnamed)] at howns
  obtain ⟨i1, rest, rfl, h1, hrest⟩ := howns.split
  obtain ⟨own, i2, rfl, hown, h2⟩ := hrest.split
  exact ⟨l1, c, l2, i1, own, i2, ⟨hsplit, hnamed, fun x hx => by simpa using hfirst x hx, rfl, h1, hown, h2⟩,
    hlen⟩

/-- A successful `create`: a sector is taken, unless it is for a symlink, and the
directory gets one more child. -/
structure Created (s : LemonFS) (dir : Directory) (chain : List ℕ) (path : Path) (kind : FileType) (start : ℕ)
    (v1 : Volume) (chain' : List ℕ) (s' : LemonFS) : Prop where
  notRoot : path.isRoot = false
  absent : dir.getChild path.name = none
  taken : kind = .symlink ∧ start = 0 ∧ v1 = s.toVolume ∨ kind ≠ .symlink ∧ Takes [start] s.toVolume v1
  superblock : s'.superblock = s.superblock
  synced : Synced
    { dir with children := dir.children ++ [new (fromStr path.name) start kind] }
    chain chain' v1 s'.toVolume
  root : s'.root = if path.parent.isRoot then
    s.root ++ [new (fromStr path.name) start kind] else s.root

/-- Sectors have been taken from the allocator and nothing else has changed. -/
structure Leaked (s s' : LemonFS) : Prop where
  superblock : s'.superblock = s.superblock
  root : s'.root = s.root
  taken : ∃ l, Takes l s.toVolume s'.toVolume

/-- Why a `create` in `dir` fails, and what it leaves behind. -/
inductive CreateFails (s : LemonFS) (dir : Directory) (chain : List ℕ) (path : Path) (flags : ℕ) :
    Fault → LemonFS → Prop
  | isRoot : path.isRoot = true → CreateFails s dir chain path flags (.fs .isRoot) s
  | fileExists : dir.getChild path.name ≠ none → CreateFails s dir chain path flags (.fs .fileExists) s
  | badFlags : DirEntryFlags.fromBits (UInt8.ofNat flags) = none →
      CreateFails s dir chain path flags (.fs .badFlags) s
  | noSpace {s' : LemonFS} : Leaked s s' →
      s.bitmap.available [] = [] ∨ chain.length < max (divCeil (dir.children.length + 1) 8) 1 →
      CreateFails s dir chain path flags (.fs .noSpace) s'

theorem fits_new {n : ℕ} (name : Filename) (kind : FileType) (hn : n * 512 < 2 ^ 64) (hstart : start < n) :
    (new name start kind).slot.link.Fits := by
  cases kind with
  | file => exact ⟨show start < 2 ^ 64 by omega, show 1 < 2 ^ 64 by norm_num⟩
  | directory => exact ⟨show start < 2 ^ 64 by omega, show 512 < 2 ^ 64 by norm_num⟩
  | symlink => exact ⟨show 0 < 2 ^ 64 by norm_num, show 0 < 2 ^ 64 by norm_num⟩

theorem give_spec (h : Ready s dir chain slots inner) (hroot : path.isRoot = false)
    (habsent : dir.getChild path.name = none) (hstart : start < s.disk.sectorCount)
    (htaken : kind = .symlink ∧ start = 0 ∧ v1 = s.toVolume ∨ kind ≠ .symlink ∧ Takes [start] s.toVolume v1) :
    wp (do
        onVolume (dir.giveChild (new (fromStr path.name) start kind))
        if path.parent.isRoot then
          Prog.modify fun fs =>
            { fs with root := fs.root ++ [new (fromStr path.name) start kind] })
      { s with toVolume := v1 }
      (fun _ s' => ∃ chain', Created s dir chain path kind start v1 chain' s')
      (fun e s' => e = .fs .noSpace ∧ Leaked s s' ∧
        chain.length < max (divCeil (dir.children.length + 1) 8) 1) := by
  have htouch : s.toVolume.Touches [] v1 := by
    rcases htaken with ⟨-, -, rfl⟩ | ⟨-, ht⟩
    · exact Touches.refl _ _
    · exact ht.touches
  have hfits : ∀ c ∈ dir.children ++ [new (fromStr path.name) start kind],
      c.slot.link.Fits := by
    intro c hc
    rcases mem_append.1 hc with hc | hc
    · exact h.fits c hc
    · obtain rfl := mem_singleton.1 hc
      exact fits_new _ kind s.disk.fits hstart
  refine wp_onVolume_seq (h.sync_spec htouch (nil_subset _) hfits) ?_ ?_
  · rintro _ v2 ⟨chain', hs⟩
    refine wp_mono (?_ : wp _ _ (fun _ s' => s' = { s with toVolume := v2, root :=
      if path.parent.isRoot then s.root ++ [new (fromStr path.name) start kind]
      else s.root }) (fun _ _ => False)) ?_ (fun _ _ h => h.elim)
    · split_ifs
      · exact wp_modify.2 rfl
      · exact wp_pure.2 rfl
    · rintro _ _ rfl
      exact ⟨chain', hroot, habsent, htaken, rfl, hs, rfl⟩
  · rintro e v2 ⟨rfl, l, hshort, hl, -⟩
    rw [length_append, length_singleton] at hshort
    refine ⟨rfl, ⟨rfl, rfl, ?_⟩, by omega⟩
    rcases htaken with ⟨-, -, rfl⟩ | ⟨-, ht⟩
    · exact ⟨l, hl⟩
    · exact ⟨_, ht.append hl⟩

theorem alloc_give_spec (h : Ready s dir chain slots inner) (flags : ℕ) (hroot : path.isRoot = false)
    (habsent : dir.getChild path.name = none) (hkind : kind ≠ .symlink) :
    wp (do
        let start ← onVolume Volume.allocSector
        onVolume (dir.giveChild (new (fromStr path.name) start kind))
        if path.parent.isRoot then
          Prog.modify fun fs =>
            { fs with root := fs.root ++ [new (fromStr path.name) start kind] }) s
      (fun _ s' => ∃ start v1 chain', Created s dir chain path kind start v1 chain' s')
      (CreateFails s dir chain path flags) := by
  refine wp_onVolume_seq (allocSector_spec h.area.word) ?_ ?_
  · intro start v1 ht
    have hstart := h.area.free_lt start (ht.wasFree start (by simp))
    have hinside := h.area.inside
    refine wp_mono (give_spec h hroot habsent (by omega) (Or.inr ⟨hkind, ht⟩)) ?_ ?_
    · exact fun _ s' ⟨chain', hs'⟩ => ⟨start, v1, chain', hs'⟩
    · rintro e s' ⟨rfl, hleak, hshort⟩
      exact .noSpace hleak (Or.inr hshort)
  · rintro e v1 ⟨rfl, rfl, hnone⟩
    exact .noSpace ⟨rfl, rfl, [], Takes.nil _⟩ (Or.inl hnone)

theorem create_spec (h : Ready s dir chain slots inner)
    (hpar : s.getParent path = .ok dir) (flags : ℕ) :
    wp (create path flags) s
      (fun _ s' => ∃ bits start v1 chain', DirEntryFlags.fromBits (UInt8.ofNat flags) = some bits ∧
        Created s dir chain path (FileType.fromDirflags bits) start v1 chain' s')
      (CreateFails s dir chain path flags) := by
  have hinside := h.area.inside
  unfold create
  cases hroot : path.isRoot with
  | true =>
    rw [if_pos rfl, fsError, wp_fail]
    exact .isRoot hroot
  | false =>
  rw [if_neg Bool.false_ne_true]
  refine wp_reads_seq ?_ hpar
  cases hfind : dir.findChildIdx path.name with
  | some idx =>
    rw [Option.isSome_some, if_pos rfl, fsError, wp_fail]
    obtain ⟨l1, c, l2, hsplit, -, hname, -⟩ := findIdx?_split hfind
    refine .fileExists fun hnone => ?_
    rw [Directory.getChild, List.find?_eq_none] at hnone
    exact hnone c (by rw [hsplit]; simp) hname
  | none =>
  rw [Option.isSome_none, if_neg Bool.false_ne_true]
  have habsent := getChild_of_findChildIdx hfind
  cases hbits : DirEntryFlags.fromBits (UInt8.ofNat flags) with
  | none =>
    rw [fsError, wp_fail]
    exact .badFlags hbits
  | some bits =>
  cases hkind : FileType.fromDirflags bits with
  | symlink =>
    simp only [hkind, pure_bind]
    refine wp_mono (give_spec h hroot habsent (show 0 < s.disk.sectorCount by omega)
      (Or.inl ⟨rfl, rfl, rfl⟩)) ?_ ?_
    · rintro _ s' ⟨chain', hs'⟩
      exact ⟨bits, 0, _, chain', rfl, hkind ▸ hs'⟩
    · rintro e s' ⟨rfl, hleak, hshort⟩
      exact .noSpace hleak (Or.inr hshort)
  | file =>
    simp only [hkind]
    refine wp_mono (alloc_give_spec h flags hroot habsent (by decide)) ?_ (fun _ _ h => h)
    rintro _ s' ⟨start, v1, chain', hs'⟩
    exact ⟨bits, start, v1, chain', rfl, hkind ▸ hs'⟩
  | directory =>
    simp only [hkind]
    refine wp_mono (alloc_give_spec h flags hroot habsent (by decide)) ?_ (fun _ _ h => h)
    rintro _ s' ⟨start, v1, chain', hs'⟩
    exact ⟨bits, start, v1, chain', rfl, hkind ▸ hs'⟩

theorem find?_split (hnamed : c.name = name) (hfirst : ∀ x ∈ l1, x.name ≠ name) :
    (l1 ++ c :: l2).find? (fun e => e.name == name) = some c := by
  have hbefore : l1.find? (fun e => e.name == name) = none := by
    rw [List.find?_eq_none]
    intro x hx
    simpa using hfirst x hx
  rw [List.find?_append, hbefore, Option.none_or, List.find?_cons_of_pos]
  simpa using hnamed

namespace Child

variable {l1 l2 : List DirectoryEntry} {c : DirectoryEntry} {i1 own i2 : List ℕ}

theorem own_subset (hc : Child s dir inner path l1 c l2 i1 own i2) : own ⊆ inner := by
  intro x hx
  rw [hc.split]
  exact mem_append_right _ (mem_append_left _ hx)

theorem fileAt {f : File} (hc : Child s dir inner path l1 (.file f) l2 i1 own i2)
    (h : Ready s dir chain slots inner) :
    ∃ ind ext, own = ind ++ fileBlocks ext ∧
      FileAt s.superblock.dataStart s.superblock.dataEnd s.toVolume f.head ind ext := by
  have hinner := (nodup_append.1 h.nodup).2.1
  have hnodup : own.Nodup := by
    rw [hc.split] at hinner
    exact (nodup_append.1 (nodup_append.1 hinner).2.1).1
  cases hc.owns with
  | symlink hk => cases hk
  | directory hk => cases hk
  | @file _ _ ind _ ext _ hlink hrest =>
    cases hrest
    have hmem : ∀ x ∈ ind ++ fileBlocks ext, x ∈ inner := fun x hx => hc.own_subset (by simpa using hx)
    refine ⟨ind, ext, by simp, hlink, by simpa using hnodup, fun x hx => h.inner_placed x (hmem x hx), fun x hx => ?_⟩
    exact h.used x (mem_append_right _ (hmem x hx))

section

variable (hc : Child s dir inner path l1 c l2 i1 own i2)
include hc

theorem getElem? : dir.children[l1.length]? = some c := by
  rw [hc.children]
  simp

theorem getChild : dir.getChild path.name = some c := by
  rw [Directory.getChild, hc.children]
  exact find?_split hc.named hc.first

theorem fits_replace (h : Ready s dir chain slots inner) {c' : DirectoryEntry} (hfit : c'.slot.link.Fits) :
    ∀ x ∈ l1 ++ c' :: l2, x.slot.link.Fits := by
  intro x hmem
  have hold := h.fits x
  rw [hc.children] at hold
  simp only [mem_append, mem_cons] at hmem hold
  rcases hmem with hmem | rfl | hmem
  · exact hold (Or.inl hmem)
  · exact hfit
  · exact hold (Or.inr (Or.inr hmem))

theorem fits_remove (h : Ready s dir chain slots inner) :
    ∀ x ∈ l1 ++ moveLast l2, x.slot.link.Fits := by
  intro x hmem
  refine h.fits x ?_
  rw [mem_append, mem_moveLast] at hmem
  rw [hc.children]
  simp only [mem_append, mem_cons]
  exact hmem.imp id Or.inr

end

end Child

/-- A successful `write`: the file is rewritten and its entry is replaced. -/
structure Written (s : LemonFS) (dir : Directory) (chain inner : List ℕ) (path : Path) (src : PhysPage)
    (l1 : List DirectoryEntry) (f : File) (l2 : List DirectoryEntry) (i1 ind : List ℕ) (ext : List LinkPointer)
    (i2 : List ℕ) (f' : File) (lbas : List ℕ) (v1 : Volume) (chain' : List ℕ) (s' : LemonFS) : Prop where
  notRoot : path.isRoot = false
  pages : 0 < src.count
  child : Child s dir inner path l1 (.file f) l2 i1 (ind ++ fileBlocks ext) i2
  link : LinkChain s.disk f.head ind ext
  rewritten : Rewritten ind ext src f f' lbas s.toVolume v1
  superblock : s'.superblock = s.superblock
  synced : Synced { dir with children := l1 ++ .file f' :: l2 } chain chain' v1 s'.toVolume
  root : s'.root = if path.parent.isRoot then l1 ++ .file f' :: l2 else s.root

/-- Why a `write` in `dir` fails, and what it leaves behind. -/
inductive WriteFails (s : LemonFS) (dir : Directory) (inner : List ℕ) (path : Path) (src : PhysPage) :
    Fault → LemonFS → Prop
  | isRoot : path.isRoot = true → WriteFails s dir inner path src (.fs .isRoot) s
  | fileNotFound : dir.getChild path.name = none → WriteFails s dir inner path src (.fs .fileNotFound) s
  | badFileType {c : DirectoryEntry} : dir.getChild path.name = some c → (∀ f, c ≠ .file f) →
      WriteFails s dir inner path src (.fs .badFileType) s
  | noPages {s' : LemonFS} : src.count = 0 → WriteFails s dir inner path src .panic s'
  | noSpace {l1 l2 : List DirectoryEntry} {f : File} {i1 ind i2 w taken : List ℕ} {ext : List LinkPointer}
      {v1 : Volume} {s' : LemonFS} : Child s dir inner path l1 (.file f) l2 i1 (ind ++ fileBlocks ext) i2 →
      LinkChain s.disk f.head ind ext → 0 < src.count →
      OutOfSpace ind ext (8 * src.count) w taken s.toVolume v1 s'.toVolume →
      s'.superblock = s.superblock → s'.root = s.root → WriteFails s dir inner path src (.fs .noSpace) s'

theorem findIdx?_of_split (hnamed : c.name = name) (hfirst : ∀ x ∈ l1, x.name ≠ name) :
    (l1 ++ c :: l2).findIdx? (fun e => e.name == name) = some l1.length := by
  rw [List.findIdx?_append, List.findIdx?_eq_none_iff.2 fun x hx => by simpa using hfirst x hx]
  simp [List.findIdx?_cons, hnamed]

/-- The common end of `write` and `route_symlink`: the entry is replaced, on disk and
in the cached root. -/
theorem replace_spec (h : Ready s dir chain slots inner) (hdir : path.parent.isRoot = true → dir = s.rootDir)
    {c' : DirectoryEntry} {t : List ℕ} (hc : Child s dir inner path l1 c l2 i1 own i2) (ht : s.toVolume.Touches t v1)
    (hts : t ⊆ inner) (hfit : c'.slot.link.Fits) :
    wp (do
        onVolume { dir with children := dir.children.set l1.length c' }.sync
        if path.parent.isRoot then Prog.modify (refreshRoot path.name c')) { s with toVolume := v1 }
      (fun _ s' => s'.superblock = s.superblock ∧
        (∃ chain', Synced { dir with children := l1 ++ c' :: l2 } chain chain' v1 s'.toVolume) ∧
        s'.root = if path.parent.isRoot then l1 ++ c' :: l2 else s.root)
      (fun _ _ => False) := by
  have hset : dir.children.set l1.length c' = l1 ++ c' :: l2 := by
    rw [hc.children]
    simp
  rw [hset]
  refine wp_onVolume_seq (h.sync_spec ht hts (hc.fits_replace h hfit)) ?_ ?_
  · rintro _ v2 ⟨chain', hs⟩
    split_ifs with hp
    · have hcached : s.root = l1 ++ c :: l2 := by
        rw [← hc.children, hdir hp]
        rfl
      have hfind : s.root.findIdx? (fun e => e.name == path.name) = some l1.length := by
        rw [hcached]
        exact findIdx?_of_split hc.named hc.first
      rw [wp_modify]
      simp only [refreshRoot, hfind, true_and]
      refine ⟨⟨chain', hs⟩, ?_⟩
      rw [hcached]
      simp
    · exact wp_pure.2 ⟨rfl, ⟨chain', hs⟩, rfl⟩
  · rintro e v2 ⟨rfl, l, hshort, -⟩
    have hstay := h.no_growth (n := (l1 ++ c' :: l2).length) (by rw [hc.children]; simp)
    omega

theorem write_file_spec (h : Ready s dir chain slots inner) (hdir : path.parent.isRoot = true → dir = s.rootDir)
    (hroot : path.isRoot = false) {src : PhysPage} {f : File} (hc : Child s dir inner path l1 (.file f) l2 i1 own i2) :
    wp (do
        let f' ← onVolume (f.rewrite src)
        onVolume { dir with children := dir.children.set l1.length (.file f') }.sync
        if path.parent.isRoot then Prog.modify (refreshRoot path.name (.file f'))) s
      (fun _ s' => ∃ ind ext f' lbas v1 chain',
        Written s dir chain inner path src l1 f l2 i1 ind ext i2 f' lbas v1 chain' s')
      (WriteFails s dir inner path src) := by
  obtain ⟨ind, ext, rfl, hfile⟩ := hc.fileAt h
  rcases Nat.eq_zero_or_pos src.count with hzero | hpos
  · refine wp_onVolume_seq (rewrite_empty h.area hfile hzero) (fun _ _ h => h.elim) ?_
    rintro e v1 rfl
    exact .noPages hzero
  refine wp_onVolume_seq (rewrite_spec h.area hfile hpos) ?_ ?_
  · rintro f' v1 ⟨lbas, hw⟩
    refine wp_mono (replace_spec h hdir hc hw.touches hc.own_subset hw.fits) ?_ (fun _ _ h => h.elim)
    rintro _ s' ⟨hsb, ⟨chain', hs⟩, hcache⟩
    exact ⟨ind, ext, f', lbas, v1, chain', hroot, hpos, hc, hfile.link, hw, hsb, hs, hcache⟩
  · rintro e v1 ⟨rfl, w, taken, v0, hout⟩
    exact .noSpace hc hfile.link hpos hout rfl rfl

theorem rootDir_of_getParent (hpar : s.getParent path = .ok dir) (hp : path.parent.isRoot = true) :
    dir = s.rootDir := by
  rw [getParent_root hp] at hpar
  exact (Except.ok.inj hpar).symm

theorem write_spec (h : Ready s dir chain slots inner)
    (hpar : s.getParent path = .ok dir) (src : PhysPage) :
    wp (write path src) s
      (fun _ s' => ∃ l1 f l2 i1 ind ext i2 f' lbas v1 chain',
        Written s dir chain inner path src l1 f l2 i1 ind ext i2 f' lbas v1 chain' s')
      (WriteFails s dir inner path src) := by
  unfold write
  cases hroot : path.isRoot with
  | true =>
    rw [if_pos rfl, fsError, wp_fail]
    exact .isRoot hroot
  | false =>
  rw [if_neg Bool.false_ne_true]
  refine wp_reads_seq ?_ hpar
  cases hfind : dir.findChildIdx path.name with
  | none =>
    rw [fsError, wp_fail]
    exact .fileNotFound (getChild_of_findChildIdx hfind)
  | some idx =>
  obtain ⟨l1, c, l2, i1, own, i2, hc, rfl⟩ := h.child hfind
  simp only [hc.getElem?]
  cases c with
  | file f =>
    refine wp_mono (write_file_spec h (rootDir_of_getParent hpar) hroot hc) ?_ (fun _ _ h => h)
    rintro _ s' ⟨ind, ext, f', lbas, v1, chain', hw⟩
    exact ⟨l1, f, l2, i1, ind, ext, i2, f', lbas, v1, chain', hw⟩
  | directory name link =>
    rw [fsError, wp_fail]
    exact .badFileType hc.getChild fun f hf => by cases hf
  | symLink name dest =>
    rw [fsError, wp_fail]
    exact .badFileType hc.getChild fun f hf => by cases hf

/-- A successful `delete`: the entry and everything below it is wiped, and the last
entry moves into its place. -/
structure Deleted (s : LemonFS) (dir : Directory) (chain inner : List ℕ) (path : Path) (l1 : List DirectoryEntry)
    (c : DirectoryEntry) (l2 : List DirectoryEntry) (i1 own i2 : List ℕ) (v1 : Volume) (chain' : List ℕ)
    (s' : LemonFS) : Prop where
  notRoot : path.isRoot = false
  child : Child s dir inner path l1 c l2 i1 own i2
  wipes : Wipes own s.toVolume v1
  superblock : s'.superblock = s.superblock
  synced : Synced { dir with children := l1 ++ moveLast l2 } chain chain' v1 s'.toVolume
  root : s'.root = if path.parent.isRoot then l1 ++ moveLast l2 else s.root

theorem delete_spec (h : Ready s dir chain slots inner)
    (hpar : s.getParent path = .ok dir) :
    wp (delete path) s
      (fun _ s' => ∃ l1 c l2 i1 own i2 v1 chain',
        Deleted s dir chain inner path l1 c l2 i1 own i2 v1 chain' s')
      (fun e s' => s' = s ∧ (e = .fs .isRoot ∧ path.isRoot = true ∨
        e = .fs .fileNotFound ∧ dir.getChild path.name = none)) := by
  unfold delete
  cases hroot : path.isRoot with
  | true =>
    rw [if_pos rfl, fsError, wp_fail]
    exact ⟨rfl, Or.inl ⟨rfl, rfl⟩⟩
  | false =>
  rw [if_neg Bool.false_ne_true]
  refine wp_reads_seq ?_ hpar
  cases hfind : dir.findChildIdx path.name with
  | none =>
    rw [fsError, wp_fail]
    exact ⟨rfl, Or.inr ⟨rfl, getChild_of_findChildIdx hfind⟩⟩
  | some idx =>
  obtain ⟨l1, c, l2, i1, own, i2, hc, rfl⟩ := h.child hfind
  simp only [hc.getElem?]
  have hinner := (nodup_append.1 h.nodup).2.1
  have hnodup : own.Nodup := by
    rw [hc.split] at hinner
    exact (nodup_append.1 (nodup_append.1 hinner).2.1).1
  have hplaced : ∀ x ∈ own, s.superblock.dataStart ≤ x ∧ x < s.superblock.dataEnd := fun x hx =>
    h.inner_placed x (hc.own_subset hx)
  refine wp_onVolume_seq (deleteEntry_spec h.area hc.owns hnodup hplaced) ?_ (fun _ _ h => h.elim)
  intro _ v1 hw
  have hswap : swapRemove dir.children l1.length = l1 ++ moveLast l2 := by
    rw [hc.children, swapRemove_split]
  rw [hswap]
  refine wp_onVolume_seq (h.sync_spec (hw.touches (List.Subset.refl own)) hc.own_subset (hc.fits_remove h)) ?_ ?_
  · rintro _ v2 ⟨chain', hs⟩
    split_ifs with hp
    · have hcached : s.root = dir.children := by
        rw [rootDir_of_getParent hpar hp]
        rfl
      have hfind' : s.root.findIdx? (fun e => e.name == path.name) = some l1.length := by
        rw [hcached]
        exact hfind
      refine wp_reads_seq ?_ rfl
      simp only [hfind', wp_modify]
      refine ⟨l1, c, l2, i1, own, i2, v1, chain', hroot, hc, hw, rfl, hs, ?_⟩
      rw [if_pos hp, hcached, hswap]
    · rw [wp_pure]
      exact ⟨l1, c, l2, i1, own, i2, v1, chain', hroot, hc, hw, rfl, hs, (if_neg hp).symm⟩
  · rintro e v2 ⟨rfl, l, hshort, -⟩
    have hstay := h.no_growth (n := (l1 ++ moveLast l2).length) (by
      rw [hc.children, length_append, length_append, length_moveLast, length_cons]
      omega)
    omega

/-- A successful `route_symlink`: the entry of that name in the parent of the parent
gets a new target. -/
structure Routed (s : LemonFS) (dir : Directory) (chain inner : List ℕ) (symlink dest : Path)
    (l1 : List DirectoryEntry) (name : Filename) (old target : LinkPointer) (l2 : List DirectoryEntry)
    (i1 own i2 chain' : List ℕ) (s' : LemonFS) : Prop where
  child : Child s dir inner symlink l1 (.symLink name old) l2 i1 own i2
  routed : s.routeTarget dest = .ok target
  superblock : s'.superblock = s.superblock
  synced : Synced { dir with children := l1 ++ .symLink name target :: l2 } chain chain' s.toVolume s'.toVolume
  root : s'.root = if symlink.parent.isRoot then l1 ++ .symLink name target :: l2 else s.root

theorem routeTarget_fits (hroot : ∀ c ∈ s.root, c.slot.link.Fits) {dest : Path} {target : LinkPointer}
    (h : s.routeTarget dest = .ok target) : target.Fits := by
  unfold routeTarget at h
  cases hpar : s.getParent dest with
  | error e =>
    rw [hpar] at h
    cases h
  | ok parent =>
    rw [hpar] at h
    simp only [bind, Except.bind] at h
    cases hget : parent.getChild dest.name with
    | none =>
      rw [hget] at h
      cases h
    | some c =>
      have hfit := getParent_fits hroot hpar c (List.mem_of_find?_eq_some hget)
      rw [hget] at h
      cases c <;> cases h <;> exact hfit

theorem routeSymlink_spec {symlink dest : Path} (h : Ready s dir chain slots inner)
    (hpar : s.getParent symlink.parent = .ok dir) :
    wp (routeSymlink symlink dest) s
      (fun _ s' => ∃ l1 name old target l2 i1 own i2 chain',
        Routed s dir chain inner symlink dest l1 name old target l2 i1 own i2 chain' s')
      (fun _ s' => s' = s ∧ (symlink.isRoot = true ∨
        (∀ name old, dir.getChild symlink.name ≠ some (.symLink name old)) ∨ ∀ target,
          s.routeTarget dest ≠ .ok target)) := by
  have hdir : symlink.parent.isRoot = true → dir = s.rootDir := by
    intro hp
    refine rootDir_of_getParent hpar ((Path.isRoot_parent _).2 ?_)
    rw [Path.components_parent, (Path.isRoot_parent _).1 hp]
    rfl
  unfold routeSymlink
  cases hroot : symlink.isRoot with
  | true =>
    rw [if_pos rfl, fsError, wp_fail]
    exact ⟨rfl, .inl rfl⟩
  | false =>
  rw [if_neg Bool.false_ne_true]
  refine wp_reads_seq ?_ hpar
  cases hfind : dir.findChildIdx symlink.name with
  | none =>
    rw [fsError, wp_fail]
    refine ⟨rfl, .inr (.inl fun name old hget => ?_)⟩
    rw [getChild_of_findChildIdx hfind] at hget
    cases hget
  | some idx =>
  obtain ⟨l1, c, l2, i1, own, i2, hc, rfl⟩ := h.child hfind
  simp only [hc.getElem?]
  cases c with
  | file f =>
    rw [fsError, wp_fail]
    exact ⟨rfl, .inr (.inl fun name old hget => by cases hc.getChild.symm.trans hget)⟩
  | directory name link =>
    rw [fsError, wp_fail]
    exact ⟨rfl, .inr (.inl fun name old hget => by cases hc.getChild.symm.trans hget)⟩
  | symLink name old =>
    rw [wp_bind, wp_reads]
    refine ⟨fun target htarget => ?_, fun e herror => ⟨rfl, .inr (.inr fun target htarget => ?_)⟩⟩
    · refine wp_mono (replace_spec h hdir hc (Touches.refl [] _) (nil_subset _)
        (routeTarget_fits h.rootFits htarget)) ?_ (fun _ _ h => h.elim)
      rintro _ s' ⟨hsb, ⟨chain', hs⟩, hcache⟩
      exact ⟨l1, name, old, target, l2, i1, own, i2, chain', hc, htarget, hsb, hs, hcache⟩
    · rw [herror] at htarget
      cases htarget

end LemonFS

end MaramOS
