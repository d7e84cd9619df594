import MaramOS.Proofs.Calls

/-! A partition of 4101 sectors. It is the smallest one on which the data area
fills whole bitmap blocks, so that `alloc(1)` finds all of it, from the lowest
sector on. The examples of runs start from there. -/

namespace MaramOS

open List Prog Volume LemonFS
open Filename (fromStr)

/-- Sectors 1 and 2 are the bitmap, 3 to 4098 the data area, 4099 is the root. -/
def disk4101 (content : ℕ → Sector) : Disk := ⟨4101, by norm_num, content⟩

variable {a n : ℕ} {d : Disk} {s : LemonFS} {content : ℕ → Sector} {v v' : Volume}

theorem filter_range_between {p : ℕ → Bool} {k : ℕ} (ha : a ≤ k) (hk : k ≤ n)
    (h : ∀ j < n, p j = true ↔ a ≤ j ∧ j < k) : (List.range n).filter p = range' a (k - a) := by
  obtain ⟨m, rfl⟩ := Nat.exists_eq_add_of_le hk
  obtain ⟨c, rfl⟩ := Nat.exists_eq_add_of_le ha
  have hlow : (List.range a).filter p = [] := by
    rw [filter_eq_nil_iff]
    intro j hj
    rw [mem_range] at hj
    rw [h j (by omega)]
    omega
  have hmid : ((List.range c).map (a + ·)).filter p = (List.range c).map (a + ·) := by
    rw [filter_eq_self]
    intro j hj
    obtain ⟨i, hi, rfl⟩ := mem_map.1 hj
    rw [mem_range] at hi
    exact (h (a + i) (by omega)).2 ⟨by omega, by omega⟩
  have hhigh : ((List.range m).map (a + c + ·)).filter p = [] := by
    rw [filter_eq_nil_iff]
    intro j hj
    obtain ⟨i, hi, rfl⟩ := mem_map.1 hj
    rw [mem_range] at hi
    rw [h (a + c + i) (by omega)]
    omega
  rw [range_add, range_add, filter_append, filter_append, hlow, hmid, hhigh, nil_append,
    append_nil, Nat.add_sub_cancel_left, range'_eq_map_range]

/-- On a partition of that size the data area is free from sector `a` on. -/
structure Filled (a : ℕ) (v : Volume) : Prop where
  sectorCount : v.disk.sectorCount = 4101
  dataStart : v.bitmap.dataStart = 3
  length : v.bitmap.blocks.length = 2
  lower : 3 ≤ a
  upper : a ≤ 4099
  free : ∀ x, v.Free x ↔ a ≤ x ∧ x < 4099

namespace Filled

variable {a : ℕ} {v v' : Volume}

theorem available (h : Filled a v) : v.bitmap.available [] = range' a (4099 - a) := by
  have hlo := h.lower
  have hhi := h.upper
  have hbit : ∀ i, v.bitmap.bit i = false ↔ a - 3 ≤ i ∧ i < 4096 := by
    intro i
    have hfree := h.free (i + 3)
    rw [Volume.Free, h.dataStart, Nat.add_sub_cancel, and_iff_right (by omega)] at hfree
    rw [hfree]
    omega
  have htail : ∀ j, v.bitmap.tailFree [] j = true ↔ a - 3 ≤ j ∧ j < 4096 := by
    intro j
    rw [BitmapAllocator.tailFree_nil]
    simp only [hbit]
    constructor
    · intro hj
      exact hj j le_rfl rfl
    · intro hj i _ hi
      omega
  rw [BitmapAllocator.available, h.length, h.dataStart,
    filter_range_between (by omega) (by norm_num) fun j _ => htail j, range'_eq_map_range, map_map,
    range'_eq_map_range, show 4096 - (a - 3) = 4099 - a by omega]
  refine map_congr_left fun i _ => ?_
  simp only [Function.comp_apply]
  omega

theorem available_ne_nil (h : Filled a v) (ha : a < 4099) : v.bitmap.available [] ≠ [] := by
  rw [h.available, Ne, range'_eq_nil_iff]
  omega

theorem takes {l : List ℕ} (h : Filled a v) (ht : Takes l v v') :
    l = range' a l.length ∧ Filled (a + l.length) v' := by
  have hlo := h.lower
  have hhi := h.upper
  have havail := ht.available
  rw [h.available] at havail
  have hle : l.length ≤ 4099 - a := by
    have := congrArg List.length havail
    rw [length_range', length_append] at this
    omega
  have hl : l = range' a l.length := by
    have := congrArg (List.take l.length) havail
    rw [take_left, take_range', Nat.min_eq_left hle] at this
    exact this.symm
  refine ⟨hl, by rw [ht.disk, h.sectorCount], by rw [ht.shape.dataStart, h.dataStart],
    by rw [ht.shape.length, h.length], by omega, by omega, fun x => ?_⟩
  rw [ht.free, h.free, hl, mem_range'_1, length_range']
  omega

end Filled

theorem Fresh.inv (h : Fresh d s) : s.Inv := by
  have hf := h.facts
  refine ⟨hf.mounted, ⟨_, _, _, hf.holds, ?_, ?_⟩, ?_⟩ <;> rw [hf.root]
  · exact .nil
  · simp
  · simp

/-- A sound state on that partition with one block of entries in the root. -/
structure Small (a : ℕ) (s : LemonFS) : Prop where
  inv : s.Inv
  filled : Filled a s.toVolume
  dataStart : s.superblock.dataStart = 3
  dataEnd : s.superblock.dataEnd = 4099
  listing : ∃ es, DirChain s.disk s.rootPtr [4099] es

theorem Fresh.small (h : Fresh (disk4101 content) s) : Small 3 s := by
  have hf := h.facts
  have hceil : divCeil (disk4101 content).sectorCount 0x1000 = 2 := by norm_num [disk4101, divCeil]
  have hstart : s.superblock.dataStart = 3 := by rw [hf.dataStart, hceil]
  have hend : s.superblock.dataEnd = 4099 := hf.dataEnd
  have hlisting := hf.holds.listing
  rw [hend] at hlisting
  refine ⟨h.inv, ⟨hf.sectorCount, hf.bits.1.trans hstart, hf.bits.2.trans hceil, le_rfl, by norm_num, fun x => ?_⟩,
    hstart, hend, _, hlisting⟩
  rw [hf.free, hstart, hend]

theorem Fresh.sector (h : Fresh (disk4101 content) s) {x : ℕ} (hlow : 3 ≤ x) (hhigh : x < 4099) :
    s.disk.sectors x = content x :=
  h.facts.data x (h.small.dataStart.trans_le hlow) (hhigh.trans_eq h.small.dataEnd.symm)

/-- What a `create` in the root does there. -/
structure Made (s : LemonFS) (a : ℕ) (path : Path) (kind : FileType) (s' : LemonFS) : Prop where
  root : s'.root = s.root ++
    [DirectoryEntry.new (fromStr path.name) (if kind = .symlink then 0 else a) kind]
  filled : Filled (if kind = .symlink then a else a + 1) s'.toVolume
  superblock : s'.superblock = s.superblock
  listing : DirChain s'.disk s'.rootPtr [4099] (visible (s'.root.map DirectoryEntry.slot))
  stored : s'.disk.sectors 4099 = (s'.rootDir.blockAt [4099] 0).encode
  rest : ∀ x, x ≠ 4099 → s'.disk.sectors x = s.disk.sectors x
  inv : (kind = .directory → DirChain s.disk ⟨a, 512⟩ [a] []) → s'.Inv

theorem Synced.single {dir : Directory} {x b : ℕ} {chain' : List ℕ} (hs : Synced dir [x] chain' v v')
    (hdirect : dir.head.isDirect = true) (hstart : dir.head.start = x) (hlen : dir.children.length ≤ 8)
    (hfill : Filled b v) (hused : ¬v.Free x) : chain' = [x] ∧ Filled b v' := by
  have hone : dir.blocksNeeded = 1 := by
    simp only [Directory.blocksNeeded, divCeil, ENTRIES_PER_DIRENTRY]
    omega
  obtain rfl : chain' = [x] := by
    obtain ⟨rest, hrest⟩ := hs.listing.cons_of_direct hdirect
    have hlength := hs.length
    rw [hone, hrest, length_cons] at hlength
    rw [hrest, hstart, eq_nil_of_length_eq_zero (by omega : rest.length = 0)]
  refine ⟨rfl, by rw [hs.shape.sectorCount, hfill.sectorCount], by rw [hs.shape.dataStart, hfill.dataStart],
    by rw [hs.shape.length, hfill.length], hfill.lower, hfill.upper, fun y => ?_⟩
  rw [hs.free, hone, ← hfill.free]
  simp only [drop_one, tail_cons, not_mem_nil, or_false, mem_singleton]
  refine ⟨fun h => h.1, fun h => ⟨h, ?_⟩⟩
  rintro rfl
  exact hused h

section Create

variable {a : ℕ} {s : LemonFS} {path : Path} {flags : ℕ} {bits : DirEntryFlags} {kind : FileType} {dir : Directory}
  {chain0 owned0 before chain inner after : List ℕ} {es slots : List Slot}

/-- A `create` in a directory that has room for one more entry succeeds, and takes the lowest free sector. -/
theorem Filled.create (h : Filled a s.toVolume) (hat : At s dir chain0 es owned0 before chain slots inner after)
    (hpar : s.getParent path = .ok dir) (hroot : path.isRoot = false) (habsent : dir.getChild path.name = none)
    (hbits : DirEntryFlags.fromBits (UInt8.ofNat flags) = some bits) (hkind : FileType.fromDirflags bits = kind)
    (ha : a < 4099) (hroom : dir.children.length < 8 * chain.length) :
    ∃ v1 chain' s', create path flags s = (.ok (), s') ∧
      Created s dir chain path kind (if kind = .symlink then 0 else a) v1 chain' s' ∧ v1.disk = s.disk ∧
      Filled (if kind = .symlink then a else a + 1) v1 := by
  have hspec := create_spec hat.ready hpar flags
  rcases hrun : LemonFS.create path flags s with ⟨e | _, s'⟩
  · cases wp_error hspec hrun with
    | isRoot h' => simp [hroot] at h'
    | fileExists h' => exact absurd habsent h'
    | badFlags h' => simp [hbits] at h'
    | noSpace _ h' =>
      rcases h' with h' | h'
      · exact absurd h' (h.available_ne_nil ha)
      · unfold divCeil at h'
        omega
  · obtain ⟨bits', start, v1, chain', hbits', hc⟩ := wp_ok hspec hrun
    rw [hbits] at hbits'
    cases hbits'
    rw [hkind] at hc
    refine ⟨v1, chain', s', rfl, ?_⟩
    rcases hc.taken with ⟨hk, rfl, rfl⟩ | ⟨hk, ht⟩
    · rw [if_pos hk, if_pos hk]
      exact ⟨hc, rfl, h⟩
    · rw [if_neg hk, if_neg hk]
      obtain ⟨hl, hfill⟩ := h.takes ht
      obtain rfl : start = a := by simpa using hl
      exact ⟨hc, ht.disk, hfill⟩

theorem Small.create (h : Small a s) (hroot : path.isRoot = false) (hparent : path.parent.isRoot = true)
    (habsent : s.rootDir.getChild path.name = none)
    (hbits : DirEntryFlags.fromBits (UInt8.ofNat flags) = some bits) (hkind : FileType.fromDirflags bits = kind)
    (ha : a < 4099) (hroom : s.root.length < 8) :
    ∃ s', create path flags s = (.ok (), s') ∧ Made s a path kind s' := by
  obtain ⟨chain0, es, owned0, before, chain, slots, inner, after, hat⟩ := h.inv.at fun _ _ _ => .root
  obtain ⟨es', hes'⟩ := h.listing
  obtain ⟨rfl, -⟩ := hat.focus.listing.unique hes'
  have hchildren : s.rootDir.children.length < 8 * [4099].length := hroom
  obtain ⟨v1, chain', s', hrun, hc, hdisk, hfill⟩ :=
    h.filled.create hat (getParent_root hparent) hroot habsent hbits hkind ha hchildren
  have hsynced := hc.synced
  have hptr : s'.rootPtr = s.rootPtr := by rw [rootPtr, rootPtr, hc.superblock]
  have hused : ¬v1.Free 4099 := by
    rw [hfill.free]
    omega
  obtain ⟨rfl, hfill'⟩ := hsynced.single (show s.rootPtr.isDirect = true by rfl) h.dataEnd
    (by rw [length_append]; exact hchildren) hfill hused
  have hnew : s'.root = s.root ++
      [DirectoryEntry.new (fromStr path.name) (if kind = .symlink then 0 else a) kind] := by
    rw [hc.root, if_pos hparent]
  refine ⟨s', hrun, hnew, hfill', hc.superblock, ?_, ?_, ?_, ?_⟩
  · rw [hptr, hnew]
    exact hsynced.listing
  · rw [hsynced.stored 0 4099 rfl]
    simp only [rootDir, hptr, hnew]
  · intro x hx
    rw [hsynced.rest x (by simpa using hx), hdisk]
  · intro hblank
    obtain ⟨inner', hu⟩ := hc.update hat ⟨fun _ => rfl, fun _ => hparent⟩ (fun _ => rfl) (by
      intro hkind
      rw [if_neg (by rw [hkind]; decide)]
      exact hblank hkind)
    exact hu.inv hat

end Create

theorem Made.small {s' : LemonFS} {path : Path} {kind : FileType} (h : Made s a path kind s') (hs : Small a s)
    (hblank : kind = .directory → DirChain s.disk ⟨a, 512⟩ [a] []) :
    Small (if kind = .symlink then a else a + 1) s' :=
  ⟨h.inv hblank, h.filled, by rw [h.superblock, hs.dataStart], by rw [h.superblock, hs.dataEnd], _, h.listing⟩

theorem create_first {content : ℕ → Sector} {path : Path} {flags : ℕ} {bits : DirEntryFlags} {kind : FileType}
    {s : LemonFS} (h0 : Fresh (disk4101 content) s) (hroot : path.isRoot = false) (hparent : path.parent.isRoot = true)
    (hbits : DirEntryFlags.fromBits (UInt8.ofNat flags) = some bits) (hkind : FileType.fromDirflags bits = kind) :
    ∃ s', create path flags s = (.ok (), s') ∧ Made s 3 path kind s' := by
  have habsent : s.rootDir.getChild path.name = none := getChild_rootDir h0.facts.root rfl
  exact h0.small.create hroot hparent habsent hbits hkind (by norm_num) (by rw [h0.facts.root]; norm_num)

theorem Small.blank (h : Small a s) (hzero : s.disk.sectors a = Sector.zero) (path : Path) (flags : ℕ) :
    (Call.create path flags).Blank s := by
  intro bits x _ _ hx
  have ha := h.filled.upper
  have hcount := h.filled.sectorCount
  rw [h.filled.available] at hx
  obtain rfl : a = x := by
    cases hk : 4099 - a with
    | zero =>
      rw [hk] at hx
      cases hx
    | succ k =>
      rw [hk] at hx
      exact Option.some.inj hx
  exact dirChain_zero (by omega) hzero

section Write

variable {s : LemonFS} {path : Path} {src : PhysPage} {dir : Directory}
  {chain0 owned0 before chain inner after : List ℕ} {es slots : List Slot} {f : File} {ind : List ℕ}
  {ext : List LinkPointer}

theorem write_ok (h : At s dir chain0 es owned0 before chain slots inner after) (hpar : s.getParent path = .ok dir)
    (hroot : path.isRoot = false) (hpos : 0 < src.count) (hget : dir.getChild path.name = some (.file f))
    (hlink : LinkChain s.disk f.head ind ext) (hroom : HasRoom s.bitmap ind ext (8 * src.count)) :
    ∃ s' l1 l2 i1 i2 f' lbas v1 chain', write path src s = (.ok (), s') ∧
      Written s dir chain inner path src l1 f l2 i1 ind ext i2 f' lbas v1 chain' s' := by
  have hspec := write_spec h.ready hpar src
  rcases hrun : write path src s with ⟨e | _, s'⟩
  · cases wp_error hspec hrun with
    | isRoot h' => simp [hroot] at h'
    | fileNotFound h' => simp [hget] at h'
    | badFileType h' hf =>
      rw [hget] at h'
      exact absurd (Option.some.inj h').symm (hf f)
    | noPages h' => omega
    | noSpace hc hlink' _ hout _ _ =>
      have hget' := hc.getChild
      rw [hget] at hget'
      cases hget'
      obtain ⟨rfl, rfl⟩ := hlink.unique hlink'
      exact absurd hroom hout.noRoom
  · obtain ⟨l1, f1, l2, i1, ind1, ext1, i2, f', lbas, v1, chain', hw⟩ := wp_ok hspec hrun
    have hget' := hw.child.getChild
    rw [hget] at hget'
    cases hget'
    obtain ⟨rfl, rfl⟩ := hlink.unique hw.link
    exact ⟨s', l1, l2, i1, i2, f', lbas, v1, chain', rfl, hw⟩

end Write

theorem Filled.room (h : Filled (a + 1) v) (hpos : 0 < n) (hn : a + n ≤ 4099) :
    newChain v.bitmap [] [⟨a, 1⟩] n = range' a n ∧
      coalesce (newChain v.bitmap [] [⟨a, 1⟩] n) = [⟨a, 512 * n⟩] ∧ HasRoom v.bitmap [] [⟨a, 1⟩] n := by
  have hblocks : fileBlocks [⟨a, 1⟩] = [a] := by
    rw [fileBlocks_singleton, LinkPointer.blocks, show divCeil 1 512 = 1 from rfl, range'_one]
  have havail := h.available
  have hlower := h.lower
  have hchain : newChain v.bitmap [] [⟨a, 1⟩] n = range' a n := by
    rw [newChain, havail, hblocks, singleton_append, ← range'_succ, take_range', Nat.min_eq_left (by omega)]
  have hcoalesce : coalesce (range' a n) = [⟨a, 512 * n⟩] := by
    rw [@coalesce_range' 4101 (by norm_num) a n hpos (by omega)]
  refine ⟨hchain, by rw [hchain, hcoalesce], ?_⟩
  have hdrop : (fileBlocks [⟨a, 1⟩]).drop n = [] := by
    rw [hblocks, drop_eq_nil_iff, length_singleton]
    omega
  rw [HasRoom, hchain, hdrop, append_nil, havail, hblocks, linkBlocks, hcoalesce]
  simp only [length_range', length_singleton, if_true, true_and]
  omega

theorem Rewritten.head_of_single {ind lbas : List ℕ} {ext : List LinkPointer} {src : PhysPage} {f f' : File}
    (hr : Rewritten ind ext src f f' lbas v v') {p : LinkPointer}
    (h : coalesce (newChain v.bitmap ind ext (8 * src.count)) = [p]) : f'.head = p := by
  have hlbas : lbas = [] := by
    rw [← length_eq_zero_iff, hr.linkCount, linkBlocks, h]
    rfl
  have hl := hr.link
  rw [h, hlbas] at hl
  rcases hl.direct_inv with hnil | hone
  · cases hnil
  · exact (singleton_inj.1 hone).symm

/-- A sample state with one new file `a`, which has sector 3. -/
structure OneFile (s : LemonFS) : Prop where
  small : Small 4 s
  root : s.root = [.file ⟨fromStr [0x61], 0, ⟨3, 1⟩, []⟩]
  stored : s.disk.sectors 4099 = (s.rootDir.blockAt [4099] 0).encode
  consistent : s.Consistent

theorem create_file {s0 : LemonFS} (h0 : Fresh (disk4101 content) s0) :
    ∃ s, create ⟨[0x2F, 0x61]⟩ 0 s0 = (.ok (), s) ∧ OneFile s ∧ ∀ x, x ≠ 4099 → s.disk.sectors x = s0.disk.sectors x := by
  obtain ⟨s, hrun, hmade⟩ := @create_first _ ⟨[0x2F, 0x61]⟩ 0 0 .file s0 h0 rfl rfl rfl (by decide)
  have hsmall : Small 4 s := hmade.small h0.small fun h => by cases h
  have hroot : s.root = [.file ⟨fromStr [0x61], 0, ⟨3, 1⟩, []⟩] := by
    rw [hmade.root, h0.facts.root]
    rfl
  refine ⟨s, hrun, ⟨hsmall, hroot, hmade.stored, hsmall.inv.mounted, ?_⟩, hmade.rest⟩
  obtain ⟨chain, es, owned, hh, -⟩ := hsmall.inv.tree
  obtain ⟨-, hes⟩ := hh.listing.unique hmade.listing
  rw [hroot] at hes
  have hes : es = [⟨fromStr [0x61], .file, ⟨3, 1⟩⟩] := hes
  refine ⟨chain, es, owned, hh, by rw [hroot, hes]; rfl, fun e hin => ?_⟩
  rw [hes] at hin
  cases hin with
  | here he =>
    obtain rfl := mem_singleton.1 he
    exact fun h => by cases h
  | inside hmem hk =>
    obtain rfl := mem_singleton.1 hmem
    cases hk

theorem exists_blank : ∃ s, Fresh (disk4101 fun _ => Sector.zero) s := exists_fresh _ (by norm_num [disk4101])

theorem exists_oneFile : ∃ s, OneFile s := by
  obtain ⟨s0, h0⟩ := exists_blank
  obtain ⟨s, -, hs, -⟩ := create_file h0
  exact ⟨s, hs⟩

theorem exists_linked : ∃ s s', OneFile s ∧ create ⟨[0x2F, 0x62]⟩ 2 s = (.ok (), s') := by
  obtain ⟨s, hs⟩ := exists_oneFile
  have habsent : s.rootDir.getChild (Path.name ⟨[0x2F, 0x62]⟩) = none := getChild_rootDir hs.root rfl
  obtain ⟨s', hrun, -⟩ := @Small.create 4 s ⟨[0x2F, 0x62]⟩ 2 2 .symlink hs.small rfl rfl habsent (by decide) (by decide)
    (by norm_num) (by rw [hs.root]; decide)
  exact ⟨s, s', hs, hrun⟩

theorem OneFile.getChild (h : OneFile s) :
    s.rootDir.getChild (Path.name ⟨[0x2F, 0x61]⟩) = some (.file ⟨fromStr [0x61], 0, ⟨3, 1⟩, []⟩) :=
  getChild_rootDir h.root rfl

theorem OneFile.write {s : LemonFS} (h : OneFile s) {src : PhysPage} (hpos : 0 < src.count) (hle : src.count ≤ 512) :
    ∃ s', write ⟨[0x2F, 0x61]⟩ src s = (.ok (), s') ∧
      s'.root = [.file ⟨fromStr [0x61], 4096 * src.count, ⟨3, 4096 * src.count⟩, []⟩] := by
  obtain ⟨chain0, es, owned0, before, chain, slots, inner, after, hat⟩ := h.small.inv.at fun _ _ _ => .root
  have hpar : s.getParent ⟨[0x2F, 0x61]⟩ = .ok s.rootDir := getParent_root rfl
  have hget := h.getChild
  have hlink : LinkChain s.disk ⟨3, 1⟩ [] [⟨3, 1⟩] := .extent rfl rfl
  obtain ⟨-, hcoalesce, hroom⟩ := h.small.filled.room (n := 8 * src.count) (by omega) (by omega)
  obtain ⟨s', l1, l2, i1, i2, f', lbas, v1, chain', hrun, hw⟩ :=
    write_ok hat hpar rfl hpos hget hlink hroom
  have hhead : f'.head = ⟨3, 4096 * src.count⟩ := by
    rw [hw.rewritten.head_of_single hcoalesce]
    congr 1
    omega
  have hsplit : l1 = [] ∧ l2 = [] := by
    have hlen := congrArg List.length (h.root.symm.trans hw.child.children)
    simp only [length_nil, length_append, length_cons] at hlen
    exact ⟨eq_nil_of_length_eq_zero (by omega), eq_nil_of_length_eq_zero (by omega)⟩
  refine ⟨s', hrun, ?_⟩
  rw [hw.root, if_pos (by decide), hsplit.1, hsplit.2, hw.rewritten.file, hhead]
  rfl

theorem exists_written : ∃ s s', OneFile s ∧ write ⟨[0x2F, 0x61]⟩ (PhysPage.zeroed 1) s = (.ok (), s') := by
  obtain ⟨s, hs⟩ := exists_oneFile
  obtain ⟨s', hrun, -⟩ := @OneFile.write s hs (PhysPage.zeroed 1) Nat.one_pos (show 1 ≤ 512 by norm_num)
  exact ⟨s, s', hs, hrun⟩

def singleFile (name : Filename) (link next : LinkPointer) : DirBlock :=
  ⟨0, fun k => if k = 0 then ⟨name, 0, link⟩ else DirEntry.zero, next⟩

/-- What an earlier file system may have left in a sector: a directory block with one file `f`. -/
def staleBlock : Sector := (singleFile (fromStr [0x66]) ⟨4098, 512⟩ ⟨0, 0⟩).encode

def staleContent (x : ℕ) : Sector := if x = 3 then staleBlock else Sector.zero

theorem entries_single (name : Filename) (link next : LinkPointer) (hfits : link.Fits) :
    (DirBlock.decode (singleFile name link next).encode).entries =
      fun k => if k = 0 then ⟨name, 0, link⟩ else DirEntry.zero := by
  funext k
  refine DirBlock.entries_decode_encode _ k ?_
  simp only [singleFile]
  split_ifs
  · exact hfits
  · exact ⟨by norm_num [DirEntry.zero], by norm_num [DirEntry.zero]⟩

theorem next_single (name : Filename) (link next : LinkPointer) (hfits : next.Fits) :
    (DirBlock.decode (singleFile name link next).encode).next = next :=
  DirBlock.next_decode_encode _ hfits

theorem slots_single (name : Filename) (link next : LinkPointer) (hfits : link.Fits) (hname : name.isEmpty = false) :
    (singleFile name link next).encode.slots = [⟨name, .file, link⟩] := by
  rw [Sector.slots, entries_single name link next hfits]
  have hlist : (ofFn fun k : Fin 8 => if k = 0 then (⟨name, 0, link⟩ : DirEntry) else DirEntry.zero) =
      ⟨name, 0, link⟩ :: replicate 7 DirEntry.zero := rfl
  have hzero : visible ((replicate 7 DirEntry.zero).map DirEntry.slot) = [] := rfl
  have hshown : DirEntry.slot ⟨name, 0, link⟩ = ⟨name, .file, link⟩ := by
    rw [DirEntry.slot, if_neg (show ¬DirEntryFlags.contains 0 .isSymlink = true by decide),
      if_neg (show ¬DirEntryFlags.contains 0 .isDir = true by decide)]
  rw [hlist, map_cons, hshown, visible, filter_cons_of_pos (by rw [hname]; rfl)]
  exact congrArg (_ :: ·) hzero

theorem stale_listing (hn : 3 < d.sectorCount) (h : d.sectors 3 = staleBlock) :
    DirChain d ⟨3, 512⟩ [3] [⟨fromStr [0x66], .file, ⟨4098, 512⟩⟩] := by
  have hread : d.At 3 staleBlock := ⟨hn, h⟩
  have hnext : (DirBlock.decode staleBlock).next.isDirect = false := by
    rw [staleBlock, next_single _ _ _ ⟨by norm_num, by norm_num⟩]
    rfl
  have hchain := @DirChain.block d ⟨3, 512⟩ _ _ _ rfl hread (.done hnext)
  rwa [staleBlock, slots_single _ _ _ ⟨by norm_num, by norm_num⟩ rfl] at hchain

end MaramOS
