import MaramOS.Proofs.Sample

/-! Writing the allocator out and mounting again. The stored bits are those in
memory, the mount collapses and reserves them again, and the canonical form makes
the two allocators equal. -/

namespace MaramOS

open Prog Volume

theorem BlockState.get_raw {s : BlockState} {i : ℕ} (hi : i < 4096) : s.raw.get i = s.bit i := by
  cases s with
  | free => exact BitmapBlock.get_zero hi
  | full => exact BitmapBlock.get_ones hi
  | mixed b => rfl

namespace BitmapAllocator

theorem storedBit_raw (b : BitmapAllocator) (j : ℕ) : storedBit (b.blocks.map BlockState.raw) j = b.bit j := by
  rw [storedBit, bit, List.getElem?_map]
  cases b.blocks[j / 4096]? with
  | none => rfl
  | some s => exact BlockState.get_raw (Nat.mod_lt _ (by norm_num))

theorem sync_spec (b : BitmapAllocator) {lo : ℕ} {v : Volume} (h : lo + b.blocks.length ≤ v.disk.sectorCount) :
    wp (b.sync lo) v (fun _ v' => v'.disk.sectorCount = v.disk.sectorCount ∧
        (∀ i s, b.blocks[i]? = some s → v'.disk.sectors (lo + i) = s.raw) ∧
        ∀ x, x < lo ∨ lo + b.blocks.length ≤ x → v'.disk.sectors x = v.disk.sectors x)
      (fun _ _ => False) := by
  have hfits := v.disk.fits
  refine wp_mono (wp_forM b.blocks.zipIdx (fun done v' => v'.disk.sectorCount = v.disk.sectorCount ∧
      (∀ i < done.length, ∀ s, b.blocks[i]? = some s → v'.disk.sectors (lo + i) = s.raw) ∧
      ∀ x, x < lo ∨ lo + done.length ≤ x → v'.disk.sectors x = v.disk.sectors x) ?_
    ⟨rfl, by simp, by simp⟩) ?_ (fun _ _ h => h)
  · rintro done ⟨s, i⟩ rest v' hsplit ⟨hcount, hdone, hrest⟩
    have hget : b.blocks.zipIdx[done.length]? = some (s, i) := by
      rw [hsplit, List.getElem?_append_right le_rfl, Nat.sub_self]
      rfl
    rw [List.getElem?_zipIdx, Option.map_eq_some_iff] at hget
    obtain ⟨s', hs', heq⟩ := hget
    obtain ⟨rfl, rfl⟩ := Prod.mk.inj heq
    have hlt := (List.getElem?_eq_some_iff.1 hs').1
    have haddr : wadd (0 + done.length) lo = lo + done.length := by
      rw [wadd_of_lt (by omega)]
      omega
    simp only [haddr]
    refine wp_mono (writeData_spec s'.raw (by omega)) (fun _ v'' hw => ?_) (fun _ _ h => h)
    have hsame : ∀ x, x ≠ lo + done.length → v''.disk.sectors x = v'.disk.sectors x :=
      fun x hx => hw.rest x (by simpa using hx)
    refine ⟨hw.sectorCount.trans hcount, fun j hj s hs => ?_, fun x hx => ?_⟩
    · rw [List.length_append, List.length_singleton] at hj
      obtain hj | rfl : j < done.length ∨ j = done.length := by omega
      · rw [hsame _ (by omega)]
        exact hdone j hj s hs
      · obtain rfl := Option.some.inj (hs'.symm.trans hs)
        exact hw.stored 0 _ rfl
    · rw [List.length_append, List.length_singleton] at hx
      rw [hsame x (by omega), hrest x (by omega)]
  · rintro _ v' ⟨hcount, hdone, hrest⟩
    rw [List.length_zipIdx] at hdone hrest
    exact ⟨hcount, fun i s hs => hdone i (List.getElem?_eq_some_iff.1 hs).1 s hs, hrest⟩

end BitmapAllocator

theorem syncedFlags_idem (flags : UInt64) : syncedFlags (syncedFlags flags) = syncedFlags flags := by
  refine UInt64.toBitVec_inj.1 (BitVec.eq_of_getLsbD_eq fun i _ => ?_)
  simp only [syncedFlags, UInt64.toBitVec_or, UInt64.toBitVec_and, BitVec.getLsbD_or, BitVec.getLsbD_and]
  cases flags.toBitVec.getLsbD i <;> cases (UInt64.toBitVec 0b11101).getLsbD i <;>
    cases (UInt64.toBitVec 0b10000).getLsbD i <;> rfl

theorem sealSb_idem (sb : SuperBlock) : sealSb (sealSb sb) = sealSb sb := by
  simp only [sealSb, syncedFlags_idem]

theorem mount_inv {d : Disk} {sb : SuperBlock} {s : LemonFS} (h : mount d sb = .ok s) (hle : sb.dataStart ≤ d.sectorCount) :
    s.disk = d ∧ s.superblock = sb ∧ loadBitmap sb (bitmapBlocks d sb) = .ok s.bitmap := by
  obtain ⟨b, hb, -⟩ := loadBitmap_spec sb (bitmapBlocks d sb)
  rw [mount_eq hle hb] at h
  cases hroot : Directory.openAt d (Filename.fromStr [0x2F]) ⟨sb.dataEnd, 512⟩ with
  | error e =>
    rw [hroot] at h
    cases h
  | ok root =>
    rw [hroot] at h
    cases h
    exact ⟨rfl, rfl, hb⟩

theorem LemonFS.sync_run {s : LemonFS} (hpos : 0 < s.superblock.bitmapStart)
    (hfit : s.superblock.bitmapStart + s.bitmap.blocks.length < s.disk.sectorCount) :
    ∃ s', sync s = (.ok (), s') ∧ s'.disk.sectorCount = s.disk.sectorCount ∧
      s'.disk.sectors 0 = (sealSb s.superblock).encode ∧
      (∀ i t, s.bitmap.blocks[i]? = some t → s'.disk.sectors (s.superblock.bitmapStart + i) = t.raw) ∧
      ∀ x, s.superblock.bitmapStart + s.bitmap.blocks.length ≤ x → x ≠ s.disk.sectorCount - 1 →
        s'.disk.sectors x = s.disk.sectors x := by
  have hspec : wp sync s (fun _ s' => s'.disk.sectorCount = s.disk.sectorCount ∧
      s'.disk.sectors 0 = (sealSb s.superblock).encode ∧
      (∀ i t, s.bitmap.blocks[i]? = some t → s'.disk.sectors (s.superblock.bitmapStart + i) = t.raw) ∧
      ∀ x, s.superblock.bitmapStart + s.bitmap.blocks.length ≤ x → x ≠ s.disk.sectorCount - 1 →
        s'.disk.sectors x = s.disk.sectors x) (fun _ _ => False) := by
    unfold sync
    refine wp_reads_seq ?_ rfl
    refine wp_onVolume_seq (writeSb_spec s.superblock (by omega)) ?_ (fun _ _ h => h)
    rintro _ v1 ⟨hcount1, -, hsb, -, hsame1⟩
    refine wp_zoom.2 (wp_mono (@BitmapAllocator.sync_spec s.bitmap s.superblock.bitmapStart v1 (by omega)) ?_
      (fun _ _ h => h))
    rintro _ v2 ⟨hcount2, hstored, hsame2⟩
    refine ⟨hcount2.trans hcount1, ?_, hstored, fun x hx hlast => ?_⟩
    · exact (hsame2 0 (.inl hpos)).trans hsb
    · exact (hsame2 x (.inr hx)).trans (hsame1 x (by omega) hlast)
  rcases hrun : sync s with ⟨e | _, s'⟩
  · exact (wp_error hspec hrun).elim
  · have hpost := wp_ok hspec hrun
    exact ⟨s', rfl, hpost⟩

theorem canonical_uniform {l : List BlockState} (h : ∀ s ∈ l, s = .free ∨ s = .full) (dataStart : ℕ) :
    BitmapAllocator.Canonical ⟨l, dataStart⟩ := by
  intro s hs
  rcases h s hs with rfl | rfl <;> trivial

theorem loadBitmap_4101 : loadBitmap sb4101 [Sector.zero, Sector.zero] = .ok ⟨[.free, .full], 3⟩ := by
  obtain ⟨b, hb, hstart, hlen, hcanon, hbit⟩ := loadBitmap_spec sb4101 [Sector.zero, Sector.zero]
  have hbit := hbit (by decide) (by decide) (by decide)
  have hcanon' : BitmapAllocator.Canonical ⟨[.free, .full], 3⟩ := canonical_uniform (by simp) 3
  have heq : b = ⟨[.free, .full], 3⟩ := by
    refine BitmapAllocator.canonical_ext hcanon hcanon' hstart hlen fun j => ?_
    rw [hbit]
    obtain hj | hj | hj : j / 4096 = 0 ∨ j / 4096 = 1 ∨ 2 ≤ j / 4096 := by omega
    · have hget : BitmapBlock.get Sector.zero (j % 4096) = false := BitmapBlock.get_zero (Nat.mod_lt j (by norm_num))
      have hlow : ¬sb4101.dataEnd - sb4101.dataStart ≤ j := by simp only [sb4101]; omega
      simp [storedBit, BitmapAllocator.bit, hj, hget, BlockState.bit, hlow]
    · have hhigh : sb4101.dataEnd - sb4101.dataStart ≤ j := by simp only [sb4101]; omega
      simp [BitmapAllocator.bit, hj, BlockState.bit, hhigh]
    · simp [BitmapAllocator.bit, storedBit, List.getElem?_eq_none, hj]
  rw [hb, heq]

theorem mount_4101 {content : ℕ → Sector} {chain : List ℕ} (h1 : content 1 = Sector.zero) (h2 : content 2 = Sector.zero)
    (hroot : DirChain (disk4101 content) ⟨4099, 512⟩ chain []) (hlen : chain.length ≤ 4101) :
    ∃ s, mount (disk4101 content) sb4101 = .ok s ∧ s.disk = disk4101 content ∧ s.superblock = sb4101 ∧
      s.bitmap = ⟨[.free, .full], 3⟩ := by
  obtain ⟨s, hmount, hdisk, hsup, hload, -⟩ := 
    @mount_spec (disk4101 content) sb4101 chain [] (show 3 ≤ 4101 by norm_num) hroot
      (fun e he => absurd he List.not_mem_nil) hlen
  have hblocks : bitmapBlocks (disk4101 content) sb4101 = [content 1, content 2] := rfl
  rw [hblocks, h1, h2, loadBitmap_4101] at hload
  exact ⟨s, hmount, hdisk, hsup, (Except.ok.inj hload).symm⟩

theorem remount_4101 {s : LemonFS} (hcount : s.disk.sectorCount = 4101) (hsup : s.superblock = sb4101)
    (hlen : s.bitmap.blocks.length = 2) :
    ∃ s' b, LemonFS.sync s = (.ok (), s') ∧ s'.disk.sectorCount = 4101 ∧
      (∀ i t, s.bitmap.blocks[i]? = some t → s'.disk.sectors (1 + i) = t.raw) ∧
      s'.disk.sectors 4099 = s.disk.sectors 4099 ∧ (∀ j, 4096 ≤ j → b.bit j = true) ∧
      init s'.disk = (Directory.openAt s'.disk (Filename.fromStr [0x2F]) ⟨4099, 512⟩).map fun root =>
        { disk := s'.disk, superblock := sealSb sb4101, bitmap := b, root := root.children } := by
  obtain ⟨s', hsync, hcount', hzero, hstored, hsame⟩ := @LemonFS.sync_run s (by rw [hsup]; decide)
    (by rw [hsup, hlen, hcount]; decide)
  rw [hsup] at hzero hstored hsame
  rw [hcount] at hcount'
  rw [hlen] at hsame
  have hfits := fits_new_superblock (show 4101 * 512 < 2 ^ 64 by norm_num) (show SuperBlock.new 4101 = some sb4101 from rfl)
  have hget := getSuperblock_sealed hfits (by omega) hzero
  obtain ⟨b, hb, -, -, -, hbit⟩ := loadBitmap_spec (sealSb sb4101) (bitmapBlocks s'.disk (sealSb sb4101))
  have hblocks : (bitmapBlocks s'.disk (sealSb sb4101)).length = 2 := by
    rw [bitmapBlocks, List.length_map, List.length_range']
    rfl
  have hbit := hbit (by rw [hblocks]; norm_num) (show (3 : ℕ) < 4099 by norm_num) (show 4099 < 2 ^ 64 by norm_num)
  refine ⟨s', b, hsync, hcount', hstored, hsame 4099 (by decide) (by omega), fun j hj => ?_, ?_⟩
  · have htail : (sealSb sb4101).dataEnd - (sealSb sb4101).dataStart ≤ j := hj
    rw [hbit, decide_eq_true htail, Bool.true_or]
  · rw [init, hget]
    exact mount_eq (show 3 ≤ s'.disk.sectorCount by omega) hb

theorem openAt_blank {d : Disk} (hcount : d.sectorCount = 4101) (hzero : d.sectors 4099 = Sector.zero) :
    ∃ dir, Directory.openAt d (Filename.fromStr [0x2F]) ⟨4099, 512⟩ = .ok dir := by
  obtain ⟨dir, hopen, -⟩ := (dirChain_zero (by omega) hzero).openAt rfl (by intro e he; cases he)
    (by rw [hcount]; norm_num) (Filename.fromStr [0x2F])
  exact ⟨dir, hopen⟩

/-- After any allocations and frees of data sectors, `sync` and another mount give the same allocator
and the same layout, from the primary superblock. The mount itself then depends on the root
directory alone. -/
theorem sync_mount_restores (d : Disk) (sb : SuperBlock) (s : LemonFS) (b : BitmapAllocator)
    (hnew : SuperBlock.new d.sectorCount = some sb) (hmount : mount d sb = .ok s ∨ mount d (sealSb sb) = .ok s)
    (hrun : AllocRun (InData sb) s.bitmap b) :
    ∃ s', LemonFS.sync { s with bitmap := b } = (.ok (), s') ∧
      getSuperblock s'.disk = .ok (sealSb sb, false) ∧
      (sealSb sb).bitmapStart = s.superblock.bitmapStart ∧ (sealSb sb).dataStart = s.superblock.dataStart ∧
      (sealSb sb).dataEnd = s.superblock.dataEnd ∧
      init s'.disk = (Directory.openAt s'.disk (Filename.fromStr [0x2F]) ⟨s.superblock.dataEnd, 512⟩).map fun root =>
        { disk := s'.disk, superblock := sealSb sb, bitmap := b, root := root.children } := by
  obtain ⟨hmin, hbs, hds, hde, hlt, hcover, hle⟩ := layout_new d.fits hnew
  have hfits := fits_new_superblock d.fits hnew
  -- both superblocks have the layout of `sb` and seal to the same
  obtain ⟨sb', hsb', hbs', hds', hde', hseal⟩ : ∃ sb', mount d sb' = .ok s ∧ sb'.bitmapStart = sb.bitmapStart ∧
      sb'.dataStart = sb.dataStart ∧ sb'.dataEnd = sb.dataEnd ∧ sealSb sb' = sealSb sb := by
    rcases hmount with hmount | hmount
    · exact ⟨sb, hmount, rfl, rfl, rfl, rfl⟩
    · exact ⟨sealSb sb, hmount, rfl, rfl, rfl, sealSb_idem sb⟩
  have hfit := divCeil_le (show d.sectorCount ≤ 2 ^ 64 - 4096 by have := d.fits; omega)
  generalize hk : divCeil d.sectorCount 0x1000 = k at *
  obtain ⟨rfl, hsup, hload⟩ := mount_inv hsb' (by omega)
  have hlen₀ : (bitmapBlocks s.disk sb').length = k := by
    rw [bitmapBlocks, List.length_map, List.length_range']
    omega
  obtain ⟨b₀, hb₀, hstart₀, hlength₀, hcan₀, hbit₀⟩ := loadBitmap_spec sb' (bitmapBlocks s.disk sb')
  obtain rfl := Except.ok.inj (hload.symm.trans hb₀)
  have hbit₀ := hbit₀ (by rwa [hlen₀]) (by omega) (by have := s.disk.fits; omega)
  have hinv₀ : DataInv sb s.bitmap := by
    refine ⟨hstart₀.trans hds', by rw [hlength₀, hlen₀]; omega, fun j hj => ?_⟩
    rw [hbit₀, decide_eq_true (by omega), Bool.true_or]
  obtain ⟨hinv, hlength, hcan⟩ := dataInv_of_run hinv₀ hrun
  have hcan := hcan hcan₀
  have hblocks : b.blocks.length = k := by omega
  obtain ⟨s', hsync, hcount, hzero, hstored, -⟩ := @LemonFS.sync_run { s with bitmap := b }
    (by show 0 < s.superblock.bitmapStart; rw [hsup]; omega)
    (by show s.superblock.bitmapStart + b.blocks.length < s.disk.sectorCount; rw [hsup]; omega)
  have hcount : s'.disk.sectorCount = s.disk.sectorCount := hcount
  have hzero : s'.disk.sectors 0 = (sealSb sb).encode := by
    rw [← hseal, ← hsup]
    exact hzero
  have hget := getSuperblock_sealed hfits (by omega) hzero
  have hraw : bitmapBlocks s'.disk (sealSb sb) = b.blocks.map BlockState.raw := by
    refine List.ext_getElem? fun i => ?_
    rw [bitmapBlocks, List.getElem?_map, List.getElem?_map]
    by_cases hi : i < k
    · have hlt : i < sb.dataStart - sb.bitmapStart := by omega
      obtain ⟨t, ht⟩ : ∃ t, b.blocks[i]? = some t := ⟨_, List.getElem?_eq_getElem (by omega)⟩
      have hsector := hstored i t ht
      rw [hsup, hbs'] at hsector
      have hnth : (List.range' (sealSb sb).bitmapStart ((sealSb sb).dataStart - (sealSb sb).bitmapStart))[i]? =
          some (sb.bitmapStart + 1 * i) := List.getElem?_range' hlt
      rw [hnth, ht, Option.map_some, Option.map_some, Nat.one_mul, hsector]
    · have hout : (List.range' (sealSb sb).bitmapStart ((sealSb sb).dataStart - (sealSb sb).bitmapStart))[i]? = none := by
        refine List.getElem?_eq_none ?_
        rw [List.length_range']
        show sb.dataStart - sb.bitmapStart ≤ i
        omega
      rw [hout, List.getElem?_eq_none (by omega), Option.map_none, Option.map_none]
  have hload' : loadBitmap (sealSb sb) (bitmapBlocks s'.disk (sealSb sb)) = .ok b := by
    rw [hraw]
    obtain ⟨b₂, hb₂, hstart₂, hlength₂, hcan₂, hbit₂⟩ := loadBitmap_spec (sealSb sb) (b.blocks.map BlockState.raw)
    rw [List.length_map] at hlength₂ hbit₂
    have hbit₂ := hbit₂ (by rwa [hblocks]) hlt (show sb.dataEnd < 2 ^ 64 by have := s.disk.fits; omega)
    rw [hb₂, BitmapAllocator.canonical_ext hcan₂ hcan (hstart₂.trans hinv.dataStart.symm) hlength₂ fun j => ?_]
    rw [hbit₂, b.storedBit_raw]
    by_cases hj : sb.dataEnd - sb.dataStart ≤ j
    · rw [hinv.reserved j hj, Bool.or_true]
    · have hfalse : decide ((sealSb sb).dataEnd - (sealSb sb).dataStart ≤ j) = false := decide_eq_false hj
      rw [hfalse, Bool.false_or]
  refine ⟨s', hsync, hget, by rw [hsup, hbs']; rfl, by rw [hsup, hds']; rfl, by rw [hsup, hde']; rfl, ?_⟩
  have hend : s.superblock.dataEnd = (sealSb sb).dataEnd := by rw [hsup, hde']; rfl
  have hread : (sealSb sb).dataStart ≤ s'.disk.sectorCount := by
    show sb.dataStart ≤ s'.disk.sectorCount
    omega
  rw [init, hget, hend]
  exact mount_eq hread hload'

/-- The first five sectors of an empty partition of 4101 sectors are allocated, and the last two of them freed. -/
theorem sync_mount_restores_4101 :
    ∃ d s b₁ b s' t, SuperBlock.new d.sectorCount = some sb4101 ∧ mount d sb4101 = .ok s ∧
      s.bitmap.alloc 5 = .ok (some 3, b₁) ∧ b₁.free 6 2 = .ok b ∧ LemonFS.sync { s with bitmap := b } = (.ok (), s') ∧
      getSuperblock s'.disk = .ok (sealSb sb4101, false) ∧ init s'.disk = .ok t ∧ t.bitmap = b ∧
      ∀ j < 4096, b.bit j = decide (j < 3) := by
  obtain ⟨s, hmount, hdisk, hsup, hbitmap⟩ := @mount_4101 (fun _ => Sector.zero) [4099] rfl rfl
    (dirChain_zero (show 4099 < 4101 by norm_num) rfl) (by norm_num)
  have hfit : s.bitmap.findFirstFit 5 = some 0 := by rw [hbitmap]; decide +kernel
  obtain ⟨b₁, halloc, hc₁⟩ := BitmapAllocator.alloc_of_fit hfit
  have hstart₁ : b₁.dataStart = 3 := by rw [hc₁.dataStart, hbitmap]
  have hlength₁ : b₁.blocks.length = 2 := by rw [hc₁.length, hbitmap]; rfl
  obtain ⟨b, hfree, hc⟩ := b₁.free_spec 6 2 (by rw [hstart₁]; decide) (by rw [hstart₁, hlength₁]; decide)
  have hlength : b.blocks.length = 2 := by rw [hc.length, hlength₁]
  have halloc : s.bitmap.alloc 5 = .ok (some 3, b₁) := by
    rw [halloc, hbitmap]
    rfl
  obtain ⟨s', hsync, hget, -, -, -, hinit⟩ := sync_mount_restores (disk4101 fun _ => Sector.zero) sb4101 s b rfl
    (.inl hmount) (.free (.alloc .start halloc) (show 3 ≤ 6 ∧ 6 + 2 ≤ 4099 by decide) hfree)
  obtain ⟨s'', -, hsync', hcount, -, hsame, -⟩ := @remount_4101 { s with bitmap := b } (by rw [hdisk]; rfl) hsup hlength
  cases hsync.symm.trans hsync'
  obtain ⟨dir, hopen⟩ := openAt_blank hcount (hsame.trans (by rw [hdisk]; rfl))
  have hend : s.superblock.dataEnd = 4099 := by rw [hsup]; rfl
  rw [hend, hopen] at hinit
  refine ⟨_, s, b₁, b, s', _, rfl, hmount, halloc, hfree, hsync, hget, hinit, rfl, fun j hj => ?_⟩
  have hempty : s.bitmap.bit j = false := by
    rw [hbitmap, BitmapAllocator.bit, Nat.div_eq_of_lt hj]
    rfl
  rw [hc.bit, hc₁.bit, hempty, hstart₁]
  simp only [BitmapAllocator.mem_span]
  split_ifs with h₁ h₂
  · rw [decide_eq_false (by omega)]
  · rw [decide_eq_true (by omega)]
  · rw [decide_eq_false (by omega)]

/-- A directory block without entries whose chain goes on in the first bitmap sector. -/
def strayRoot : Sector := DirBlock.encode ⟨0, fun _ => DirEntry.zero, ⟨1, 512⟩⟩

theorem next_strayRoot : (DirBlock.decode strayRoot).next = ⟨1, 512⟩ :=
  DirBlock.next_decode_encode _ ⟨by norm_num, by norm_num⟩

theorem slots_strayRoot : strayRoot.slots = [] :=
  slots_encode _ [] (fun _ => rfl) (by simp) (by simp)

theorem addChildrenFromLink_fails {d : Disk} {k : ℕ} {ptr : LinkPointer} {sec : Sector} (hd : ptr.isDirect = true)
    (hread : readData d ptr.start = .ok sec) (h : ∀ cs, addChildrenFromLink d k (DirBlock.decode sec).next ≠ .ok cs) :
    ∀ cs, addChildrenFromLink d (k + 1) ptr ≠ .ok cs := by
  intro cs hcs
  rw [addChildrenFromLink, hd, LinkPointer.read, hread] at hcs
  simp only [Bool.not_true, Bool.false_eq_true, if_false, ok_bind] at hcs
  cases hhere : parseEntries d (List.ofFn (DirBlock.decode sec).entries) with
  | error e =>
    rw [hhere] at hcs
    cases hcs
  | ok here =>
    cases hrest : addChildrenFromLink d k (DirBlock.decode sec).next with
    | error e =>
      rw [hhere, hrest] at hcs
      cases hcs
    | ok rest => exact h rest hrest

/-- In the first run a reserved sector was freed and is reserved again by the mount. In the second the
root directory goes on in a bitmap sector, and once the data area is full it cannot be read any more. -/
theorem sync_mount_differs :
    (∃ d s b s' t, SuperBlock.new d.sectorCount = some sb4101 ∧ mount d sb4101 = .ok s ∧
      s.bitmap.free 4099 1 = .ok b ∧ LemonFS.sync { s with bitmap := b } = (.ok (), s') ∧
      init s'.disk = .ok t ∧ t.bitmap ≠ b) ∧
    ∃ d s b s', SuperBlock.new d.sectorCount = some sb4101 ∧ mount d sb4101 = .ok s ∧
      s.bitmap.alloc 4096 = .ok (some 3, b) ∧ LemonFS.sync { s with bitmap := b } = (.ok (), s') ∧
      ∀ t, init s'.disk ≠ .ok t := by
  constructor
  · obtain ⟨s, hmount, hdisk, hsup, hbitmap⟩ := @mount_4101 (fun _ => Sector.zero) [4099] rfl rfl
      (dirChain_zero (show 4099 < 4101 by norm_num) rfl) (by norm_num)
    obtain ⟨b, hfree, hc⟩ := s.bitmap.free_spec 4099 1 (by rw [hbitmap]; decide) (by rw [hbitmap]; decide)
    have hlen : b.blocks.length = 2 := by rw [hc.length, hbitmap]; rfl
    obtain ⟨s', b', hsync, hcount, -, hsame, htail, hinit⟩ :=
      @remount_4101 { s with bitmap := b } (by rw [hdisk]; rfl) hsup hlen
    obtain ⟨dir, hopen⟩ := openAt_blank hcount (hsame.trans (by rw [hdisk]; rfl))
    rw [hopen] at hinit
    refine ⟨_, s, b, s', _, rfl, hmount, hfree, hsync, hinit, fun heq => ?_⟩
    have hbit := htail 4096 le_rfl
    rw [show b' = b from heq, hc.bit, if_pos (by rw [hbitmap]; decide)] at hbit
    cases hbit
  · have hstray : DirChain (disk4101 fun x => if x = 4099 then strayRoot else Sector.zero) ⟨4099, 512⟩ [4099, 1] [] := by
      have hread : (disk4101 fun x => if x = 4099 then strayRoot else Sector.zero).At 4099 strayRoot :=
        ⟨by norm_num [disk4101], rfl⟩
      have hnext := @dirChain_zero (disk4101 fun x => if x = 4099 then strayRoot else Sector.zero) 1
        (by norm_num [disk4101]) rfl
      rw [← next_strayRoot] at hnext
      have hchain := @DirChain.block _ ⟨4099, 512⟩ _ _ _ rfl hread hnext
      rwa [slots_strayRoot] at hchain
    obtain ⟨s, hmount, hdisk, hsup, hbitmap⟩ := mount_4101 rfl rfl hstray (by norm_num)
    have hfit : s.bitmap.findFirstFit 4096 = some 0 := by rw [hbitmap]; rfl
    obtain ⟨b, halloc, hc⟩ := BitmapAllocator.alloc_of_fit hfit
    have hb : b = ⟨[.full, .full], 3⟩ := by
      refine BitmapAllocator.canonical_ext (hc.canonical ?_) (canonical_uniform (by simp) 3)
        (by rw [hc.dataStart, hbitmap]) (by rw [hc.length, hbitmap]; rfl) fun j => ?_
      · rw [hbitmap]
        exact canonical_uniform (by simp) 3
      · rw [hc.bit, hbitmap]
        simp only [BitmapAllocator.mem_span]
        obtain hj | hj | hj : j / 4096 = 0 ∨ j / 4096 = 1 ∨ 2 ≤ j / 4096 := by omega
        · rw [if_pos (by omega)]
          simp [BitmapAllocator.bit, hj, BlockState.bit]
        · rw [if_neg (by omega)]
          simp [BitmapAllocator.bit, hj, BlockState.bit]
        · rw [if_neg (by omega)]
          simp [BitmapAllocator.bit, List.getElem?_eq_none, hj]
    rw [hbitmap] at halloc
    obtain ⟨s', b', hsync, hcount, hstored, hsame, -, hinit⟩ :=
      @remount_4101 { s with bitmap := b } (by rw [hdisk]; rfl) hsup (by rw [hb]; rfl)
    refine ⟨_, s, b, s', rfl, hmount, by rw [hbitmap]; exact halloc, hsync, fun t ht => ?_⟩
    have hfirst : readData s'.disk 4099 = .ok strayRoot := by
      refine Disk.At.read ⟨by omega, ?_⟩
      rw [hsame, hdisk]
      rfl
    have hsecond : readData s'.disk 1 = .ok fun _ => 0xFF :=
      Disk.At.read ⟨by omega, hstored 0 .full (by rw [hb]; rfl)⟩
    have hnext : (DirBlock.decode fun _ => 0xFF).next = ⟨2 ^ 64 - 1, 2 ^ 64 - 1⟩ := by decide
    have hfar : ∀ cs, addChildrenFromLink s'.disk 4101 ⟨2 ^ 64 - 1, 2 ^ 64 - 1⟩ ≠ .ok cs := by
      intro cs hcs
      have hread : LinkPointer.read ⟨2 ^ 64 - 1, 2 ^ 64 - 1⟩ s'.disk = .error (.fs .ioError) := by
        rw [LinkPointer.read, readData, Disk.readSectors, hcount]
        rfl
      rw [addChildrenFromLink, hread] at hcs
      cases hcs
    have hlist : ∀ cs, addChildrenFromLink s'.disk 4103 ⟨4099, 512⟩ ≠ .ok cs := by
      refine addChildrenFromLink_fails rfl hfirst ?_
      rw [next_strayRoot]
      refine addChildrenFromLink_fails rfl hsecond ?_
      rw [hnext]
      exact hfar
    rw [hinit, Directory.openAt, LinkPointer.read, hfirst, ok_bind, Directory.fromDirBlock, Disk.fuel, hcount] at ht
    cases hcs : addChildrenFromLink s'.disk 4103 ⟨4099, 512⟩ with
    | error e =>
      rw [hcs] at ht
      cases ht
    | ok cs => exact hlist cs hcs

end MaramOS
