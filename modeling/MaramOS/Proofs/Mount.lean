import MaramOS.Proofs.DataArea
import MaramOS.Proofs.Walk

/-! Mounting and formatting. Mounting parses the root directory that is on disk,
and a freshly formatted partition holds an empty one, whatever else it holds. -/

namespace MaramOS

open Prog Volume

variable {d : Disk} {sb : SuperBlock} {s : LemonFS} {n : ℕ}

theorem mapM_readData (l : List ℕ) (h : ∀ x ∈ l, x < d.sectorCount) :
    l.mapM (readData d) = .ok (l.map d.sectors) := by
  induction l with
  | nil => rfl
  | cons x l ih =>
    rw [List.mapM_cons, readData_eq (h x (by simp)), ih fun y hy => h y (by simp [hy])]
    rfl

def bitmapBlocks (d : Disk) (sb : SuperBlock) : List BitmapBlock :=
  (List.range' sb.bitmapStart (sb.dataStart - sb.bitmapStart)).map d.sectors

theorem read_bitmapBlocks (h : sb.dataStart ≤ d.sectorCount) :
    (List.range' sb.bitmapStart (sb.dataStart - sb.bitmapStart)).mapM (readData d) = .ok (bitmapBlocks d sb) := by
  refine mapM_readData _ fun x hx => ?_
  rw [List.mem_range'_1] at hx
  omega

theorem mount_eq {b : BitmapAllocator} (hstart : sb.dataStart ≤ d.sectorCount)
    (hb : loadBitmap sb (bitmapBlocks d sb) = .ok b) :
    mount d sb = (Directory.openAt d (Filename.fromStr [0x2F]) ⟨sb.dataEnd, 512⟩).map fun root =>
      { disk := d, superblock := sb, bitmap := b, root := root.children } := by
  unfold mount
  rw [read_bitmapBlocks hstart, ok_bind, hb, ok_bind]
  cases Directory.openAt d (Filename.fromStr [0x2F]) ⟨sb.dataEnd, 512⟩ with
  | error e => rfl
  | ok root => rfl

theorem mount_spec {d : Disk} {sb : SuperBlock} {chain : List ℕ} {es : List Slot}
    (hstart : sb.dataStart ≤ d.sectorCount) (hroot : DirChain d ⟨sb.dataEnd, 512⟩ chain es)
    (hread : Readable d es) (hlen : chain.length ≤ d.sectorCount) :
    ∃ s, mount d sb = .ok s ∧ s.disk = d ∧ s.superblock = sb ∧
      loadBitmap sb (bitmapBlocks d sb) = .ok s.bitmap ∧ s.root.map DirectoryEntry.slot = es ∧
      ∀ c ∈ s.root, Parsed d c := by
  obtain ⟨b, hb, -⟩ := loadBitmap_spec sb (bitmapBlocks d sb)
  obtain ⟨dir, hopen, -, -, hslots, hparsed⟩ := hroot.openAt rfl hread hlen (Filename.fromStr [0x2F])
  refine ⟨{ disk := d, superblock := sb, bitmap := b, root := dir.children }, ?_, rfl, rfl, hb, hslots, hparsed⟩
  rw [mount_eq hstart hb, hopen]
  rfl

/-- Mounting the disk of a mounted file system gives the same layout, and the root
directory as it is on disk. -/
theorem init_spec (hm : s.Mounted) {chain : List ℕ} {es : List Slot} (hroot : DirChain s.disk s.rootPtr chain es)
    (hread : Readable s.disk es) (hlen : chain.length ≤ s.disk.sectorCount) :
    ∃ s1, init s.disk = .ok s1 ∧ s1.disk = s.disk ∧ s1.rootPtr = s.rootPtr ∧
      s1.root.map DirectoryEntry.slot = es ∧ ∀ c ∈ s1.root, Parsed s.disk c := by
  obtain ⟨sb, backup, hget, hbs, hds, hde⟩ := hm.stored
  have hle := hm.dataStart_le
  have hlt := hm.dataEnd_lt
  have hptr : (⟨sb.dataEnd, 512⟩ : LinkPointer) = s.rootPtr := by rw [hde]; rfl
  obtain ⟨s1, hmount, hdisk, hsb, -, hslots, hparsed⟩ :=
    mount_spec (by omega : sb.dataStart ≤ s.disk.sectorCount) (hptr ▸ hroot) hread hlen
  refine ⟨s1, ?_, hdisk, by rw [← hptr, LemonFS.rootPtr, hsb], hslots, hparsed⟩
  unfold init
  rw [hget]
  exact hmount

theorem checkSb_sealSb (sb : SuperBlock) : checkSb (sealSb sb) = true := by
  simp [checkSb, sealSb]

theorem sealSb_fits (h : sb.Fits) : (sealSb sb).Fits where
  version := h.version
  checksum := UInt64.toNat_lt _
  bitmapStart := h.bitmapStart
  dataStart := h.dataStart
  dataEnd := h.dataEnd

theorem getSuperblock_sealed (hfits : sb.Fits) (hpos : 0 < d.sectorCount) (h : d.sectors 0 = (sealSb sb).encode) :
    getSuperblock d = .ok (sealSb sb, false) := by
  have hread : readData d 0 = .ok (sealSb sb).encode := Disk.At.read ⟨hpos, h⟩
  have hdecode := SuperBlock.decode_encode _ (sealSb_fits hfits)
  rw [getSuperblock, hread, ok_bind]
  simp only [hdecode]
  rw [if_pos (checkSb_sealSb sb)]
  rfl

/-- What formatting leaves on the disk `d`. -/
structure Formatted (d : Disk) (sb : SuperBlock) (d' : Disk) : Prop where
  large : 0x1000 ≤ d.sectorCount
  sectorCount : d'.sectorCount = d.sectorCount
  layout : SuperBlock.new d.sectorCount = some sb
  superblock : d'.sectors 0 = (sealSb sb).encode
  bitmap : ∀ x, sb.bitmapStart ≤ x → x < sb.dataStart → d'.sectors x = Sector.zero
  root : d'.sectors sb.dataEnd = Sector.zero
  data : ∀ x, sb.dataStart ≤ x → x < sb.dataEnd → d'.sectors x = d.sectors x

/-- On a partition whose bytes have 64-bit addresses nothing wraps. -/
theorem layout_new (hn : n * 512 < 2 ^ 64) (h : SuperBlock.new n = some sb) :
    0x1000 ≤ n ∧ sb.bitmapStart = 1 ∧ sb.dataStart = 1 + divCeil n 0x1000 ∧ sb.dataEnd = n - 2 ∧
      sb.dataStart < sb.dataEnd ∧ n ≤ divCeil n 0x1000 * 4096 ∧ divCeil n 0x1000 * 4096 < n + 4096 := by
  obtain ⟨hmin, hbs, hds, hde⟩ := superBlock_new h
  have hceil : n ≤ divCeil n 0x1000 * 4096 ∧ divCeil n 0x1000 * 4096 < n + 4096 := by
    unfold divCeil
    omega
  rw [wadd_of_lt (by omega)] at hds
  rw [wsub_of_le (by omega)] at hde
  exact ⟨hmin, hbs, hds, hde, by omega, hceil.1, hceil.2⟩

theorem fits_new_superblock (hn : n * 512 < 2 ^ 64) (h : SuperBlock.new n = some sb) :
    sb.Fits := by
  obtain ⟨-, hbs, hds, hde, -, -, hle⟩ := layout_new hn h
  refine ⟨?_, ?_, by omega, by omega, by omega⟩ <;>
  · unfold SuperBlock.new at h
    split_ifs at h
    cases h
    norm_num

theorem writeSb_spec {v : Volume} (sb : SuperBlock) (h : 1 < v.disk.sectorCount) :
    wp (writeSb sb) v (fun _ v' => v'.disk.sectorCount = v.disk.sectorCount ∧ v'.bitmap = v.bitmap ∧
        v'.disk.sectors 0 = (sealSb sb).encode ∧
        v'.disk.sectors (v.disk.sectorCount - 1) = (sealSb sb).encode ∧
        ∀ x, x ≠ 0 → x ≠ v.disk.sectorCount - 1 → v'.disk.sectors x = v.disk.sectors x)
      (fun _ _ => False) := by
  have hlast : wsub v.disk.sectorCount 1 = v.disk.sectorCount - 1 := by rw [wsub_of_le (by omega)]
  unfold writeSb
  refine wp_reads_seq ?_ rfl
  rw [hlast]
  refine wp_seq (writeData_spec _ (by omega)) (fun _ v1 h1 => ?_) (fun _ _ h => h)
  have hn1 := h1.sectorCount
  refine wp_mono (writeData_spec _ (by omega)) (fun _ v2 h2 => ?_) (fun _ _ h => h)
  refine ⟨h2.sectorCount.trans hn1, h2.bitmap.trans h1.bitmap, ?_, h2.stored 0 _ rfl, fun x h0 hx => ?_⟩
  · rw [h2.rest 0 (by simp; omega)]
    exact h1.stored 0 0 rfl
  · rw [h2.rest x (by simpa using hx), h1.rest x (by simpa using h0)]

theorem format_spec (v : Volume) :
    wp format v (fun sb v' => Formatted v.disk sb v'.disk)
      (fun e _ => e = .fs .noSpace ∧ v.disk.sectorCount < 0x1000) := by
  unfold format
  refine wp_reads_seq ?_ rfl
  cases hnew : SuperBlock.new v.disk.sectorCount with
  | none =>
    rw [wp_fail]
    unfold SuperBlock.new at hnew
    split_ifs at hnew with hsmall
    exact ⟨rfl, hsmall⟩
  | some sb =>
    obtain ⟨hmin, hbs, hds, hde, hlt, -, hle⟩ := layout_new v.disk.fits hnew
    refine wp_seq (writeSb_spec sb (by omega)) ?_ (fun _ _ h => h.elim)
    rintro _ v2 ⟨hn2, -, hsb, -, hfirst⟩
    refine wp_seq (zeroSectors_spec (by omega)) ?_ (fun _ _ h => h.elim)
    rintro _ v3 ⟨-, hn3, hs3⟩
    refine wp_seq (zeroSectors_spec (by omega)) ?_ (fun _ _ h => h.elim)
    rintro _ v4 ⟨-, hn4, hs4⟩
    rw [wp_pure]
    refine ⟨hmin, by omega, hnew, ?_, fun x hlo hhi => ?_, ?_, fun x hlo hhi => ?_⟩
    · rw [hs4, if_neg (by omega), hs3, if_neg (by omega), hsb]
    · rw [hs4, if_neg (by omega), hs3, if_pos (by omega)]
    · rw [hs4, if_pos (by omega)]
    · rw [hs4, if_neg (by omega), hs3, if_neg (by omega), hfirst x (by omega) (by omega)]

theorem slots_zero : Sector.slots Sector.zero = [] := by
  rw [Sector.slots, visible, List.filter_eq_nil_iff]
  intro e he
  obtain ⟨entry, hentry, rfl⟩ := List.mem_map.1 he
  obtain ⟨k, rfl⟩ := List.mem_ofFn.1 hentry
  have hbyte : ∀ i, Sector.zero.byte i = 0 := by
    intro i
    unfold Sector.byte Sector.zero
    split_ifs <;> rfl
  simp [DirEntry.slot, DirBlock.decode, DirEntry.decode, Filename.isEmpty, hbyte]

theorem dirChain_zero {d : Disk} {x : ℕ} (hx : x < d.sectorCount) (h : d.sectors x = Sector.zero) :
    DirChain d ⟨x, 512⟩ [x] [] := by
  have hread : d.At x Sector.zero := ⟨hx, h⟩
  have hnext : (DirBlock.decode Sector.zero).next.isDirect = false := by decide
  have hchain := @DirChain.block d ⟨x, 512⟩ _ _ _ rfl hread (.done hnext)
  rwa [slots_zero] at hchain

/-- A partition `d` has been formatted and then mounted, by `init` or at the end of it. -/
def Fresh (d : Disk) (s : LemonFS) : Prop :=
  ∃ b sb v, format ⟨d, b⟩ = (.ok sb, v) ∧ (init v.disk = .ok s ∨ mount v.disk sb = .ok s)

/-- A freshly formatted file system: the tree is empty, the whole data area is free and holds
what was there before. -/
structure Fresh.Facts (d : Disk) (s : LemonFS) : Prop where
  sectorCount : s.disk.sectorCount = d.sectorCount
  large : 0x1000 ≤ d.sectorCount
  dataStart : s.superblock.dataStart = 1 + divCeil d.sectorCount 0x1000
  dataEnd : s.superblock.dataEnd = d.sectorCount - 2
  stored : ∃ sb, SuperBlock.new d.sectorCount = some sb ∧ s.disk.sectors 0 = (sealSb sb).encode
  mounted : s.Mounted
  holds : s.Holds [s.superblock.dataEnd] [] []
  root : s.root = []
  free : ∀ x, s.toVolume.Free x ↔ s.superblock.dataStart ≤ x ∧ x < s.superblock.dataEnd
  bits : s.bitmap.dataStart = s.superblock.dataStart ∧
    s.bitmap.blocks.length = divCeil d.sectorCount 0x1000
  data : ∀ x, s.superblock.dataStart ≤ x → x < s.superblock.dataEnd → s.disk.sectors x = d.sectors x

namespace Formatted

variable {d d' : Disk} {sb : SuperBlock}

theorem getSuperblock (h : Formatted d sb d') : MaramOS.getSuperblock d' = .ok (sealSb sb, false) := by
  have hlarge := h.large
  have hcount := h.sectorCount
  exact getSuperblock_sealed (fits_new_superblock d.fits h.layout) (by omega) h.superblock

theorem storedBit_zero (h : Formatted d sb d') {j : ℕ} (hj : j < divCeil d.sectorCount 0x1000 * 4096) :
    storedBit (bitmapBlocks d' sb) j = false := by
  obtain ⟨-, hbs, hds, -, -, -, -⟩ := layout_new d.fits h.layout
  have hlt : j / 4096 < sb.dataStart - sb.bitmapStart := by omega
  have hget : (bitmapBlocks d' sb)[j / 4096]? = some Sector.zero := by
    rw [bitmapBlocks, List.getElem?_map, List.getElem?_range' hlt, Option.map_some, h.bitmap _ (by omega) (by omega)]
  rw [storedBit, hget]
  exact BitmapBlock.get_zero (Nat.mod_lt _ (by norm_num))

theorem mount (h : Formatted d sb d') {sb' : SuperBlock} (hbs' : sb'.bitmapStart = sb.bitmapStart)
    (hds' : sb'.dataStart = sb.dataStart) (hde' : sb'.dataEnd = sb.dataEnd) :
    ∃ s, MaramOS.mount d' sb' = .ok s ∧ Fresh.Facts d s := by
  obtain ⟨hmin, hbs, hds, hde, hlt, hcover, hle⟩ := layout_new d.fits h.layout
  have hcount := h.sectorCount
  have hdisk := d.fits
  have hzero := @storedBit_zero _ _ _ h
  have hfit := divCeil_le (show d.sectorCount ≤ 2 ^ 64 - 4096 by clear hds hcover hle; omega)
  generalize hk : divCeil d.sectorCount 0x1000 = k at *
  have hroot : DirChain d' ⟨sb'.dataEnd, 512⟩ [sb'.dataEnd] [] := by
    rw [hde']
    exact dirChain_zero (by omega) h.root
  obtain ⟨s, hmount, hd, hsb, hload, hslots, -⟩ := mount_spec (by omega : sb'.dataStart ≤ d'.sectorCount) hroot
    (by intro e he; cases he) (by simp; omega)
  have hblocks : bitmapBlocks d' sb' = bitmapBlocks d' sb := by rw [bitmapBlocks, bitmapBlocks, hbs', hds']
  have hlen : (bitmapBlocks d' sb').length = k := by
    rw [hblocks, bitmapBlocks, List.length_map, List.length_range']
    omega
  obtain ⟨b, hb, hstart, hlength, -, hbit⟩ := loadBitmap_spec sb' (bitmapBlocks d' sb')
  rw [hload] at hb
  obtain rfl := Except.ok.inj hb
  have hbit := hbit (by rwa [hlen]) (by omega) (by have := d'.fits; omega)
  have hfree : ∀ x, s.toVolume.Free x ↔ s.superblock.dataStart ≤ x ∧ x < s.superblock.dataEnd := by
    intro x
    rw [Free, hstart, hsb, hbit, Bool.or_eq_false_iff, decide_eq_false_iff_not]
    constructor
    · rintro ⟨hlo, hhi, -⟩
      exact ⟨hlo, by omega⟩
    · rintro ⟨hlo, hhi⟩
      exact ⟨hlo, by omega, by rw [hblocks]; exact hzero (by omega)⟩
  refine ⟨s, hmount, by rw [hd, hcount], hmin, by rw [hsb, hds', hds, hk], by rw [hsb, hde', hde],
    ⟨sb, h.layout, by rw [hd, h.superblock]⟩, ?_, ?_, ?_, hfree,
    ⟨by rw [hstart, hsb], by rw [hlength, hlen, hk]⟩, ?_⟩
  · refine ⟨by rw [hsb]; omega, by rw [hsb]; omega, by rw [hsb]; omega, by rw [hsb, hd]; omega, ?_,
      ⟨sealSb sb, false, ?_, ?_, ?_, ?_⟩⟩
    · exact ⟨by rw [hsb]; omega, by rw [hstart, hsb], by rw [hlength, hlen, hsb]; omega, fun x hx => ((hfree x).1 hx).2,
        by rw [hsb, hd]; omega⟩
    · rw [hd]
      exact h.getSuperblock
    · rw [hsb, hbs']
      rfl
    · rw [hsb, hds']
      rfl
    · rw [hsb, hde']
      rfl
  · refine ⟨?_, .nil, by simp, by simp, fun x hx => ?_⟩
    · rw [LemonFS.rootPtr, hd, hsb]
      exact hroot
    · rw [hfree]
      simp only [List.append_nil, List.mem_singleton] at hx
      omega
  · exact List.map_eq_nil_iff.1 hslots
  · intro x hlo hhi
    rw [hd]
    rw [hsb] at hlo hhi
    exact h.data x (by omega) (by omega)

end Formatted

theorem Fresh.facts (h : Fresh d s) : Fresh.Facts d s := by
  obtain ⟨b, sb, v, hformat, hmount⟩ := h
  have hf := wp_ok (format_spec ⟨d, b⟩) hformat
  obtain ⟨s1, hs1, h1⟩ := @Formatted.mount _ _ _ hf (sealSb sb) rfl rfl rfl
  obtain ⟨s2, hs2, h2⟩ := @Formatted.mount _ _ _ hf sb rfl rfl rfl
  rcases hmount with hinit | hmount
  · rw [init, hf.getSuperblock] at hinit
    simp only at hinit
    rw [hs1] at hinit
    exact Except.ok.inj hinit ▸ h1
  · rw [hs2] at hmount
    exact Except.ok.inj hmount ▸ h2

theorem exists_fresh (d : Disk) (h : 0x1000 ≤ d.sectorCount) : ∃ s, Fresh d s := by
  have hspec := format_spec ⟨d, BitmapAllocator.new 0⟩
  rcases hrun : format ⟨d, BitmapAllocator.new 0⟩ with ⟨_ | sb, v⟩
  · exact absurd (wp_error hspec hrun).2 (by simpa using h)
  · have hf := wp_ok hspec hrun
    obtain ⟨s, hs, -⟩ := @Formatted.mount _ _ _ hf sb rfl rfl rfl
    exact ⟨s, _, sb, v, hrun, Or.inr hs⟩

end MaramOS
