import MaramOS.Proofs.Storage
import MaramOS.Sanity.Codec
import MaramOS.Spec.Gpt

/-! The header and the entries that `gpt::init` works with. They are those of the first
header that passes `check_gpt_header` and whose array has the right checksum. -/

namespace MaramOS

open Prog

section Check

variable {drive : StorageDrive} {header : PrimaryGPTHeader} {bytes : ℕ → UInt8} {isBackup : Bool}
  {data data' : ℕ → UInt8}

def arrayEnd (drive : StorageDrive) (header : PrimaryGPTHeader) : ℕ :=
  header.entryStart + divCeil (header.entryCount * header.entryByteCount) drive.blockSize

/-- All that a header has been checked for. -/
structure Passed (drive : StorageDrive) (header : PrimaryGPTHeader) (bytes : ℕ → UInt8) (isBackup : Bool) : Prop where
  signature : header.signature = GPT_SIG
  size : 92 ≤ header.size ∧ header.size ≤ drive.blockSize
  currBlock : header.currBlock = if isBackup then wsub drive.blockCount 1 else 1
  crc : (crc32 ((List.range header.size).map fun i => if 16 ≤ i ∧ i < 20 then 0 else bytes i)).toNat = header.headerCrc
  entryCount : 128 ≤ header.entryCount
  entryByteCount : 128 ≤ header.entryByteCount
  ordered : header.firstUsable ≤ header.lastUsable
  usable : header.lastUsable ≤ drive.blockCount
  entryStart : 2 ≤ header.entryStart
  backupBlock : header.backupBlock = if isBackup then 1 else wsub drive.blockCount 1
  array : arrayEnd drive header < 2 ^ 64 → arrayEnd drive header ≤ header.firstUsable

theorem checkGptHeader_iff : checkGptHeader drive header bytes isBackup = true ↔ Passed drive header bytes isBackup := by
  simp only [checkGptHeader, Bool.if_false_left, Bool.and_eq_true, Bool.not_eq_true', decide_eq_false_iff_not]
  constructor
  · rintro ⟨hsig, hcurr, hcrc, hcount, hbyte, hbounds, hbackup, harray, -⟩
    push Not at hsig hcurr hcrc hbounds hbackup harray
    exact ⟨hsig.1, hsig.2, hcurr, hcrc, Nat.le_of_not_lt hcount, Nat.le_of_not_lt hbyte, hbounds.1, hbounds.2.1,
      hbounds.2.2, hbackup, harray⟩
  · intro h
    push Not
    exact ⟨⟨h.signature, h.size⟩, h.currBlock, h.crc, h.entryCount, h.entryByteCount,
      ⟨h.ordered, h.usable, h.entryStart⟩, h.backupBlock, h.array, trivial⟩

/-- What the entry loop needs of a header. -/
structure Checked (drive : StorageDrive) (header : PrimaryGPTHeader) : Prop where
  entry : 128 ≤ header.entryByteCount
  entry_lt : header.entryByteCount < 2 ^ 32
  usable : header.lastUsable ≤ drive.blockCount

theorem leNumber_congr {off k : ℕ} (h : ∀ i < k, data (off + i) = data' (off + i)) :
    leNumber data off k = leNumber data' off k := by
  induction k with
  | zero => rfl
  | succ k ih => rw [leNumber, leNumber, ih fun i hi => h i (by omega), h k (by omega)]

theorem PrimaryGPTHeader.decode_congr (h : ∀ i < 92, data i = data' i) :
    decode data = decode data' := by
  have hnumber : ∀ off k, off + k ≤ 92 → leNumber data off k = leNumber data' off k := fun off k hk =>
    leNumber_congr fun i hi => h _ (by omega)
  simp only [decode, PrimaryGPTHeader.mk.injEq]
  refine ⟨List.map_congr_left fun i hi => h i ?_, hnumber 12 4 (by omega), hnumber 16 4 (by omega),
    hnumber 24 8 (by omega), hnumber 32 8 (by omega), hnumber 40 8 (by omega), hnumber 48 8 (by omega),
    hnumber 72 8 (by omega), hnumber 80 4 (by omega), hnumber 84 4 (by omega), hnumber 88 4 (by omega)⟩
  have := List.mem_range.1 hi
  omega

theorem Passed.congr {bytes' : ℕ → UInt8} (h : Passed drive header bytes isBackup)
    (hbytes : ∀ i < drive.blockSize, bytes i = bytes' i) : Passed drive header bytes' isBackup := by
  refine { h with crc := ?_ }
  rw [← h.crc]
  congr 2
  refine List.map_congr_left fun i hi => ?_
  have hi := List.mem_range.1 hi
  rw [hbytes i (hi.trans_le h.size.2)]

theorem checkGptHeader_block {page block : ℕ → UInt8} (hbytes : ∀ i < drive.blockSize, page i = block i) :
    checkGptHeader drive (.decode page) page isBackup = true ↔
      PrimaryGPTHeader.decode page = .decode block ∧ Passed drive (.decode block) block isBackup := by
  rw [checkGptHeader_iff]
  constructor
  · intro h
    have hsize := h.size.1.trans h.size.2
    have hdecode : PrimaryGPTHeader.decode page = .decode block :=
      PrimaryGPTHeader.decode_congr fun i hi => hbytes i (hi.trans_le hsize)
    exact ⟨hdecode, hdecode ▸ h.congr hbytes⟩
  · rintro ⟨hdecode, h⟩
    rw [hdecode]
    exact h.congr fun i hi => (hbytes i hi).symm

end Check

section Table

variable {drive : StorageDrive} {header : PrimaryGPTHeader} {entryBlocks : PhysPage} {isBackup : Bool} {s : DriveState}
  {blocks : ℕ → ℕ → UInt8} {page : PhysPage}

/-- The bytes of the entry array that are read and summed. -/
def tableSize (header : PrimaryGPTHeader) : ℕ := min (header.entryCount * header.entryByteCount) (1024 * 1024 * 16)

def tablePage (drive : StorageDrive) (header : PrimaryGPTHeader) (blocks : ℕ → ℕ → UInt8) : PhysPage :=
  drive.smartPage header.entryStart (divCeil (tableSize header) drive.blockSize) blocks

def headerBlock (drive : StorageDrive) (isBackup : Bool) : ℕ := if isBackup then wsub drive.blockCount 1 else 1

/-- The header at one of the two places has passed. -/
structure HeaderAt (drive : StorageDrive) (blocks : ℕ → ℕ → UInt8) (header : PrimaryGPTHeader) (isBackup : Bool) :
    Prop where
  decoded : header = .decode (blocks (headerBlock drive isBackup))
  passed : Passed drive header (blocks (headerBlock drive isBackup)) isBackup

/-- The header has passed and its entries have their checksum. -/
structure Table (drive : StorageDrive) (blocks : ℕ → ℕ → UInt8) (header : PrimaryGPTHeader) (entryBlocks : PhysPage)
    (isBackup : Bool) : Prop extends HeaderAt drive blocks header isBackup where
  entries : entryBlocks = tablePage drive header blocks
  crc : (crc32 ((List.range (tableSize header)).map entryBlocks.bytes)).toNat = header.entryArrayCrc

/-- A drive that answers all requests, with a protective MBR and a primary table. -/
def Intact (drive : StorageDrive) (blocks : ℕ → ℕ → UInt8) : Prop :=
  ¬drive.Fails ∧ leNumber (drive.smartPage 0 1 blocks).bytes 510 2 = 0xAA55 ∧
    ∃ header entryBlocks, Table drive blocks header entryBlocks false

theorem HeaderAt.size_ne_zero (h : HeaderAt drive blocks header isBackup) :
    drive.blockSize ≠ 0 := by
  have := h.passed.size
  omega

theorem HeaderAt.checked (h : HeaderAt drive blocks header isBackup) : Checked drive header := by
  obtain ⟨hdecoded, hpassed⟩ := h
  refine ⟨hpassed.entryByteCount, ?_, hpassed.usable⟩
  rw [hdecoded]
  exact leNumber_lt _ 84 4

/-- No header passes whose array lies behind the usable blocks. -/
theorem HeaderAt.array_before (h : HeaderAt drive blocks header isBackup) (hend : arrayEnd drive header < 2 ^ 64) :
    header.entryStart ≤ header.lastUsable := by
  have hstart : header.entryStart ≤ arrayEnd drive header := Nat.le_add_right ..
  have harray := h.passed.array hend
  have hordered := h.passed.ordered
  omega

theorem divCeil_le_self {a b : ℕ} (hb : 0 < b) : divCeil a b ≤ a := by
  rw [divCeil, Nat.div_le_iff_le_mul_add_pred hb]
  have := Nat.le_mul_of_pos_left a hb
  omega

theorem Table.count_le (h : Table drive blocks header entryBlocks isBackup) :
    entryBlocks.count ≤ 2 ^ 24 := by
  have hsize := h.size_ne_zero
  have hpage : 0 < divCeil PAGE_SIZE drive.blockSize := Nat.div_pos (by rw [PAGE_SIZE]; omega) (by omega)
  rw [h.entries]
  calc (tablePage drive header blocks).count
      = divCeil (divCeil (tableSize header) drive.blockSize) (divCeil PAGE_SIZE drive.blockSize) := rfl
    _ ≤ divCeil (tableSize header) drive.blockSize := divCeil_le_self hpage
    _ ≤ tableSize header := divCeil_le_self (by omega)
    _ ≤ 2 ^ 24 := min_le_right _ _

theorem orIoError_wp {α : Type} {P : Prop} {x : DriveProg α} {Q : α → DriveState → Prop} (h : wp x s Q fun _ _ => P) :
    wp (orIoError x) s Q fun _ _ => P :=
  wp_mapError.2 h

theorem orIoError_readSmart (drive : StorageDrive) (start count : ℕ) (s : DriveState) :
    wp (orIoError (drive.readSmart start count)) s
      (fun page s' => (drive.blockSize ≠ 0 ∧ page = drive.smartPage start count s.blocks) ∧ s'.blocks = s.blocks)
      fun _ _ => drive.blockSize = 0 ∨ drive.Fails :=
  orIoError_wp (wp_mono (drive.readSmart_wp start count s) (fun _ _ h => ⟨⟨h.1, h.2.1⟩, h.2.2.blocks⟩) fun _ _ h => h.1)

theorem smartPage_count (hsize : drive.blockSize ≠ 0) (start : ℕ) (blocks : ℕ → ℕ → UInt8) :
    (drive.smartPage start 1 blocks).count = 1 := by
  have hpage : 0 < divCeil PAGE_SIZE drive.blockSize := Nat.div_pos (by rw [PAGE_SIZE]; omega) (by omega)
  change divCeil 1 (divCeil PAGE_SIZE drive.blockSize) = 1
  rw [divCeil, Nat.div_eq_iff hpage]
  omega

theorem smartPage_block (start : ℕ) (blocks : ℕ → ℕ → UInt8) {i : ℕ} (hi : i < drive.blockSize) :
    (drive.smartPage start 1 blocks).bytes i = blocks start i := by
  change (if i < 1 * drive.blockSize then blocks (start + i / drive.blockSize) (i % drive.blockSize) else _) = _
  rw [if_pos (by omega), Nat.div_eq_of_lt hi, Nat.mod_eq_of_lt hi, Nat.add_zero]

theorem readData_one (hcount : page.count = 1) {size : ℕ} (hsize : size ≤ 4096) :
    page.readData 0 size = some page.bytes := by
  have hholds : page.holds 0 size = true := by
    rw [PhysPage.holds, hcount, decide_eq_true_iff, wadd, wmul, PAGE_SIZE]
    omega
  rw [PhysPage.readData, if_pos hholds]
  simp only [Nat.zero_add]

theorem readHeader_one (hcount : page.count = 1) : readHeader page = pure (.decode page.bytes) := by
  rw [readHeader, readData_one hcount (by norm_num)]

theorem acceptedHeader_wp (drive : StorageDrive) (s : DriveState) :
    wp (acceptedHeader drive) s
      (fun r s' => (HeaderAt drive s.blocks r.1 r.2 ∧ (r.2 = true → ¬∃ header, HeaderAt drive s.blocks header false)) ∧
        s'.blocks = s.blocks)
      fun _ _ => drive.Fails ∨ ¬∃ header, HeaderAt drive s.blocks header false := by
  have hzero : drive.blockSize = 0 ∨ drive.Fails → drive.Fails ∨ ¬∃ header, HeaderAt drive s.blocks header false := by
    rintro (hzero | hfails)
    · exact .inr fun ⟨_, h⟩ => h.size_ne_zero hzero
    · exact .inl hfails
  rw [acceptedHeader]
  refine wp_seq (orIoError_readSmart ..) (fun page s1 hread => ?_) fun _ _ h => hzero h
  obtain ⟨⟨hsize, rfl⟩, hblocks⟩ := hread
  have hcount := @smartPage_count drive hsize 1 s.blocks
  simp only [readHeader_one hcount, pure_bind]
  have hiff := @checkGptHeader_block drive false _ (s.blocks 1) fun i hi => smartPage_block 1 s.blocks hi
  by_cases hcheck : checkGptHeader drive (.decode (drive.smartPage 1 1 s.blocks).bytes)
      (drive.smartPage 1 1 s.blocks).bytes false = true
  · rw [if_pos hcheck]
    obtain ⟨hdecode, hpassed⟩ := hiff.1 hcheck
    exact wp_pure.2 ⟨⟨⟨hdecode, hdecode ▸ hpassed⟩, fun h => absurd h Bool.false_ne_true⟩, hblocks⟩
  rw [if_neg hcheck]
  have hnone : ¬∃ header, HeaderAt drive s.blocks header false := by
    rintro ⟨header, h⟩
    refine hcheck (hiff.2 ⟨PrimaryGPTHeader.decode_congr fun i hi => smartPage_block 1 s.blocks ?_, h.decoded ▸ h.passed⟩)
    exact hi.trans_le (h.passed.size.1.trans h.passed.size.2)
  refine wp_seq (orIoError_wp (wp_mono (drive.readBlocks_wp ..) (fun _ _ h => h) fun _ _ h => h.1))
    (fun page s2 hread => ?_) fun _ _ h => .inl h
  obtain ⟨rfl, rfl⟩ := hread
  have hbytes : ∀ i < drive.blockSize, drive.loaded (wsub drive.blockCount 1) 1 (drive.smartPage 1 1 s.blocks) s1.blocks i =
      s.blocks (wsub drive.blockCount 1) i := fun i hi => by
    rw [StorageDrive.loaded, if_pos (by omega), Nat.div_eq_of_lt hi, Nat.mod_eq_of_lt hi, hblocks, Nat.add_zero]
  have hiff' := @checkGptHeader_block drive true _ (s.blocks (wsub drive.blockCount 1)) hbytes
  have hone : PhysPage.count ⟨(drive.smartPage 1 1 s.blocks).count, drive.loaded (wsub drive.blockCount 1) 1
      (drive.smartPage 1 1 s.blocks) s1.blocks⟩ = 1 := hcount
  simp only [readHeader_one hone, pure_bind]
  split_ifs with hcheck'
  · obtain ⟨hdecode, hpassed⟩ := hiff'.1 hcheck'
    exact wp_pure.2 ⟨⟨⟨hdecode, hdecode ▸ hpassed⟩, fun _ => hnone⟩, hblocks⟩
  · exact wp_fail.2 (.inr hnone)

theorem readEntries_wp (drive : StorageDrive) (header : PrimaryGPTHeader) (s : DriveState) :
    wp (readEntries drive header) s
      (fun r s' => (r.1 = tablePage drive header s.blocks ∧
        (r.2 = true ↔ (crc32 ((List.range (tableSize header)).map r.1.bytes)).toNat = header.entryArrayCrc)) ∧
        s'.blocks = s.blocks)
      fun _ _ => drive.blockSize = 0 ∨ drive.Fails := by
  rw [readEntries]
  refine wp_seq (orIoError_readSmart ..) (fun page s' hread => wp_pure.2 ?_) fun _ _ h => h
  exact ⟨⟨hread.1.2, decide_eq_true_iff⟩, hread.2⟩

theorem backupHeader_wp (h : HeaderAt drive s.blocks header isBackup) :
    wp (backupHeader drive header isBackup) s
      (fun backup s' => HeaderAt drive s.blocks backup true ∧ s'.blocks = s.blocks) fun _ _ => True := by
  rw [backupHeader]
  refine wp_seq (orIoError_readSmart ..) (fun page s' hread => ?_) fun _ _ _ => trivial
  obtain ⟨⟨hsize, rfl⟩, hblocks⟩ := hread
  cases isBackup with
  | true => exact wp_pure.2 ⟨h, hblocks⟩
  | false =>
    have hblock : header.backupBlock = wsub drive.blockCount 1 := h.passed.backupBlock
    have hcount := @smartPage_count drive hsize header.backupBlock s.blocks
    simp only [readHeader_one hcount, pure_bind, Bool.false_eq_true, if_false]
    split_ifs with hcheck
    · obtain ⟨hdecode, hpassed⟩ := (checkGptHeader_block fun i hi => smartPage_block header.backupBlock s.blocks hi).1 hcheck
      rw [hdecode, hblock] at *
      exact wp_pure.2 ⟨⟨rfl, hpassed⟩, hblocks⟩
    · exact wp_fail.2 trivial

theorem gptTable_wp (drive : StorageDrive) (s : DriveState) :
    wp (gptTable drive) s
      (fun r _ => ∃ isBackup, Table drive s.blocks r.1 r.2 isBackup ∧ (isBackup = true → ¬Intact drive s.blocks))
      fun _ _ => ¬Intact drive s.blocks := by
  have hzero : drive.blockSize = 0 ∨ drive.Fails → ¬Intact drive s.blocks := by
    rintro (hzero | hfails) ⟨hok, -, _, _, h⟩
    · exact h.size_ne_zero hzero
    · exact hok hfails
  rw [gptTable]
  refine wp_seq (orIoError_readSmart ..) (fun page s1 hread => ?_) fun _ _ h => hzero h
  obtain ⟨⟨hsize, rfl⟩, hblocks1⟩ := hread
  have hdata : (drive.smartPage 0 1 s.blocks).readData 0 512 = some (drive.smartPage 0 1 s.blocks).bytes :=
    readData_one (smartPage_count hsize 0 s.blocks) (by norm_num)
  simp only [hdata]
  split_ifs with hmbr
  · exact wp_fail.2 fun h => hmbr h.2.1
  refine wp_seq (acceptedHeader_wp ..) (fun first s2 hfirst => ?_) ?_
  · rw [hblocks1] at hfirst
    obtain ⟨⟨hheader, hnone⟩, hblocks2⟩ := hfirst
    refine wp_seq (readEntries_wp ..) (fun entries s3 hread => ?_) fun _ _ h => hzero h
    rw [hblocks2] at hread
    obtain ⟨⟨hentries, hcrc⟩, hblocks3⟩ := hread
    by_cases hsum : entries.2 = true
    · rw [if_pos hsum]
      refine wp_pure.2 ⟨first.2, ⟨hheader, hentries, hcrc.1 hsum⟩, fun hbackup h => ?_⟩
      obtain ⟨-, -, header, _, htable⟩ := h
      exact hnone hbackup ⟨header, htable.toHeaderAt⟩
    rw [if_neg hsum]
    have hdamaged : ¬Intact drive s.blocks := by
      rintro ⟨-, -, header, entryBlocks, htable⟩
      cases hbackup : first.2 with
      | true => exact hnone hbackup ⟨header, htable.toHeaderAt⟩
      | false =>
        rw [hbackup] at hheader
        have hsame : first.1 = header := hheader.decoded.trans htable.decoded.symm
        refine hsum (hcrc.2 ?_)
        rw [hsame, hentries, hsame, ← htable.entries]
        exact htable.crc
    rw [← hblocks3] at hheader
    refine wp_seq (backupHeader_wp hheader) (fun backup s4 hbackup => ?_) fun _ _ _ => hdamaged
    obtain ⟨hbackup, hblocks4⟩ := hbackup
    refine wp_seq (readEntries_wp ..) (fun entries' s5 hread => ?_) fun _ _ _ => hdamaged
    rw [hblocks4, hblocks3] at hread
    rw [hblocks3] at hbackup
    split_ifs with hsum'
    · exact wp_pure.2 ⟨true, ⟨hbackup, hread.1.1, hread.1.2.1 hsum'⟩, fun _ => hdamaged⟩
    · exact wp_fail.2 hdamaged
  · rintro _ _ (hfails | hnone) ⟨hok, -, header, _, htable⟩
    · exact hok hfails
    · rw [hblocks1] at hnone
      exact hnone ⟨header, htable.toHeaderAt⟩

theorem gptTable_of_intact (h : Intact drive s.blocks) (htable : Table drive s.blocks header entryBlocks false) :
    ∃ s', gptTable drive s = (.ok (header, entryBlocks), s') := by
  have hwp := wp_mono (gptTable_wp drive s) (fun _ _ h => h) fun _ _ hnot => hnot h
  obtain ⟨r, s', hrun, isBackup, htable', hbackup⟩ := wp_total hwp
  cases isBackup with
  | true => exact absurd h (hbackup rfl)
  | false =>
    have hheader : r.1 = header := htable'.decoded.trans htable.decoded.symm
    have hentries : r.2 = entryBlocks := by rw [htable'.entries, htable.entries, hheader]
    exact ⟨s', by rw [hrun, ← hheader, ← hentries]⟩

end Table

/-! The bytes of a header, and its checksum. -/

namespace PrimaryGPTHeader

variable (h : PrimaryGPTHeader)

def byte (i : ℕ) : UInt8 :=
  if i < 8 then GPT_SIG.getD i 0
  else if 12 ≤ i ∧ i < 16 then leByte h.size (i - 12)
  else if 16 ≤ i ∧ i < 20 then leByte h.headerCrc (i - 16)
  else if 24 ≤ i ∧ i < 32 then leByte h.currBlock (i - 24)
  else if 32 ≤ i ∧ i < 40 then leByte h.backupBlock (i - 32)
  else if 40 ≤ i ∧ i < 48 then leByte h.firstUsable (i - 40)
  else if 48 ≤ i ∧ i < 56 then leByte h.lastUsable (i - 48)
  else if 72 ≤ i ∧ i < 80 then leByte h.entryStart (i - 72)
  else if 80 ≤ i ∧ i < 84 then leByte h.entryCount (i - 80)
  else if 84 ≤ i ∧ i < 88 then leByte h.entryByteCount (i - 84)
  else if 88 ≤ i ∧ i < 92 then leByte h.entryArrayCrc (i - 88)
  else 0

structure Encodable : Prop where
  signature : h.signature = GPT_SIG
  half : h.size < 2 ^ 32 ∧ h.headerCrc < 2 ^ 32 ∧ h.entryCount < 2 ^ 32 ∧ h.entryByteCount < 2 ^ 32 ∧
    h.entryArrayCrc < 2 ^ 32
  full : h.currBlock < 2 ^ 64 ∧ h.backupBlock < 2 ^ 64 ∧ h.firstUsable < 2 ^ 64 ∧ h.lastUsable < 2 ^ 64 ∧
    h.entryStart < 2 ^ 64

variable {h}

theorem decode_byte (he : h.Encodable) : decode h.byte = h := by
  have hfield : ∀ off k x, x < 256 ^ k → (∀ i < k, h.byte (off + i) = leByte x i) → leNumber h.byte off k = x := by
    intro off k x hx hbytes
    rw [leNumber_of_bytes _ off x k hbytes, Nat.mod_eq_of_lt hx]
  obtain ⟨hsig, ⟨hsize, hcrc, hcount, hbyte, harray⟩, hcurr, hbackup, hfirst, hlast, hstart⟩ := he
  obtain ⟨signature, size, headerCrc, currBlock, backupBlock, firstUsable, lastUsable, entryStart, entryCount,
    entryByteCount,
    entryArrayCrc⟩ := h
  simp only at hsig
  subst hsig
  simp only [decode, PrimaryGPTHeader.mk.injEq]
  refine ⟨rfl, hfield 12 4 _ hsize ?_, hfield 16 4 _ hcrc ?_, hfield 24 8 _ hcurr ?_, hfield 32 8 _ hbackup ?_,
    hfield 40 8 _ hfirst ?_, hfield 48 8 _ hlast ?_, hfield 72 8 _ hstart ?_, hfield 80 4 _ hcount ?_,
    hfield 84 4 _ hbyte ?_, hfield 88 4 _ harray ?_⟩
  all_goals
    intro i hi
    interval_cases i <;> rfl

theorem byte_zeroed (i : ℕ) : (if 16 ≤ i ∧ i < 20 then 0 else h.byte i) = { h with headerCrc := 0 }.byte i := by
  have hzero : ∀ j, leByte 0 j = 0 := fun j => by rw [leByte, Nat.zero_div]; rfl
  by_cases hi : 16 ≤ i ∧ i < 20
  · rw [if_pos hi, byte, if_neg (by omega), if_neg (by omega), if_pos hi, hzero]
  · rw [if_neg hi]
    simp only [byte, if_neg hi]

/-- The checksum that belongs into the header. Irreducible, since it is never computed. -/
@[irreducible] def checksum (h : PrimaryGPTHeader) : ℕ :=
  (crc32 ((List.range h.size).map { h with headerCrc := 0 }.byte)).toNat

theorem checksum_lt (h : PrimaryGPTHeader) : h.checksum < 2 ^ 32 := by
  rw [checksum]
  exact UInt32.toNat_lt _

def summed (h : PrimaryGPTHeader) : PrimaryGPTHeader := { h with headerCrc := h.checksum }

theorem Encodable.summed (he : h.Encodable) : h.summed.Encodable :=
  ⟨he.signature, ⟨he.half.1, h.checksum_lt, he.half.2.2⟩, he.full⟩

theorem crc_summed (h : PrimaryGPTHeader) :
    (crc32 ((List.range h.summed.size).map fun i => if 16 ≤ i ∧ i < 20 then 0 else h.summed.byte i)).toNat =
      h.summed.headerCrc := by
  simp only [byte_zeroed]
  change _ = h.checksum
  rw [checksum]
  rfl

end PrimaryGPTHeader

end MaramOS
