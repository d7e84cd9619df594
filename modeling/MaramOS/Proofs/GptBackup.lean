import MaramOS.Proofs.GptScan

/-! The backup table. Its array lies behind the usable blocks, where no header may have its array
according to `check_gpt_header`, so no conformant backup is ever accepted. -/

namespace MaramOS

open Prog

section Backup

variable {drive : StorageDrive} {primary backup : PrimaryGPTHeader} {s t : DriveState} {parts : List Partition}

/-- A protective MBR, a primary table, and in the last block a backup header for the same entries, whose array lies
between the last usable block and the header. -/
structure GptPair (drive : StorageDrive) (blocks : ℕ → ℕ → UInt8) (primary backup : PrimaryGPTHeader) : Prop where
  available : ¬drive.Fails
  count_lt : drive.blockCount < 2 ^ 64
  mbr : leNumber (drive.smartPage 0 1 blocks).bytes 510 2 = 0xAA55
  table : Table drive blocks primary (tablePage drive primary blocks) false
  array : arrayEnd drive primary ≤ primary.firstUsable
  decoded : backup = .decode (blocks (drive.blockCount - 1))
  signature : backup.signature = GPT_SIG
  size : 92 ≤ backup.size ∧ backup.size ≤ drive.blockSize
  crc : (crc32 ((List.range backup.size).map fun i =>
    if 16 ≤ i ∧ i < 20 then 0 else blocks (drive.blockCount - 1) i)).toNat = backup.headerCrc
  currBlock : backup.currBlock = drive.blockCount - 1
  backupBlock : backup.backupBlock = 1
  usable : backup.firstUsable = primary.firstUsable ∧ backup.lastUsable = primary.lastUsable
  entries : backup.entryCount = primary.entryCount ∧ backup.entryByteCount = primary.entryByteCount ∧
    backup.entryArrayCrc = primary.entryArrayCrc
  behind : backup.lastUsable < backup.entryStart ∧ arrayEnd drive backup ≤ drive.blockCount - 1
  same : ∀ i < tableSize primary, blocks (backup.entryStart + i / drive.blockSize) (i % drive.blockSize) =
    blocks (primary.entryStart + i / drive.blockSize) (i % drive.blockSize)

/-- The blocks differ at most in the primary header and its array. -/
def Damaged (drive : StorageDrive) (primary : PrimaryGPTHeader) (blocks blocks' : ℕ → ℕ → UInt8) : Prop :=
  ∀ b, b ≠ 1 → (b < primary.entryStart ∨ arrayEnd drive primary ≤ b) → blocks' b = blocks b

section

variable (h : GptPair drive s.blocks primary backup) (hdamaged : Damaged drive primary s.blocks t.blocks)
include h hdamaged

theorem GptPair.last_block :
    t.blocks (headerBlock drive true) = s.blocks (drive.blockCount - 1) := by
  have hstart := h.table.passed.entryStart
  have hordered := h.table.passed.ordered
  have harray := h.array
  have hbehind := h.behind
  have husable := h.usable
  have hbackupEnd : backup.entryStart ≤ arrayEnd drive backup := Nat.le_add_right ..
  have hprimaryEnd : primary.entryStart ≤ arrayEnd drive primary := Nat.le_add_right ..
  have hlast : headerBlock drive true = drive.blockCount - 1 := by
    rw [headerBlock, if_pos rfl, wsub_of_le (by omega)]
  rw [hlast]
  exact hdamaged _ (by omega) (.inr (by omega))

theorem GptPair.rejected {header : PrimaryGPTHeader} (hheader : HeaderAt drive t.blocks header true) : False := by
  have hsame : header = backup := by rw [hheader.decoded, h.last_block hdamaged, h.decoded]
  have hcount := h.count_lt
  have hbehind := h.behind
  rw [hsame] at hheader
  have hbefore := hheader.array_before (by omega)
  omega

theorem GptPair.table_iff {header : PrimaryGPTHeader} {entryBlocks : PhysPage} :
    (∃ t', gptTable drive t = (.ok (header, entryBlocks), t')) ↔ Table drive t.blocks header entryBlocks false := by
  constructor
  · rintro ⟨t', hrun⟩
    obtain ⟨isBackup, htable, -⟩ := wp_ok (gptTable_wp drive t) hrun
    cases isBackup with
    | true => exact (h.rejected hdamaged htable.toHeaderAt).elim
    | false => exact htable
  · intro htable
    refine gptTable_of_intact ⟨h.available, ?_, header, entryBlocks, htable⟩ htable
    have hstart := h.table.passed.entryStart
    have hzero : t.blocks 0 = s.blocks 0 := hdamaged 0 (by omega) (.inl (by omega))
    have hpage : (drive.smartPage 0 1 t.blocks).bytes = (drive.smartPage 0 1 s.blocks).bytes := by
      funext i
      change (if i < 1 * drive.blockSize then t.blocks (0 + i / drive.blockSize) (i % drive.blockSize) else 0) =
        if i < 1 * drive.blockSize then s.blocks (0 + i / drive.blockSize) (i % drive.blockSize) else 0
      split_ifs with hi
      · rw [Nat.div_eq_of_lt (by omega), Nat.add_zero, hzero]
      · rfl
    rw [hpage]
    exact h.mbr

end

/-- A disk with a conformant pair of tables, of which the primary one may be damaged, gives partitions if and only if the
primary table is still accepted: the backup is of no use. -/
theorem backup_unused_iff (h : GptPair drive s.blocks primary backup) (hdamaged : Damaged drive primary s.blocks t.blocks) :
    (∃ fuel t', gptInit drive fuel t = (.ok parts, t')) ↔
      ∃ header entryBlocks, Table drive t.blocks header entryBlocks false ∧
        ∃ fuel, entryLoop header entryBlocks fuel (0, []) = some parts := by
  constructor
  · rintro ⟨fuel, t', hrun⟩
    have hinit := hrun
    rw [gptInit] at hinit
    obtain ⟨⟨header, entryBlocks⟩, t₁, htable, -⟩ := run_bind_ok hinit
    exact ⟨header, entryBlocks, (h.table_iff hdamaged).1 ⟨t₁, htable⟩, fuel, (gptInit_ok_iff htable).1 ⟨t', hrun⟩⟩
  · rintro ⟨header, entryBlocks, htable, fuel, hloop⟩
    obtain ⟨t₁, hrun⟩ := (h.table_iff hdamaged).2 htable
    exact ⟨fuel, (gptInit_ok_iff hrun).2 hloop⟩

theorem pair_conformant : GptPair sampleDrive (sampleState pairArray).blocks
    (sampleHeader.sealed pairArray) (sampleBackup.sealed pairArray) := by
  have hlast : (sampleState pairArray).blocks (sampleDrive.blockCount - 1) =
      (sampleBackup.sealed pairArray).byte := rfl
  have hintact := intact_of_table (fun _ => rfl) (by decide) ⟨rfl, rfl⟩ (sample_intact pairArray)
  refine ⟨hintact.1, by decide, hintact.2.1, sample_entriesPage pairArray ▸ sample_intact pairArray, by decide, ?_, rfl,
    by decide, ?_, rfl, rfl, ⟨rfl, rfl⟩, ⟨rfl, rfl, rfl⟩, by decide, fun i hi => ?_⟩
  · rw [hlast, PrimaryGPTHeader.decode_byte (PrimaryGPTHeader.Encodable.sealed ⟨rfl, by decide, by decide⟩)]
  · rw [hlast]
    exact PrimaryGPTHeader.crc_summed _
  · exact (sampleDisk_array pairArray _ hi (.inr rfl)).trans (sampleDisk_array pairArray _ hi (.inl rfl)).symm

theorem pair_damaged (first : ℕ → UInt8) : Damaged sampleDrive (sampleHeader.sealed pairArray)
    (sampleState pairArray).blocks (sampleDisk pairArray first).blocks := by
  intro b hb _
  funext i
  simp only [sampleState, sampleDisk, if_neg hb]

theorem backup_unused_pair :
    GptPair sampleDrive (sampleState pairArray).blocks (sampleHeader.sealed pairArray)
        (sampleBackup.sealed pairArray) ∧
      ∃ fuel t', gptInit sampleDrive fuel (sampleState pairArray) = (.ok samplePartitions, t') :=
  ⟨pair_conformant, (backup_unused_iff pair_conformant (pair_damaged _)).2 ⟨_, _, (sample_intact pairArray), 3, sample_loop⟩⟩

/-- With the primary header wiped out no partition is found. -/
theorem wiped_header_not_recovered :
    GptPair sampleDrive (sampleState pairArray).blocks (sampleHeader.sealed pairArray)
        (sampleBackup.sealed pairArray) ∧
      Damaged sampleDrive (sampleHeader.sealed pairArray) (sampleState pairArray).blocks
        (sampleDisk pairArray fun _ => 0).blocks ∧
      (∃ t', gptInit sampleDrive 3 (sampleState pairArray) = (.ok samplePartitions, t')) ∧
      ∀ fuel parts t', gptInit sampleDrive fuel (sampleDisk pairArray fun _ => 0) ≠ (.ok parts, t') := by
  obtain ⟨_, hrun⟩ := (pair_conformant.table_iff (pair_damaged _)).2 (sample_intact pairArray)
  refine ⟨pair_conformant, pair_damaged _, (gptInit_ok_iff hrun).2 sample_loop, fun fuel parts t' hinit => ?_⟩
  rw [gptInit] at hinit
  obtain ⟨⟨header, entryBlocks⟩, t₁, htable, -⟩ := run_bind_ok hinit
  have htable := (pair_conformant.table_iff (pair_damaged _)).1 ⟨t₁, htable⟩
  have hsignature := htable.passed.signature
  rw [htable.decoded] at hsignature
  exact absurd hsignature (by decide)

end Backup

end MaramOS
