import MaramOS.Proofs.Gpt

/-! What `check_gpt_header` lets pass. The last usable block may be the block after the
last one, and an entry array whose end does not fit into a `u64` passes as well; apart
from that an accepted header describes a geometry inside the drive. -/

namespace MaramOS

section Geometry

variable {drive : StorageDrive} {header : PrimaryGPTHeader} {entryBlocks : PhysPage}

/-- The entry array, the usable blocks and the end of the drive follow one another. -/
structure Geometry (drive : StorageDrive) (header : PrimaryGPTHeader) : Prop where
  start : 2 ≤ header.entryStart
  array : arrayEnd drive header ≤ header.firstUsable
  ordered : header.firstUsable ≤ header.lastUsable
  inside : header.lastUsable < drive.blockCount

theorem partition_end_le {entry : PartitionEntry} (h : entry.startBlock ≤ entry.endBlock) :
    entry.partition.start + entry.partition.sizeBlocks ≤ entry.endBlock + 1 := by
  have hmod := Nat.mod_le (entry.endBlock - entry.startBlock + 1) (2 ^ 64)
  simp only [PartitionEntry.partition, wsub_of_le h, wadd]
  omega

theorem entryTurn_inside (hin : header.lastUsable < drive.blockCount) {s s' : ℕ × List Partition}
    (hs : ∀ p ∈ s.2, p.start + p.sizeBlocks ≤ drive.blockCount) (hturn : entryTurn header entryBlocks s = some s') :
    ∀ p ∈ s'.2, p.start + p.sizeBlocks ≤ drive.blockCount := by
  rcases entryTurn_some hturn with rfl | ⟨entry, -, -, horder, hlast, -, rfl⟩
  · exact hs
  · intro p hp
    rcases List.mem_append.1 hp with hp | hp
    · exact hs p hp
    · rw [List.mem_singleton.1 hp]
      have hend := partition_end_le horder
      omega

/-- The geometry of an accepted primary header is inside the drive, and so are all partitions accepted under it, if and
only if the end of its entry array fits into a `u64` and its last usable block is not the number of blocks. -/
theorem accepted_geometry_iff {data bytes : ℕ → UInt8}
    (h : checkGptHeader drive (.decode data) bytes false = true) :
    (Geometry drive (.decode data) ∧ ∀ entryBlocks fuel parts,
        entryLoop (.decode data) entryBlocks fuel (0, []) = some parts →
        ∀ p ∈ parts, p.start + p.sizeBlocks ≤ drive.blockCount) ↔
      arrayEnd drive (.decode data) < 2 ^ 64 ∧ (PrimaryGPTHeader.decode data).lastUsable ≠ drive.blockCount := by
  have hp := checkGptHeader_iff.1 h
  constructor
  · rintro ⟨hg, -⟩
    have hfirst : (PrimaryGPTHeader.decode data).firstUsable < 2 ^ 64 := leNumber_lt data 40 8
    exact ⟨Nat.lt_of_le_of_lt hg.array hfirst, hg.inside.ne⟩
  · rintro ⟨hend, hlast⟩
    have hin := Nat.lt_of_le_of_ne hp.usable hlast
    refine ⟨⟨hp.entryStart, hp.array hend, hp.ordered, hin⟩, fun entryBlocks fuel parts hrun => ?_⟩
    obtain ⟨_, hs, -, rfl⟩ := entryLoop_invariant
      (I := fun s => ∀ p ∈ s.2, p.start + p.sizeBlocks ≤ drive.blockCount) (fun _ _ => entryTurn_inside hin)
      (fun p hp => absurd hp List.not_mem_nil) hrun
    exact hs

/-- The header of the sample drive with other usable blocks and another place for its entries. -/
def headerWith (lastUsable entryStart : ℕ) : PrimaryGPTHeader :=
  ⟨GPT_SIG, 92, 0, 1, 99, 34, lastUsable, entryStart, 128, 128, 0⟩

theorem headerWith_encodable {lastUsable entryStart : ℕ} (hlast : lastUsable < 2 ^ 64) (hstart : entryStart < 2 ^ 64) :
    (headerWith lastUsable entryStart).Encodable :=
  ⟨rfl, by simp [headerWith], by simp [headerWith], by simp [headerWith], by simp [headerWith], hlast, hstart⟩

theorem headerWith_passed {lastUsable entryStart : ℕ} (hlast : 34 ≤ lastUsable ∧ lastUsable ≤ 100)
    (hstart : entryStart = 2 ∨ entryStart = 2 ^ 64 - 1) :
    checkGptHeader sampleDrive (.decode (headerWith lastUsable entryStart).summed.byte)
      (headerWith lastUsable entryStart).summed.byte false = true := by
  have hstart64 : entryStart < 2 ^ 64 := by omega
  rw [PrimaryGPTHeader.decode_byte (headerWith_encodable (by omega) hstart64).summed, checkGptHeader_iff]
  have hend : arrayEnd sampleDrive (headerWith lastUsable entryStart).summed = entryStart + 32 := by
    simp [arrayEnd, headerWith, PrimaryGPTHeader.summed, divCeil, sampleDrive]
  refine ⟨rfl, ⟨le_rfl, by simp [headerWith, PrimaryGPTHeader.summed, sampleDrive]⟩, rfl, PrimaryGPTHeader.crc_summed _,
    le_rfl, le_rfl, hlast.1, hlast.2, ?_, rfl, ?_⟩
  · change 2 ≤ entryStart
    omega
  · rw [hend]
    change _ → entryStart + 32 ≤ 34
    omega

theorem accepted_geometry_sample :
    checkGptHeader sampleDrive (.decode (headerWith 98 2).summed.byte) (headerWith 98 2).summed.byte false = true ∧
      Geometry sampleDrive (.decode (headerWith 98 2).summed.byte) := by
  have h := @headerWith_passed 98 2 (by decide) (.inl rfl)
  refine ⟨h, ((accepted_geometry_iff h).2 ?_).1⟩
  rw [PrimaryGPTHeader.decode_byte (headerWith_encodable (by decide) (by decide)).summed]
  exact ⟨by decide, by decide⟩

/-- A partition that ends behind the drive, and an entry array at the end of all addresses. -/
theorem accepted_outside_drive :
    (checkGptHeader sampleDrive (.decode (headerWith 100 2).summed.byte) (headerWith 100 2).summed.byte false = true ∧
      ¬(PrimaryGPTHeader.decode (headerWith 100 2).summed.byte).lastUsable < sampleDrive.blockCount ∧
      ∃ parts, entryLoop (.decode (headerWith 100 2).summed.byte) (sampleEntries (sampleArray [(40, 100)])) 2 (0, []) =
        some parts ∧ ∃ p ∈ parts, sampleDrive.blockCount < p.start + p.sizeBlocks) ∧
    checkGptHeader sampleDrive (.decode (headerWith 98 (2 ^ 64 - 1)).summed.byte)
        (headerWith 98 (2 ^ 64 - 1)).summed.byte false = true ∧
      ¬arrayEnd sampleDrive (.decode (headerWith 98 (2 ^ 64 - 1)).summed.byte) ≤
        (PrimaryGPTHeader.decode (headerWith 98 (2 ^ 64 - 1)).summed.byte).firstUsable := by
  refine ⟨⟨headerWith_passed (by decide) (.inl rfl), ?_⟩, headerWith_passed (by decide) (.inr rfl), ?_⟩
  · rw [PrimaryGPTHeader.decode_byte (headerWith_encodable (by decide) (by decide)).summed]
    have hloop : entryLoop (headerWith 100 2).summed (sampleEntries (sampleArray [(40, 100)])) 2 (0, []) =
        some [⟨40, 61, [], .unknown ⟨1, 0, 0, 0, 0⟩, Guid.zero⟩] := by decide +kernel
    exact ⟨by decide, _, hloop, _, List.mem_singleton.2 rfl, by decide⟩
  · rw [PrimaryGPTHeader.decode_byte (headerWith_encodable (by decide) (by decide)).summed]
    decide

end Geometry

end MaramOS
