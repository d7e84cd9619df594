import MaramOS.Proofs.Gpt

/-! Which partitions `gpt::init` returns: those of the entries in front of the first unused
one, as the pages show them. The pages end later than the array, and the array may go on
after an unused entry. -/

namespace MaramOS

open Prog
open PartitionEntry (partition)

section Slots

variable {drive : StorageDrive} {header : PrimaryGPTHeader} {entryBlocks : PhysPage} {k m : ℕ} {res parts : List Partition}
  {entry : PartitionEntry} {s s₁ s' : DriveState}

theorem slotPartitions_length (h : ∀ j < m, Used header entryBlocks j) :
    (slotPartitions header entryBlocks m).length = m := by
  induction m with
  | zero => rfl
  | succ m ih =>
    obtain ⟨entry, hentry, -⟩ := h m m.lt_succ_self
    rw [slotPartitions_succ hentry, List.length_append, ih fun j hj => h j (by omega)]
    rfl

theorem slotPartitions_getElem? (h : ∀ j < m, Used header entryBlocks j) (hk : k < m) :
    (slotPartitions header entryBlocks m)[k]? = (slot header entryBlocks k).map partition := by
  induction m with
  | zero => exact absurd hk (Nat.not_lt_zero k)
  | succ m ih =>
    have hused : ∀ j < m, Used header entryBlocks j := fun j hj => h j (by omega)
    have hlength := slotPartitions_length hused
    obtain ⟨entry, hentry, -⟩ := h m m.lt_succ_self
    rw [slotPartitions_succ hentry]
    rcases Nat.lt_succ_iff_lt_or_eq.1 hk with hk | rfl
    · rw [List.getElem?_append_left (by omega), ih hused hk]
    · rw [List.getElem?_append_right (by omega), hlength, Nat.sub_self, hentry]
      rfl

/-- The loop ends with some partitions if and only if the entries before the first unused one are fine and theirs. -/
theorem entryLoop_iff (hheader : Checked drive header) (hcount : entryBlocks.count ≤ 2 ^ 24) :
    (∃ fuel, entryLoop header entryBlocks fuel (0, []) = some parts) ↔
      ∃ m, (∀ j < m, Used header entryBlocks j ∧ Fine header entryBlocks j) ∧ ¬Used header entryBlocks m ∧
        parts = slotPartitions header entryBlocks m := by
  constructor
  · rintro ⟨fuel, hrun⟩
    exact entryLoop_slots hheader hcount hrun
  · rintro ⟨m, hm, hnot, hparts⟩
    have horderly : Orderly header entryBlocks := by
      intro k hk
      refine (hm k (Nat.lt_of_not_le fun hle => hnot (hk m hle))).2
    obtain ⟨fuel, parts', hrun⟩ := entryLoop_ends hheader hcount horderly
    obtain ⟨m', hm', hnot', hparts'⟩ := entryLoop_slots hheader hcount hrun
    have hsame : m' = m := by
      rcases Nat.lt_trichotomy m' m with hlt | heq | hlt
      · exact absurd (hm m' hlt).1 hnot'
      · exact heq
      · exact absurd (hm' m hlt).1 hnot
    refine ⟨fuel, ?_⟩
    rw [hparts, ← hsame, ← hparts']
    exact hrun

theorem gptInit_ok_iff (htable : gptTable drive s = (.ok (header, entryBlocks), s₁)) {fuel : ℕ} :
    (∃ s', gptInit drive fuel s = (.ok parts, s')) ↔ entryLoop header entryBlocks fuel (0, []) = some parts := by
  rw [gptInit, run_bind htable]
  cases hloop : entryLoop header entryBlocks fuel (0, []) with
  | none =>
    simp only
    constructor
    · rintro ⟨s', h⟩
      cases h
    · intro h
      cases h
  | some parts' =>
    simp only
    constructor
    · rintro ⟨s', h⟩
      cases h
      rfl
    · intro h
      cases h
      exact ⟨_, rfl⟩

end Slots

section Slack

variable {drive : StorageDrive} {header : PrimaryGPTHeader} {entryBlocks : PhysPage} {parts : List Partition}
  {s s₁ s' : DriveState} {fuel : ℕ}

/-- The partition is that of entry `i`, and the entry is in the part of the array that the header counts. -/
def FromTable (header : PrimaryGPTHeader) (entryBlocks : PhysPage) (i : ℕ) (p : Partition) : Prop :=
  i < header.entryCount ∧ i * header.entryByteCount + 128 ≤ header.entryCount * header.entryByteCount ∧
    (slot header entryBlocks i).map partition = some p

theorem fromTable_iff (htable : gptTable drive s = (.ok (header, entryBlocks), s₁))
    (hrun : entryLoop header entryBlocks fuel (0, []) = some parts) :
    (∀ i p, parts[i]? = some p → FromTable header entryBlocks i p) ↔ ∃ k ≤ header.entryCount,
      ¬Used header entryBlocks k := by
  obtain ⟨_, hforce, -⟩ := wp_ok (gptTable_wp drive s) htable
  obtain ⟨m, hm, hnot, rfl⟩ := (entryLoop_iff hforce.checked hforce.count_le).1 ⟨fuel, hrun⟩
  have hused : ∀ j < m, Used header entryBlocks j := fun j hj => (hm j hj).1
  constructor
  · intro hfrom
    refine ⟨m, Nat.le_of_not_lt fun hlt => ?_, hnot⟩
    -- the entry behind the counted ones has become a partition
    obtain ⟨entry, hentry, -⟩ := hused header.entryCount hlt
    have hget : (slotPartitions header entryBlocks m)[header.entryCount]? = some entry.partition := by
      rw [slotPartitions_getElem? hused hlt, hentry]
      rfl
    exact Nat.lt_irrefl _ (hfrom _ _ hget).1
  · rintro ⟨k, hk, hunused⟩ i p hp
    have hi : i < m := by
      have hlt := (List.getElem?_eq_some_iff.1 hp).1
      rwa [slotPartitions_length hused] at hlt
    have hcount : i < header.entryCount := by
      by_contra hge
      exact hunused (hused k (by omega))
    rw [slotPartitions_getElem? hused hi] at hp
    have hentry : 128 ≤ header.entryByteCount := hforce.checked.entry
    have hle := Nat.mul_le_mul_right header.entryByteCount (Nat.succ_le_of_lt hcount)
    rw [Nat.succ_mul] at hle
    exact ⟨hcount, by omega, hp⟩

/-- The entries that become partitions are all among those that the header counts and whose bytes are summed, if and only
if the pages show an unused entry there or right behind. -/
theorem partitions_from_table_iff (htable : gptTable drive s = (.ok (header, entryBlocks), s₁))
    (htotal : header.entryCount * header.entryByteCount ≤ 1024 * 1024 * 16)
    (hrun : gptInit drive fuel s = (.ok parts, s')) :
    (crc32 ((List.range (header.entryCount * header.entryByteCount)).map entryBlocks.bytes)).toNat = header.entryArrayCrc ∧
    ((∀ i p, parts[i]? = some p → FromTable header entryBlocks i p) ↔
      ∃ k ≤ header.entryCount, ¬Used header (tablePage drive header s.blocks) k) := by
  obtain ⟨_, hforce, -⟩ := wp_ok (gptTable_wp drive s) htable
  have hcrc := hforce.crc
  rw [tableSize, min_eq_left htotal] at hcrc
  refine ⟨hcrc, ?_⟩
  rw [fromTable_iff htable ((gptInit_ok_iff htable).1 ⟨s', hrun⟩)]
  have hentries : entryBlocks = tablePage drive header s.blocks := hforce.entries
  rw [hentries]

theorem partitions_from_table_pair :
    ∃ header entryBlocks s₁ s' parts,
      gptTable sampleDrive (sampleState pairArray) = (.ok (header, entryBlocks), s₁) ∧
      gptInit sampleDrive 3 (sampleState pairArray) = (.ok parts, s') ∧ parts.length = 2 ∧
      ∀ i p, parts[i]? = some p → FromTable header entryBlocks i p := by
  obtain ⟨s₁, htable⟩ := sample_table pairArray
  obtain ⟨s', hrun⟩ := (gptInit_ok_iff htable).2 sample_loop
  refine ⟨_, _, s₁, s', _, htable, hrun, rfl, ?_⟩
  refine (partitions_from_table_iff htable (by decide) hrun).2.2 ⟨2, by decide, ?_⟩
  obtain ⟨_, hforce, -⟩ := wp_ok (gptTable_wp _ _) htable
  have hentries : sampleEntries pairArray = _ := hforce.entries
  rw [← hentries]
  rintro ⟨entry, hentry, hused⟩
  have hzero : (slot (sampleHeader.sealed pairArray) (sampleEntries pairArray) 2).map PartitionEntry.typeGuid =
      some Guid.zero := by decide +kernel
  rw [hentry] at hzero
  exact hused (Option.some.inj hzero)

/-- 129 entries of 128 bytes for 200 blocks, of which entry `k` is for block `35 + k`; the array goes on behind the last. -/
def slackHeader : PrimaryGPTHeader := ⟨GPT_SIG, 92, 0, 1, 199, 35, 198, 2, 129, 128, 0⟩

def slackArray (i : ℕ) : UInt8 :=
  if i % 128 = 0 then 1 else if i % 128 = 32 ∨ i % 128 = 40 then .ofNat (35 + i / 128) else 0

def slackDrive : StorageDrive := ⟨512, 200, fun _ => none⟩

def slackState : DriveState where
  blocks := fun b i =>
    if b = 0 then [0x55, 0xAA].getD (i - 510) 0
    else if b = 1 then (slackHeader.sealed slackArray).byte i
    else slackArray ((b - 2) * 512 + i)
  events := []

theorem slackState_byte (i : ℕ) : slackState.blocks (2 + i / 512) (i % 512) = slackArray i := by
  rw [slackState]
  simp only
  rw [if_neg (by omega), if_neg (by omega)]
  congr 1
  omega

theorem slack_table : Table slackDrive slackState.blocks (slackHeader.sealed slackArray)
    (tablePage slackDrive (slackHeader.sealed slackArray) slackState.blocks) false := by
  refine table_of_sealed ⟨rfl, by decide, by decide⟩ rfl ?_ fun i hi => ?_
  · exact ⟨rfl, by decide, rfl, PrimaryGPTHeader.crc_summed _, by decide, by decide, by decide, by decide, by decide, rfl,
      fun _ => by decide⟩
  · have hstart : slackHeader.entryStart = 2 := rfl
    have hsize : slackDrive.blockSize = 512 := rfl
    rw [hstart, hsize]
    exact slackState_byte i

theorem slack_loop : (entryLoop (slackHeader.sealed slackArray)
    (tablePage slackDrive (slackHeader.sealed slackArray) slackState.blocks) 133 (0, [])).map
      (fun parts => parts[129]?.isSome) =
    some true := by decide +kernel

/-- An entry of the blocks behind the array becomes a partition. -/
theorem slack_entry_returned :
    ∃ header entryBlocks s₁ s' fuel parts,
      gptTable slackDrive slackState = (.ok (header, entryBlocks), s₁) ∧
      header.entryCount * header.entryByteCount ≤ 1024 * 1024 * 16 ∧
      gptInit slackDrive fuel slackState = (.ok parts, s') ∧
      ∃ i p, parts[i]? = some p ∧ header.entryCount ≤ i ∧ ¬FromTable header entryBlocks i p := by
  have hmbr : slackState.blocks 0 510 = 0x55 ∧ slackState.blocks 0 511 = 0xAA := ⟨rfl, rfl⟩
  obtain ⟨s₁, htable⟩ := gptTable_of_intact (intact_of_table (fun _ => rfl) (by decide) hmbr slack_table) slack_table
  have hcount : (slackHeader.sealed slackArray).entryCount = 129 := rfl
  obtain ⟨parts, hloop, hsome⟩ := Option.map_eq_some_iff.1 slack_loop
  obtain ⟨p, hp⟩ := Option.isSome_iff_exists.1 hsome
  obtain ⟨s', hrun⟩ := (gptInit_ok_iff htable).2 hloop
  refine ⟨_, _, s₁, s', 133, parts, htable, by rw [hcount]; decide, hrun, 129, p, hp, hcount.le, fun h => ?_⟩
  exact absurd h.1 (by rw [hcount]; decide)

end Slack

section Complete

variable {drive : StorageDrive} {header : PrimaryGPTHeader} {entryBlocks : PhysPage} {blocks : ℕ → ℕ → UInt8} {k m : ℕ}
  {s s₁ : DriveState}

section Valid

/-- A header as the format has it, in its own block and with the block of the other one. The sum of its entries is that
of the whole array. -/
structure ValidHeader (drive : StorageDrive) (blocks : ℕ → ℕ → UInt8) (block other : ℕ) (header : PrimaryGPTHeader) :
    Prop where
  decoded : header = .decode (blocks block)
  signature : header.signature = GPT_SIG
  size : 92 ≤ header.size ∧ header.size ≤ drive.blockSize
  headerCrc : (crc32 ((List.range header.size).map fun i => if 16 ≤ i ∧ i < 20 then 0 else blocks block i)).toNat =
    header.headerCrc
  currBlock : header.currBlock = block
  backupBlock : header.backupBlock = other
  ordered : header.firstUsable ≤ header.lastUsable
  entryByteCount : ∃ n, header.entryByteCount = 128 * 2 ^ n
  entryArrayCrc : (crc32 ((List.range (header.entryCount * header.entryByteCount)).map fun i =>
    blocks (header.entryStart + i / drive.blockSize) (i % drive.blockSize))).toNat = header.entryArrayCrc

/-- A GPT as the format has it, on a drive that answers: a protective MBR, a header in block 1 with its array before the
usable blocks, and one in the last block with its array behind them. -/
structure ValidGpt (drive : StorageDrive) (blocks : ℕ → ℕ → UInt8) (header backup : PrimaryGPTHeader) : Prop where
  available : ¬drive.Fails
  size : 512 ≤ drive.blockSize
  count_lt : drive.blockCount < 2 ^ 64
  mbr : blocks 0 510 = 0x55 ∧ blocks 0 511 = 0xAA
  first : ValidHeader drive blocks 1 (drive.blockCount - 1) header
  last : ValidHeader drive blocks (drive.blockCount - 1) 1 backup
  usable : backup.firstUsable = header.firstUsable ∧ backup.lastUsable = header.lastUsable
  before : 2 ≤ header.entryStart ∧ arrayEnd drive header ≤ header.firstUsable
  behind : backup.lastUsable < backup.entryStart ∧ arrayEnd drive backup ≤ drive.blockCount - 1

/-- The array has 128 entries or more and 16 MiB or less, unless its sum is that of its first 16 MiB as well. -/
def Summable (drive : StorageDrive) (header : PrimaryGPTHeader) (blocks : ℕ → ℕ → UInt8) : Prop :=
  128 ≤ header.entryCount ∧
    (header.entryCount * header.entryByteCount ≤ 1024 * 1024 * 16 ∨
      (crc32 ((List.range (1024 * 1024 * 16)).map fun i =>
        blocks (header.entryStart + i / drive.blockSize) (i % drive.blockSize))).toNat = header.entryArrayCrc)

variable {backup : PrimaryGPTHeader}

theorem tablePage_sum (hsize : 0 < drive.blockSize) :
    (List.range (tableSize header)).map (tablePage drive header blocks).bytes =
      (List.range (tableSize header)).map fun i =>
        blocks (header.entryStart + i / drive.blockSize) (i % drive.blockSize) :=
  List.map_congr_left fun _ hi => tablePage_byte ((List.mem_range.1 hi).trans_le (le_divCeil_mul hsize))

theorem ValidGpt.last_block (h : ValidGpt drive blocks header backup) : wsub drive.blockCount 1 = drive.blockCount - 1 := by
  have hbehind := h.behind
  have hend : backup.entryStart ≤ arrayEnd drive backup := Nat.le_add_right ..
  exact wsub_of_le (by omega)

theorem ValidGpt.headerAt (h : ValidGpt drive blocks header backup) (hcount : 128 ≤ header.entryCount) :
    HeaderAt drive blocks header false := by
  have hbefore := h.before
  have hbehind := h.behind
  have husable := h.usable
  have hend : backup.entryStart ≤ arrayEnd drive backup := Nat.le_add_right ..
  obtain ⟨n, hentry⟩ := h.first.entryByteCount
  have hpow : 0 < 2 ^ n := Nat.two_pow_pos n
  exact ⟨h.first.decoded, h.first.signature, h.first.size, h.first.currBlock, h.first.headerCrc, hcount, by omega,
    h.first.ordered, by omega, hbefore.1, h.first.backupBlock.trans h.last_block.symm, fun _ => hbefore.2⟩

/-- The first table of a valid GPT is accepted if and only if its sum can be checked. -/
theorem ValidGpt.table_iff (h : ValidGpt drive blocks header backup) :
    Table drive blocks header (tablePage drive header blocks) false ↔ Summable drive header blocks := by
  have hsize := h.size
  have hsum := h.first.entryArrayCrc
  have hmap := @tablePage_sum drive header blocks (by omega)
  rcases Nat.le_total (header.entryCount * header.entryByteCount) (1024 * 1024 * 16) with hle | hge
  all_goals constructor
  · exact fun htable => ⟨htable.passed.entryCount, .inl hle⟩
  · rintro ⟨hcount, -⟩
    refine ⟨h.headerAt hcount, rfl, ?_⟩
    rw [hmap, tableSize, min_eq_left hle]
    exact hsum
  · intro htable
    have hcrc := htable.crc
    rw [hmap, tableSize, min_eq_right hge] at hcrc
    exact ⟨htable.passed.entryCount, .inr hcrc⟩
  · rintro ⟨hcount, hlimit⟩
    refine ⟨h.headerAt hcount, rfl, ?_⟩
    rw [hmap, tableSize, min_eq_right hge]
    rcases hlimit with hle | hcrc
    · rw [← Nat.le_antisymm hle hge]
      exact hsum
    · exact hcrc

end Valid

end Complete

end MaramOS
