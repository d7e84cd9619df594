import MaramOS.Proofs.GptTable

/-! The entry loop of `gpt::init`. It stands still at the first entry that it skips, so it
ends exactly when it skips none; the partitions that it then returns are in order and apart. -/

namespace MaramOS

open List Prog

/-! Headers with their checksums, in front of their arrays. -/

section Image

variable {header : PrimaryGPTHeader} {array : ℕ → UInt8}

@[irreducible] def arraySum (array : ℕ → UInt8) (n : ℕ) : ℕ := (crc32 ((List.range n).map array)).toNat

def PrimaryGPTHeader.sealed (header : PrimaryGPTHeader) (array : ℕ → UInt8) : PrimaryGPTHeader :=
  { header with entryArrayCrc := arraySum array (tableSize header) }.summed

theorem PrimaryGPTHeader.Encodable.sealed (h : header.Encodable) : (header.sealed array).Encodable := by
  refine PrimaryGPTHeader.Encodable.summed ⟨h.signature, ⟨h.half.1, h.half.2.1, h.half.2.2.1, h.half.2.2.2.1, ?_⟩, h.full⟩
  rw [arraySum]
  exact UInt32.toNat_lt _

variable {drive : StorageDrive} {blocks : ℕ → ℕ → UInt8}

theorem tablePage_byte {i : ℕ} (hi : i < divCeil (tableSize header) drive.blockSize * drive.blockSize) :
    (tablePage drive header blocks).bytes i = blocks (header.entryStart + i / drive.blockSize) (i % drive.blockSize) :=
  if_pos hi

-- The sums of the sealed header are never computed if these are used for its other fields.
theorem tableSize_sealed (header : PrimaryGPTHeader) (array : ℕ → UInt8) :
    tableSize (header.sealed array) = tableSize header := rfl

theorem arrayEnd_sealed (drive : StorageDrive) (header : PrimaryGPTHeader) (array : ℕ → UInt8) :
    arrayEnd drive (header.sealed array) = arrayEnd drive header := rfl

theorem table_of_sealed (he : header.Encodable) (hblock : blocks 1 = (header.sealed array).byte)
    (hpassed : Passed drive (header.sealed array) (header.sealed array).byte false)
    (harray : ∀ i < tableSize header, blocks (header.entryStart + i / drive.blockSize) (i % drive.blockSize) = array i) :
    Table drive blocks (header.sealed array) (tablePage drive (header.sealed array) blocks) false := by
  have hone : blocks (headerBlock drive false) = (header.sealed array).byte := hblock
  refine ⟨⟨?_, hone ▸ hpassed⟩, rfl, ?_⟩
  · rw [hone, PrimaryGPTHeader.decode_byte he.sealed]
  · change _ = arraySum array (tableSize header)
    rw [tableSize_sealed, arraySum]
    congr 2
    refine List.map_congr_left fun i hi => ?_
    have hi := List.mem_range.1 hi
    have hpos := hpassed.size
    rw [tablePage_byte, ← harray i hi]
    · rfl
    · exact hi.trans_le (le_divCeil_mul (by omega))

theorem intact_of_table {entryBlocks : PhysPage} (hok : ∀ events, drive.outcome events = none)
    (hsize : 512 ≤ drive.blockSize)
    (hmbr : blocks 0 510 = 0x55 ∧ blocks 0 511 = 0xAA) (htable : Table drive blocks header entryBlocks false) :
    Intact drive blocks := by
  refine ⟨fun ⟨events, hfails⟩ => hfails (hok events), ?_, header, entryBlocks, htable⟩
  have hbyte : ∀ i < 512, (drive.smartPage 0 1 blocks).bytes i = blocks 0 i :=
    fun i hi => smartPage_block 0 blocks (by omega)
  simp only [leNumber, hbyte 510 (by norm_num), hbyte 511 (by norm_num), hmbr.1, hmbr.2]
  decide

end Image

/-! A drive of 100 blocks with two headers for any array of 128 entries. -/

section Sample

def sampleDrive : StorageDrive := ⟨512, 100, fun _ => none⟩

def sampleHeader : PrimaryGPTHeader := ⟨GPT_SIG, 92, 0, 1, 99, 34, 66, 2, 128, 128, 0⟩

def sampleBackup : PrimaryGPTHeader := ⟨GPT_SIG, 92, 0, 99, 1, 34, 66, 67, 128, 128, 0⟩

variable (array : ℕ → UInt8)

def sampleDisk (first : ℕ → UInt8) : DriveState where
  blocks := fun b i =>
    if b = 0 then [0x55, 0xAA].getD (i - 510) 0
    else if b = 1 then first i
    else if b = 99 then (sampleBackup.sealed array).byte i
    else if b < 34 then array ((b - 2) * 512 + i)
    else array ((b - 67) * 512 + i)
  events := []

def sampleState : DriveState := sampleDisk array (sampleHeader.sealed array).byte

def sampleEntries : PhysPage := ⟨4, fun i => if i < 16384 then array i else 0⟩

theorem sampleDisk_array (first : ℕ → UInt8) {i start : ℕ} (hi : i < 16384) (hstart : start = 2 ∨ start = 67) :
    (sampleDisk array first).blocks (start + i / 512) (i % 512) = array i := by
  rw [sampleDisk]
  simp only
  rw [if_neg (by omega), if_neg (by omega), if_neg (by omega)]
  split_ifs
  · congr 1
    omega
  · congr 1
    omega

theorem sample_entriesPage :
    tablePage sampleDrive (sampleHeader.sealed array) (sampleState array).blocks = sampleEntries array := by
  have hsize : divCeil (tableSize (sampleHeader.sealed array)) sampleDrive.blockSize = 32 := by
    rw [tableSize_sealed]
    decide
  rw [tablePage, hsize, sampleEntries, StorageDrive.smartPage]
  congr 1
  funext i
  change (if i < 32 * 512 then (sampleState array).blocks (2 + i / 512) (i % 512) else 0) = _
  split_ifs with hi
  · exact sampleDisk_array array _ hi (.inl rfl)
  · rfl

theorem sample_intact :
    Table sampleDrive (sampleState array).blocks (sampleHeader.sealed array) (sampleEntries array) false := by
  rw [← sample_entriesPage]
  refine table_of_sealed ⟨rfl, by decide, by decide⟩ rfl ?_ fun i hi => sampleDisk_array array _ hi (.inl rfl)
  exact ⟨rfl, of_decide_eq_true rfl, rfl, PrimaryGPTHeader.crc_summed _, of_decide_eq_true rfl, of_decide_eq_true rfl,
    of_decide_eq_true rfl, of_decide_eq_true rfl, of_decide_eq_true rfl, rfl,
    fun _ => (arrayEnd_sealed sampleDrive sampleHeader array).trans_le (show arrayEnd sampleDrive sampleHeader ≤ 34 by decide)⟩

theorem sample_table :
    ∃ s', gptTable sampleDrive (sampleState array) = (.ok (sampleHeader.sealed array, sampleEntries array), s') :=
  gptTable_of_intact (intact_of_table (fun _ => rfl) (by decide) ⟨rfl, rfl⟩ (sample_intact array)) (sample_intact array)

end Sample

section EntryLoop

variable {drive : StorageDrive} {header : PrimaryGPTHeader} {entryBlocks : PhysPage} {k : ℕ} {res : List Partition}
  {entry : PartitionEntry} {fuel : ℕ} {parts : List Partition} {s s' : ℕ × List Partition}

def slot (header : PrimaryGPTHeader) (entryBlocks : PhysPage) (k : ℕ) : Option PartitionEntry :=
  if k * header.entryByteCount + 128 ≤ entryBlocks.count * PAGE_SIZE then
    some (.decode fun i => entryBlocks.bytes (k * header.entryByteCount + i))
  else none

def Used (header : PrimaryGPTHeader) (entryBlocks : PhysPage) (k : ℕ) : Prop :=
  ∃ entry, slot header entryBlocks k = some entry ∧ entry.typeGuid ≠ Guid.zero

/-- Entry `k` is a range of usable blocks after that of the entry before. -/
def Fine (header : PrimaryGPTHeader) (entryBlocks : PhysPage) (k : ℕ) : Prop :=
  ∀ entry, slot header entryBlocks k = some entry →
    header.firstUsable ≤ entry.startBlock ∧ entry.endBlock ≤ header.lastUsable ∧ entry.startBlock ≤ entry.endBlock ∧
    ∀ j last, k = j + 1 → slot header entryBlocks j = some last → wadd last.endBlock 1 ≤ entry.startBlock

/-- All entries before the first unused one are fine. -/
def Orderly (header : PrimaryGPTHeader) (entryBlocks : PhysPage) : Prop :=
  ∀ k, (∀ j ≤ k, Used header entryBlocks j) → Fine header entryBlocks k

/-- The state of the loop when it comes to entry `k`. -/
def Arrived (header : PrimaryGPTHeader) (entryBlocks : PhysPage) (k : ℕ) (res : List Partition) : Prop :=
  k * header.entryByteCount < 2 ^ 63 ∧
    match k with
    | 0 => res = []
    | j + 1 => ∃ last, slot header entryBlocks j = some last ∧ res.getLast? = some last.partition

theorem wadd_wsub_succ {a b : ℕ} (ha : a < 2 ^ 64) (hb : b < 2 ^ 64) : wadd a (wadd (wsub b a) 1) = wadd b 1 := by
  rcases le_or_gt a b with h | h
  · rw [wsub_of_le h]
    simp only [wadd]
    omega
  · rw [wsub, if_neg (Nat.not_le.2 h)]
    simp only [wadd]
    omega

theorem slot_partition_end (h : slot header entryBlocks k = some entry) :
    wadd entry.partition.start entry.partition.sizeBlocks = wadd entry.endBlock 1 := by
  rw [slot, Option.ite_none_right_eq_some] at h
  obtain ⟨-, h⟩ := h
  cases h
  exact wadd_wsub_succ (leNumber_lt _ 32 8) (leNumber_lt _ 40 8)

theorem readData_slot (hcount : entryBlocks.count ≤ 2 ^ 24) (hk : k * header.entryByteCount < 2 ^ 63) :
    (entryBlocks.readData (k * header.entryByteCount) 128).map PartitionEntry.decode = slot header entryBlocks k := by
  have hfits : entryBlocks.holds (k * header.entryByteCount) 128 =
      decide (k * header.entryByteCount + 128 ≤ entryBlocks.count * PAGE_SIZE) := by
    rw [PhysPage.holds, wadd, wmul, PAGE_SIZE, Nat.mod_eq_of_lt (by omega), Nat.mod_eq_of_lt (by omega)]
  rw [PhysPage.readData, hfits, slot]
  split_ifs <;> simp_all

theorem overlaps_iff (h : Arrived header entryBlocks k res) :
    (res.getLast?.any fun p => entry.startBlock < wadd p.start p.sizeBlocks) = true ↔
      ∃ j last, k = j + 1 ∧ slot header entryBlocks j = some last ∧ entry.startBlock < wadd last.endBlock 1 := by
  cases k with
  | zero =>
    obtain ⟨-, rfl⟩ := h
    constructor
    · intro hany
      cases hany
    · rintro ⟨j, last, hj, -⟩
      cases hj
  | succ j =>
    obtain ⟨-, last, hslot, hlast⟩ := h
    rw [hlast, Option.any_some, decide_eq_true_iff, slot_partition_end hslot]
    constructor
    · exact fun hlt => ⟨j, last, rfl, hslot, hlt⟩
    · rintro ⟨i, last', hi, hslot', hlt⟩
      cases hi
      rw [hslot] at hslot'
      cases hslot'
      exact hlt

theorem entryTurn_cases (hheader : Checked drive header) (hcount : entryBlocks.count ≤ 2 ^ 24)
    (h : Arrived header entryBlocks k res) :
    (¬Used header entryBlocks k ∧ entryTurn header entryBlocks (k * header.entryByteCount, res) = none) ∨
    (Used header entryBlocks k ∧ ¬Fine header entryBlocks k ∧
      entryTurn header entryBlocks (k * header.entryByteCount, res) = some (k * header.entryByteCount, res)) ∨
    (Used header entryBlocks k ∧ Fine header entryBlocks k ∧ ∃ entry, slot header entryBlocks k = some entry ∧
      Arrived header entryBlocks (k + 1) (res ++ [entry.partition]) ∧
      entryTurn header entryBlocks (k * header.entryByteCount, res) =
        some ((k + 1) * header.entryByteCount, res ++ [entry.partition])) := by
  rw [entryTurn, readData_slot hcount h.1]
  cases hslot : slot header entryBlocks k with
  | none =>
    refine .inl ⟨?_, rfl⟩
    rintro ⟨entry, hentry, -⟩
    rw [hslot] at hentry
    cases hentry
  | some entry =>
    simp only
    split_ifs with hzero hover hrange horder
    · refine .inl ⟨?_, rfl⟩
      rintro ⟨entry', hentry, hused⟩
      rw [hslot] at hentry
      cases hentry
      exact hused hzero
    · refine .inr (.inl ⟨⟨entry, hslot, hzero⟩, fun hfine => ?_, rfl⟩)
      obtain ⟨j, last, hj, hlast, hlt⟩ := (overlaps_iff h).1 hover
      have := (hfine entry hslot).2.2.2 j last hj hlast
      omega
    · refine .inr (.inl ⟨⟨entry, hslot, hzero⟩, fun hfine => ?_, rfl⟩)
      obtain ⟨hfirst, hlast, -⟩ := hfine entry hslot
      omega
    · refine .inr (.inl ⟨⟨entry, hslot, hzero⟩, fun hfine => ?_, rfl⟩)
      obtain ⟨-, -, hle, -⟩ := hfine entry hslot
      omega
    · have hfits : k * header.entryByteCount + 128 ≤ entryBlocks.count * PAGE_SIZE := by
        rw [slot, Option.ite_none_right_eq_some] at hslot
        exact hslot.1
      have hnext : (k + 1) * header.entryByteCount = k * header.entryByteCount + header.entryByteCount := by ring
      have hsmall := hheader.entry_lt
      rw [PAGE_SIZE] at hfits
      refine .inr (.inr ⟨⟨entry, hslot, hzero⟩, fun entry' hentry => ?_, entry, rfl, ⟨by omega, ?_⟩, ?_⟩)
      · rw [hslot] at hentry
        cases hentry
        push Not at hrange horder
        refine ⟨hrange.1, hrange.2, horder, fun j last hj hlast => ?_⟩
        by_contra hlt
        exact hover ((overlaps_iff h).2 ⟨j, last, hj, hlast, Nat.lt_of_not_le hlt⟩)
      · exact ⟨entry, hslot, List.getLast?_concat⟩
      · rw [hnext, wadd_of_lt (by omega)]

def slotPartitions (header : PrimaryGPTHeader) (entryBlocks : PhysPage) (m : ℕ) : List Partition :=
  (List.range m).filterMap fun k => (slot header entryBlocks k).map PartitionEntry.partition

theorem slotPartitions_succ (h : slot header entryBlocks m = some entry) :
    slotPartitions header entryBlocks (m + 1) = slotPartitions header entryBlocks m ++ [entry.partition] := by
  rw [slotPartitions, range_succ, filterMap_append, slotPartitions]
  simp only [filterMap_cons, filterMap_nil, h, Option.map_some]

theorem entryLoop_invariant {I : ℕ × List Partition → Prop} {s : ℕ × List Partition}
    (step : ∀ s s', I s → entryTurn header entryBlocks s = some s' → I s') (h : I s)
    (hrun : entryLoop header entryBlocks fuel s = some parts) :
    ∃ s', I s' ∧ entryTurn header entryBlocks s' = none ∧ parts = s'.2 := by
  induction fuel generalizing s with
  | zero => cases hrun
  | succ fuel ih =>
    rw [entryLoop] at hrun
    cases hturn : entryTurn header entryBlocks s with
    | none =>
      rw [hturn] at hrun
      cases hrun
      exact ⟨s, h, hturn, rfl⟩
    | some s' =>
      rw [hturn] at hrun
      exact ih (step s s' h hturn) hrun

section

variable (hheader : Checked drive header) (hcount : entryBlocks.count ≤ 2 ^ 24)
include hheader hcount

theorem entryLoop_slots (hrun : entryLoop header entryBlocks fuel (0, []) = some parts) :
    ∃ m, (∀ j < m, Used header entryBlocks j ∧ Fine header entryBlocks j) ∧ ¬Used header entryBlocks m ∧
      parts = slotPartitions header entryBlocks m := by
  have hstart : Arrived header entryBlocks 0 [] := ⟨by omega, rfl⟩
  obtain ⟨_, ⟨m, rfl, h, hm⟩, hend, rfl⟩ := entryLoop_invariant
    (I := fun s => ∃ k, s = (k * header.entryByteCount, slotPartitions header entryBlocks k) ∧
      Arrived header entryBlocks k s.2 ∧ ∀ j < k, Used header entryBlocks j ∧ Fine header entryBlocks j)
    (by
      rintro _ s' ⟨k, rfl, h, hk⟩ hturn
      rcases entryTurn_cases hheader hcount h with ⟨-, hnone⟩ | ⟨-, -, hsame⟩ | ⟨hused, hfine, entry, hentry, hnext, hgo⟩
      · rw [hnone] at hturn
        cases hturn
      · rw [hsame] at hturn
        cases hturn
        exact ⟨k, rfl, h, hk⟩
      · rw [hgo] at hturn
        cases hturn
        refine ⟨k + 1, by rw [slotPartitions_succ hentry], hnext, fun j hj => ?_⟩
        rcases Nat.lt_succ_iff_lt_or_eq.1 hj with hj | rfl
        · exact hk j hj
        · exact ⟨hused, hfine⟩)
    ⟨0, by rw [Nat.zero_mul]; rfl, hstart, fun j hj => absurd hj (Nat.not_lt_zero j)⟩ hrun
  refine ⟨m, hm, ?_, rfl⟩
  rcases entryTurn_cases hheader hcount h with ⟨hnot, -⟩ | ⟨-, -, hturn⟩ | ⟨-, -, _, -, -, hturn⟩
  · exact hnot
  · rw [hend] at hturn
    cases hturn
  · rw [hend] at hturn
    cases hturn

variable (horderly : Orderly header entryBlocks)
include horderly

theorem entryTurn_of_orderly (h : Arrived header entryBlocks k res)
    (hused : ∀ j < k, Used header entryBlocks j) :
    entryTurn header entryBlocks (k * header.entryByteCount, res) = none ∨
    ∃ res', Arrived header entryBlocks (k + 1) res' ∧ (∀ j < k + 1, Used header entryBlocks j) ∧
      entryTurn header entryBlocks (k * header.entryByteCount, res) = some ((k + 1) * header.entryByteCount, res') := by
  have hupto : Used header entryBlocks k → ∀ j ≤ k, Used header entryBlocks j := by
    intro hk j hj
    rcases Nat.eq_or_lt_of_le hj with rfl | hlt
    · exact hk
    · exact hused j hlt
  rcases entryTurn_cases hheader hcount h with ⟨-, hturn⟩ | ⟨hk, hbad, -⟩ | ⟨hk, -, _, -, hnext, hturn⟩
  · exact .inl hturn
  · exact absurd (horderly k (hupto hk)) hbad
  · exact .inr ⟨_, hnext, fun j hj => hupto hk j (Nat.le_of_lt_succ hj), hturn⟩

theorem entryLoop_of_orderly {n : ℕ}
    (hn : entryBlocks.count * PAGE_SIZE < (k + n) * header.entryByteCount + 128)
    (h : Arrived header entryBlocks k res) (hused : ∀ j < k, Used header entryBlocks j) :
    ∃ parts, entryLoop header entryBlocks (n + 1) (k * header.entryByteCount, res) = some parts := by
  induction n generalizing k res with
  | zero =>
    -- the entry is not in the pages
    have hnone : slot header entryBlocks k = none := if_neg (Nat.not_le.2 hn)
    refine ⟨res, ?_⟩
    rw [entryLoop, entryTurn, readData_slot hcount h.1, hnone]
  | succ n ih =>
    rw [entryLoop]
    rcases entryTurn_of_orderly hheader hcount horderly h hused with hturn | ⟨res', hnext, hused', hturn⟩
    · rw [hturn]
      exact ⟨res, rfl⟩
    · rw [hturn]
      exact ih (by rwa [Nat.add_right_comm, Nat.add_assoc]) hnext hused'

theorem entryLoop_ends :
    ∃ fuel parts, entryLoop header entryBlocks fuel (0, []) = some parts := by
  refine ⟨entryBlocks.count * PAGE_SIZE + 1, ?_⟩
  rw [← Nat.zero_mul header.entryByteCount]
  refine entryLoop_of_orderly hheader hcount horderly ?_ ⟨by omega, rfl⟩ fun j hj => absurd hj (Nat.not_lt_zero j)
  have hpos : 0 < header.entryByteCount := Nat.lt_of_lt_of_le (by norm_num) hheader.entry
  have := Nat.le_mul_of_pos_right (entryBlocks.count * PAGE_SIZE) hpos
  rw [Nat.zero_add]
  omega

theorem examined_of_orderly (fuel : ℕ) (h : Arrived header entryBlocks k res)
    (hused : ∀ j < k, Used header entryBlocks j) :
    (∀ o ∈ examined header entryBlocks fuel (k * header.entryByteCount, res), k * header.entryByteCount ≤ o) ∧
    (examined header entryBlocks fuel (k * header.entryByteCount, res)).Nodup := by
  induction fuel generalizing k res with
  | zero => exact ⟨fun o ho => absurd ho not_mem_nil, nodup_nil⟩
  | succ fuel ih =>
    rw [examined]
    rcases entryTurn_of_orderly hheader hcount horderly h hused with hturn | ⟨res', hnext, hused', hturn⟩
    · rw [hturn]
      exact ⟨fun o ho => (mem_singleton.1 ho).ge, nodup_singleton _⟩
    · rw [hturn]
      obtain ⟨hle, hnodup⟩ := ih hnext hused'
      have hstep : k * header.entryByteCount < (k + 1) * header.entryByteCount := by
        have := hheader.entry
        rw [Nat.add_one_mul]
        omega
      refine ⟨fun o ho => ?_, nodup_cons.2 ⟨fun hmem => ?_, hnodup⟩⟩
      · rcases mem_cons.1 ho with rfl | ho
        · exact le_rfl
        · exact hstep.le.trans (hle o ho)
      · exact absurd (hle _ hmem) (Nat.not_le.2 hstep)

end

/-- The entry loop ends, looking at each entry once, exactly when the entries are orderly. -/
theorem entry_loop_ends_iff {s s' : DriveState} (hrun : gptTable drive s = (.ok (header, entryBlocks), s')) :
    ((∃ fuel parts, entryLoop header entryBlocks fuel (0, []) = some parts) ∧
      ∀ fuel, (examined header entryBlocks fuel (0, [])).Nodup) ↔ Orderly header entryBlocks := by
  obtain ⟨_, htable, -⟩ := wp_ok (gptTable_wp drive s) hrun
  have hheader : Checked drive header := htable.checked
  have hcount : entryBlocks.count ≤ 2 ^ 24 := htable.count_le
  constructor
  · rintro ⟨⟨fuel, parts, hparts⟩, -⟩ i hused
    obtain ⟨m, hm, hnot, -⟩ := entryLoop_slots hheader hcount hparts
    exact (hm i (Nat.lt_of_not_le fun hle => hnot (hused m hle))).2
  · intro horderly
    refine ⟨entryLoop_ends hheader hcount horderly, fun fuel => ?_⟩
    rw [← Nat.zero_mul header.entryByteCount]
    exact (examined_of_orderly hheader hcount horderly fuel ⟨by omega, rfl⟩ fun j hj => absurd hj (Nat.not_lt_zero j)).2

/-- The bytes of entries with the given first and last blocks. -/
def sampleArray (entries : List (ℕ × ℕ)) (i : ℕ) : UInt8 :=
  match entries[i / 128]? with
  | none => 0
  | some (start, last) =>
    if i % 128 = 0 then 1 else if i % 128 = 32 then .ofNat start else if i % 128 = 40 then .ofNat last else 0

def pairArray : ℕ → UInt8 := sampleArray [(40, 49), (50, 59)]

theorem entry_loop_ends_iff_pair :
    ∃ header entryBlocks s', gptTable sampleDrive (sampleState pairArray) =
        (.ok (header, entryBlocks), s') ∧
      (((∃ fuel parts, entryLoop header entryBlocks fuel (0, []) = some parts) ∧
        ∀ fuel, (examined header entryBlocks fuel (0, [])).Nodup) ↔ Orderly header entryBlocks) := by
  obtain ⟨s', hrun⟩ := sample_table pairArray
  exact ⟨_, _, s', hrun, entry_loop_ends_iff hrun⟩

/-- An entry that ends before it starts is examined forever. -/
theorem backward_entry_repeats :
    ∃ header entryBlocks s', gptTable sampleDrive (sampleState (sampleArray [(50, 40)])) =
        (.ok (header, entryBlocks), s') ∧
      (∀ fuel, entryLoop header entryBlocks fuel (0, []) = none) ∧ ¬(examined header entryBlocks 2 (0, [])).Nodup := by
  obtain ⟨s', hrun⟩ := sample_table (sampleArray [(50, 40)])
  refine ⟨_, _, s', hrun, fun fuel => ?_, by decide +kernel⟩
  have hturn : entryTurn (sampleHeader.sealed (sampleArray [(50, 40)]))
      (sampleEntries (sampleArray [(50, 40)])) (0, []) = some (0, []) := by decide +kernel
  induction fuel with
  | zero => rfl
  | succ fuel ih =>
    rw [entryLoop, hturn]
    exact ih

/-- Partitions in usable blocks, each before the next. -/
structure Sorted (header : PrimaryGPTHeader) (res : List Partition) : Prop where
  usable : ∀ p ∈ res, 1 ≤ p.sizeBlocks ∧ header.firstUsable ≤ p.start ∧ p.start + p.sizeBlocks ≤ header.lastUsable + 1
  apart : res.Pairwise fun p q => p.start + p.sizeBlocks ≤ q.start

theorem Sorted.push (h : Sorted header res) (hsmall : header.lastUsable < 2 ^ 63)
    (hfirst : header.firstUsable ≤ entry.startBlock)
    (hlast : entry.endBlock ≤ header.lastUsable) (horder : entry.startBlock ≤ entry.endBlock)
    (hafter : ∀ p, res.getLast? = some p → wadd p.start p.sizeBlocks ≤ entry.startBlock) :
    Sorted header (res ++ [entry.partition]) := by
  have hsize : entry.partition.sizeBlocks = entry.endBlock - entry.startBlock + 1 := by
    simp only [PartitionEntry.partition, wsub_of_le horder, wadd]
    omega
  have hstart : entry.partition.start = entry.startBlock := rfl
  have hbefore : ∀ p ∈ res, p.start + p.sizeBlocks ≤ entry.startBlock := by
    intro p hp
    obtain ⟨init, last, rfl⟩ := (eq_nil_or_concat' res).resolve_left (ne_nil_of_mem hp)
    have hnowrap := h.usable last (mem_append_right init (mem_singleton.2 rfl))
    have hle := hafter last List.getLast?_concat
    rw [wadd_of_lt (by omega)] at hle
    rcases mem_append.1 hp with hp | hp
    · have := (pairwise_append.1 h.apart).2.2 p hp last (mem_singleton.2 rfl)
      omega
    · rw [mem_singleton.1 hp]
      exact hle
  refine ⟨fun p hp => ?_, pairwise_append.2 ⟨h.apart, pairwise_singleton _ _, fun p hp q hq => ?_⟩⟩
  · rcases mem_append.1 hp with hp | hp
    · exact h.usable p hp
    · rw [mem_singleton.1 hp, hsize, hstart]
      omega
  · rw [mem_singleton.1 hq, hstart]
    exact hbefore p hp

theorem entryTurn_some (h : entryTurn header entryBlocks s = some s') :
    s' = s ∨ ∃ entry, (entryBlocks.readData s.1 128).map PartitionEntry.decode = some entry ∧
      header.firstUsable ≤ entry.startBlock ∧ entry.startBlock ≤ entry.endBlock ∧ entry.endBlock ≤ header.lastUsable ∧
      (∀ p, s.2.getLast? = some p → wadd p.start p.sizeBlocks ≤ entry.startBlock) ∧
      s' = (wadd s.1 header.entryByteCount, s.2 ++ [entry.partition]) := by
  rw [entryTurn] at h
  cases hentry : (entryBlocks.readData s.1 128).map PartitionEntry.decode with
  | none =>
    rw [hentry] at h
    cases h
  | some entry =>
    simp only [hentry] at h
    split_ifs at h with _ hover hrange horder
    · exact .inl (Option.some.inj h).symm
    · exact .inl (Option.some.inj h).symm
    · exact .inl (Option.some.inj h).symm
    · push Not at hrange horder
      refine .inr ⟨entry, rfl, hrange.1, horder, hrange.2, fun p hp => ?_, (Option.some.inj h).symm⟩
      rw [hp, Option.any_some, decide_eq_true_iff] at hover
      exact Nat.le_of_not_lt hover

theorem Sorted.turn (h : Sorted header s.2) (hsmall : header.lastUsable < 2 ^ 63)
    (hturn : entryTurn header entryBlocks s = some s') : Sorted header s'.2 := by
  rcases entryTurn_some hturn with rfl | ⟨entry, -, hfirst, horder, hlast, hafter, rfl⟩
  · exact h
  · exact h.push hsmall hfirst hlast horder hafter

/-- The partitions of a drive are sorted, disjoint and inside the usable blocks of the header in force. -/
theorem partitions_sorted {s s' : DriveState} {fuel : ℕ} {parts : List Partition} (hcount : drive.blockCount < 2 ^ 63)
    (hrun : gptInit drive fuel s = (.ok parts, s')) :
    ∃ header entryBlocks s₁, gptTable drive s = (.ok (header, entryBlocks), s₁) ∧
      (∀ p ∈ parts, 1 ≤ p.sizeBlocks ∧ header.firstUsable ≤ p.start ∧ p.start + p.sizeBlocks ≤ header.lastUsable + 1) ∧
      parts.Pairwise fun p q => p.start < q.start ∧ p.start + p.sizeBlocks ≤ q.start := by
  rw [gptInit] at hrun
  obtain ⟨⟨header, entryBlocks⟩, s₁, htable, hloop⟩ := run_bind_ok hrun
  obtain ⟨_, htable', -⟩ := wp_ok (gptTable_wp drive s) htable
  have hheader : Checked drive header := htable'.checked
  cases hparts : entryLoop header entryBlocks fuel (0, []) with
  | none =>
    simp only [hparts] at hloop
    cases hloop
  | some parts' =>
    simp only [hparts] at hloop
    cases hloop
    obtain ⟨_, hsorted, -, rfl⟩ := entryLoop_invariant (I := fun s => Sorted header s.2)
      (fun _ _ hs hturn => hs.turn (Nat.lt_of_le_of_lt hheader.usable hcount) hturn)
      ⟨fun p hp => absurd hp List.not_mem_nil, .nil⟩ hparts
    refine ⟨header, entryBlocks, s', htable, hsorted.usable, ?_⟩
    refine hsorted.apart.imp_of_mem fun {p q} hp _ hpq => ⟨?_, hpq⟩
    have := (hsorted.usable p hp).1
    omega

def samplePartitions : List Partition :=
  [⟨40, 10, [], .unknown ⟨1, 0, 0, 0, 0⟩, Guid.zero⟩, ⟨50, 10, [], .unknown ⟨1, 0, 0, 0, 0⟩, Guid.zero⟩]

theorem sample_loop : entryLoop (sampleHeader.sealed pairArray) (sampleEntries pairArray) 3 (0, []) =
    some samplePartitions := by
  decide +kernel

theorem partitions_sorted_pair :
    ∃ s', gptInit sampleDrive 3 (sampleState pairArray) = (.ok samplePartitions, s') ∧
      samplePartitions.Pairwise fun p q => p.start < q.start ∧ p.start + p.sizeBlocks ≤ q.start := by
  obtain ⟨s', htable⟩ := sample_table pairArray
  have hrun : gptInit sampleDrive 3 (sampleState pairArray) = (.ok samplePartitions, s') := by
    rw [gptInit, run_bind htable, sample_loop]
    rfl
  obtain ⟨_, _, _, -, -, hapart⟩ := partitions_sorted (by norm_num [sampleDrive]) hrun
  exact ⟨s', hrun, hapart⟩

end EntryLoop

end MaramOS
