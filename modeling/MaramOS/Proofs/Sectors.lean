import MaramOS.Proofs.Isolation
import MaramOS.Sanity.Volume

/-! The sectors of a partition form a flat array. The staging buffer of a write holds, for
each sector of the native blocks that are touched, the new or the old content. So a
partition is a `Disk` for the file system above it. -/

namespace MaramOS

open List Prog

section Buffers

def PhysPage.sector (page : PhysPage) (k : ℕ) : Sector := fun x => page.bytes (512 * k + x.val)

/-- A buffer in memory that holds `n` sectors. -/
structure PhysPage.Roomy (page : PhysPage) (n : ℕ) : Prop where
  fits : page.count * PAGE_SIZE < 2 ^ 64
  room : n * 512 ≤ page.count * PAGE_SIZE

variable {src dest page : PhysPage} {n m k f t : ℕ}

theorem PhysPage.Roomy.holds (h : page.Roomy n) (hk : k < n) : page.holds (512 * k) 512 = true := by
  have hfits := h.fits
  have hroom := h.room
  rw [PhysPage.holds, decide_eq_true_iff, wadd, wmul_of_lt hfits, Nat.mod_eq_of_lt (by omega)]
  omega

theorem roomy_zeroed (hn : divCeil (n * 512) PAGE_SIZE * PAGE_SIZE < 2 ^ 64) :
    (PhysPage.zeroed (divCeil (n * 512) PAGE_SIZE)).Roomy n := by
  refine ⟨hn, ?_⟩
  simp only [PhysPage.zeroed, divCeil, PAGE_SIZE]
  omega

theorem copySector_spec (hsrc : src.Roomy n) (hf : f < n) (hdest : dest.Roomy m) (ht : t < m) :
    ∃ dest', copySector src dest (512 * f) (512 * t) = .ok dest' ∧ dest'.count = dest.count ∧
      dest'.sector t = src.sector f ∧ ∀ k, k ≠ t → dest'.sector k = dest.sector k := by
  refine ⟨⟨dest.count, fun i => if 512 * t ≤ i ∧ i < 512 * t + 512 then src.bytes (512 * f + (i - 512 * t))
    else dest.bytes i⟩, ?_, rfl, ?_, fun k hk => ?_⟩
  · simp only [copySector, PhysPage.readData, hsrc.holds hf, if_true, PhysPage.writeData, hdest.holds ht]
  · funext x
    simp only [PhysPage.sector]
    rw [if_pos (by omega), Nat.add_sub_cancel_left]
  · funext x
    simp only [PhysPage.sector]
    rw [if_neg (by omega)]

theorem copySectors_spec {source target sourceSector targetSector : ℕ → ℕ} {js : List ℕ} (hsrc : src.Roomy n)
    (hdest : dest.Roomy m) (hsource : ∀ j ∈ js, source j = 512 * sourceSector j ∧ sourceSector j < n)
    (htarget : ∀ j ∈ js, target j = 512 * targetSector j ∧ targetSector j < m)
    (hinj : ∀ i ∈ js, ∀ j ∈ js, targetSector i = targetSector j → i = j) :
    ∃ dest', copySectors src source target js dest = .ok dest' ∧ dest'.count = dest.count ∧
      (∀ j ∈ js, dest'.sector (targetSector j) = src.sector (sourceSector j)) ∧
      ∀ k, (∀ j ∈ js, targetSector j ≠ k) → dest'.sector k = dest.sector k := by
  induction js generalizing dest with
  | nil => exact ⟨dest, rfl, rfl, fun j hj => absurd hj not_mem_nil, fun _ _ => rfl⟩
  | cons i js ih =>
    obtain ⟨hsourceEq, hsourceLt⟩ := hsource i mem_cons_self
    obtain ⟨htargetEq, htargetLt⟩ := htarget i mem_cons_self
    obtain ⟨dest1, hcopy, hcount, hset, hkeep⟩ := copySector_spec hsrc hsourceLt hdest htargetLt
    have hdest1 : dest1.Roomy m := ⟨hcount ▸ hdest.fits, hcount ▸ hdest.room⟩
    obtain ⟨dest2, hrest, hcount2, hset2, hkeep2⟩ := ih hdest1 (fun j hj => hsource j (mem_cons_of_mem i hj))
      (fun j hj => htarget j (mem_cons_of_mem i hj))
      fun j hj j' hj' => hinj j (mem_cons_of_mem i hj) j' (mem_cons_of_mem i hj')
    refine ⟨dest2, ?_, hcount2.trans hcount, fun j hj => ?_, fun k hk => ?_⟩
    · rw [copySectors, hsourceEq, htargetEq, hcopy]
      exact hrest
    · by_cases hmem : j ∈ js
      · exact hset2 j hmem
      · obtain rfl : j = i := (mem_cons.1 hj).resolve_right hmem
        rw [hkeep2 _ fun j' hj' heq => ?_, hset]
        rw [hinj j' (mem_cons_of_mem _ hj') j mem_cons_self heq] at hj'
        exact hmem hj'
    · rw [hkeep2 k fun j hj => hk j (mem_cons_of_mem i hj), hkeep k (hk i mem_cons_self).symm]

end Buffers

namespace PartitionDrive

variable {p : PartitionDrive} {start count : ℕ} {s s' : DriveState}

/-- A partition inside the drive, with blocks of 512 to 4096 bytes and fewer than 2^64 bytes in all. -/
structure Regular (p : PartitionDrive) : Prop where
  multiple : 512 ∣ p.blockSize
  divides : p.blockSize ∣ 4096
  bytes : p.partition.sizeBlocks * p.blockSize < 2 ^ 64
  inside : p.partition.start + p.partition.sizeBlocks ≤ p.drive.inner.blockCount
  blockCount : p.drive.inner.blockCount < 2 ^ 64

variable (h : p.Regular) (hok : ¬p.drive.inner.Fails) (hcount : 1 ≤ count)
  (hin : start + count ≤ p.partition.sizeBlocks * p.sectorsPerBlock) (hmemory : count * 512 + 3 * 4096 ≤ 2 ^ 64)

def sector (p : PartitionDrive) (blocks : ℕ → ℕ → UInt8) (a : ℕ) : Sector := fun x =>
  blocks (p.partition.start + a / p.sectorsPerBlock) (512 * (a % p.sectorsPerBlock) + x.val)

theorem Regular.blockSize_eq (h : p.Regular) : p.blockSize = 512 * p.sectorsPerBlock :=
  (Nat.mul_div_cancel' h.multiple).symm

theorem Regular.sectors_bytes (h : p.Regular) : 512 * (p.partition.sizeBlocks * p.sectorsPerBlock) < 2 ^ 64 := by
  have hbytes := h.bytes
  rwa [h.blockSize_eq, Nat.mul_left_comm] at hbytes

theorem Regular.blockSize_ne (h : p.Regular) : p.blockSize ≠ 0 := by
  intro hzero
  have := h.divides
  rw [hzero] at this
  omega

theorem Regular.cases (h : p.Regular) :
    p.sectorsPerBlock = 1 ∨ p.sectorsPerBlock = 2 ∨ p.sectorsPerBlock = 4 ∨ p.sectorsPerBlock = 8 := by
  have hdvd : p.sectorsPerBlock ∣ 8 := by
    have := h.divides
    rw [h.blockSize_eq, show 4096 = 512 * 8 from rfl] at this
    exact Nat.dvd_of_mul_dvd_mul_left (by norm_num) this
  have hmem := Nat.mem_divisors.2 ⟨hdvd, by norm_num⟩
  rw [show Nat.divisors 8 = {1, 2, 4, 8} from rfl] at hmem
  simpa only [Finset.mem_insert, Finset.mem_singleton] using hmem

theorem Regular.sectorsPerBlock_bounds (h : p.Regular) : 0 < p.sectorsPerBlock ∧ p.sectorsPerBlock ≤ 8 := by
  rcases h.cases with hm | hm | hm | hm <;> omega

/-- The native blocks of a request, without wrapping. -/
structure Native (p : PartitionDrive) (start count : ℕ) : Prop where
  lower : p.nativeStart start * p.sectorsPerBlock ≤ start
  first : start < (p.nativeStart start + 1) * p.sectorsPerBlock
  upper : start + count ≤ (p.nativeStart start + p.nativeCount start count) * p.sectorsPerBlock
  last : (p.nativeStart start + p.nativeCount start count) * p.sectorsPerBlock < start + count + p.sectorsPerBlock
  inside : p.nativeStart start + p.nativeCount start count ≤ p.partition.sizeBlocks

theorem Native.room (h : p.Native start count) :
    start - p.nativeStart start * p.sectorsPerBlock + count ≤ p.nativeCount start count * p.sectorsPerBlock := by
  have hlower := h.lower
  have hupper := h.upper
  rw [Nat.add_mul] at hupper
  omega

theorem Native.small (h : p.Native start count) :
    p.nativeCount start count * p.sectorsPerBlock < count + 2 * p.sectorsPerBlock := by
  have hfirst := h.first
  have hlast := h.last
  rw [Nat.add_mul] at hfirst hlast
  omega

section

include h hin

theorem Regular.native : p.Native start count := by
  have hsectors := h.sectors_bytes
  have hsize := h.blockSize_eq
  have hstart : p.nativeStart start = start * 512 / p.blockSize := by
    rw [nativeStart, wmul_of_lt (by omega)]
  have hcount : p.nativeCount start count =
      ((start + count) * 512 + p.blockSize - 1) / p.blockSize - start * 512 / p.blockSize := by
    have hlt : (start + count) * 512 < 2 ^ 64 := by omega
    have hle : start * 512 / p.blockSize ≤ ((start + count) * 512 + p.blockSize - 1) / p.blockSize :=
      Nat.div_le_div_right (by rw [hsize]; rcases h.cases with hm | hm | hm | hm <;> rw [hm] <;> omega)
    have hadd : wmul (wadd start count) 512 = (start + count) * 512 := by
      rw [wmul, wadd, Nat.mod_eq_of_lt (show start + count < 2 ^ 64 by omega), Nat.mod_eq_of_lt hlt]
    rw [nativeCount, hadd, hstart, divCeil, wsub_of_le hle]
  -- the four block sizes make the bounds linear
  rcases h.cases with hm | hm | hm | hm <;> rw [hm] at hsize hin <;>
    exact ⟨by rw [hstart, hsize, hm]; omega, by rw [hstart, hsize, hm]; omega, by rw [hcount, hstart, hsize, hm]; omega,
      by rw [hcount, hstart, hsize, hm]; omega, by rw [hcount, hstart, hsize]; omega⟩

include hmemory

theorem Regular.native_fits : p.nativeCount start count * p.sectorsPerBlock * 512 + 4096 ≤ 2 ^ 64 := by
  have hbound : ∀ {n m : ℕ}, n < count + 2 * m → m ≤ 8 → n * 512 + 4096 ≤ 2 ^ 64 := by omega
  exact hbound (h.native hin).small h.sectorsPerBlock_bounds.2

end

section Requests

variable {offset k : ℕ}

theorem Regular.read_wp (h : p.Regular) (hok : ¬p.drive.inner.Fails) (hin : offset + count ≤ p.partition.sizeBlocks)
    (s : DriveState) :
    wp (p.drive.read p.partition offset count) s
      (fun page s' => page = p.drive.inner.smartPage (p.partition.start + offset) count s.blocks ∧
        s'.blocks = s.blocks) fun _ _ => False := by
  have hinside := h.inside
  have hcount := h.blockCount
  rw [Drive.read, if_neg (by omega), if_neg (by omega), if_neg (by omega)]
  refine wp_mono (p.drive.inner.readSmart_wp _ count s) (fun page s' hread => ⟨hread.2.1, hread.2.2.blocks⟩) ?_
  rintro _ s' ⟨hzero | hfails, -⟩
  · exact h.blockSize_ne hzero
  · exact hok hfails

theorem Regular.smartPage_sector (h : p.Regular) (hk : k < count * p.sectorsPerBlock) :
    (p.drive.inner.smartPage (p.partition.start + offset) count s.blocks).sector k =
      p.sector s.blocks (offset * p.sectorsPerBlock + k) := by
  have hpos := h.sectorsPerBlock_bounds.1
  funext x
  have hx := x.isLt
  have hbyte : (512 * k + x.val) / p.blockSize = k / p.sectorsPerBlock ∧
      (512 * k + x.val) % p.blockSize = 512 * (k % p.sectorsPerBlock) + x.val := by
    rw [h.blockSize_eq]
    rcases h.cases with hm | hm | hm | hm <;> rw [hm] <;> omega
  have hlt : 512 * k + x.val < count * p.blockSize := by
    rw [h.blockSize_eq, Nat.mul_left_comm]
    omega
  change (if 512 * k + x.val < count * p.blockSize then
    s.blocks (p.partition.start + offset + (512 * k + x.val) / p.blockSize) ((512 * k + x.val) % p.blockSize)
    else _) = _
  rw [if_pos hlt, hbyte.1, hbyte.2, sector, Nat.mul_comm offset, Nat.mul_add_div hpos, Nat.mul_add_mod, Nat.add_assoc]

theorem Regular.smartPage_roomy (h : p.Regular) (hcount : count * p.sectorsPerBlock * 512 + 4096 ≤ 2 ^ 64) (start : ℕ)
    (blocks : ℕ → ℕ → UInt8) :
    (p.drive.inner.smartPage start count blocks).Roomy (count * p.sectorsPerBlock) := by
  have hpages : (p.drive.inner.smartPage start count blocks).count =
      divCeil count (divCeil 4096 (512 * p.sectorsPerBlock)) := by
    rw [← h.blockSize_eq]
    rfl
  constructor
  · rw [hpages, PAGE_SIZE]
    rcases h.cases with hm | hm | hm | hm <;> rw [hm] at hcount ⊢ <;> simp only [divCeil] <;> omega
  · clear hcount
    rw [hpages, PAGE_SIZE]
    rcases h.cases with hm | hm | hm | hm <;> rw [hm] <;> simp only [divCeil] <;> omega

end Requests

theorem Regular.offset_eq (h : p.Regular) {b j : ℕ} (hj : b * p.sectorsPerBlock ≤ j)
    (hj' : j < p.partition.sizeBlocks * p.sectorsPerBlock) :
    wsub (wmul j 512) (wmul b p.blockSize) = 512 * (j - b * p.sectorsPerBlock) := by
  have hsectors := h.sectors_bytes
  have hb : b * (512 * p.sectorsPerBlock) = 512 * (b * p.sectorsPerBlock) := Nat.mul_left_comm ..
  rw [h.blockSize_eq, wmul, wmul, hb, Nat.mod_eq_of_lt (by omega), Nat.mod_eq_of_lt (by omega), wsub_of_le (by omega)]
  omega

section

include h hok hcount hin hmemory

theorem Regular.readSectors_wp (s : DriveState) :
    wp (p.readSectors start count) s
      (fun page s' => s'.blocks = s.blocks ∧ page.Roomy count ∧ ∀ i < count, page.sector i = p.sector s.blocks (start + i))
      fun _ _ => False := by
  have hnative := h.native hin
  have hroom := hnative.room
  have hsmall := hnative.small
  have hspb := h.sectorsPerBlock_bounds
  rw [readSectors, if_neg (by omega), if_neg h.blockSize_ne]
  refine wp_seq (h.read_wp hok hnative.inside s) (fun nativePages s1 hread => ?_) fun _ _ h => h
  obtain ⟨hpages, hs1⟩ := hread
  refine wp_seq (p.drive.inner.newPage_wp _ s1) (fun dest s2 hnew => ?_) fun _ _ h => hok h.1
  obtain ⟨hdest, hs2⟩ := hnew
  have hdestRoomy : dest.Roomy count := by
    rw [hdest, wmul_of_lt (by omega)]
    exact roomy_zeroed (by rw [divCeil, PAGE_SIZE]; omega)
  have hsource : ∀ i ∈ List.range count,
      wsub (wmul (wadd start i) 512) (wmul (p.nativeStart start) p.blockSize) =
        512 * (start + i - p.nativeStart start * p.sectorsPerBlock) ∧
      start + i - p.nativeStart start * p.sectorsPerBlock < p.nativeCount start count * p.sectorsPerBlock := by
    intro i hi
    rw [mem_range] at hi
    have hsectors := h.sectors_bytes
    have hlower := hnative.lower
    have hadd : wadd start i = start + i := by rw [wadd_of_lt (by omega)]
    rw [hadd]
    exact ⟨h.offset_eq (by omega) (by omega), by omega⟩
  have htarget : ∀ i ∈ List.range count, wmul i 512 = 512 * i ∧ i < count := by
    intro i hi
    rw [mem_range] at hi
    rw [wmul_of_lt (by omega)]
    omega
  have hpagesRoomy : nativePages.Roomy (p.nativeCount start count * p.sectorsPerBlock) :=
    hpages ▸ h.smartPage_roomy (h.native_fits hin hmemory) ..
  obtain ⟨dest', hcopy, hcount', hset, -⟩ := copySectors_spec hpagesRoomy hdestRoomy hsource htarget
    fun i _ j _ heq => heq
  refine (wp_reads_const hcopy).2 ?_
  refine ⟨?_, ⟨hcount' ▸ hdestRoomy.fits, hcount' ▸ hdestRoomy.room⟩, fun i hi => ?_⟩
  · rw [hs2]
    exact hs1
  · have hlt := (hsource i (mem_range.2 hi)).2
    have hlower := hnative.lower
    rw [hset i (mem_range.2 hi), hpages, h.smartPage_sector hlt]
    congr 1
    omega

end

section Staging

variable {src staging : PhysPage} {i : ℕ}

theorem mem_inclusive {first last j : ℕ} : j ∈ inclusive first last ↔ first ≤ j ∧ j ≤ last := by
  rw [inclusive, mem_range'_1]
  omega

def written (p : PartitionDrive) (blocks : ℕ → ℕ → UInt8) (start count : ℕ) (src : PhysPage) (a : ℕ) : Sector :=
  if start ≤ a ∧ a < start + count then src.sector (a - start) else p.sector blocks a

/-- The staging buffer is ready for the first `i` native blocks. -/
structure Staged (p : PartitionDrive) (blocks : ℕ → ℕ → UInt8) (start count : ℕ) (src : PhysPage) (i : ℕ)
    (staging : PhysPage) : Prop where
  roomy : staging.Roomy (p.nativeCount start count * p.sectorsPerBlock)
  ready : ∀ k < i * p.sectorsPerBlock,
    staging.sector k = p.written blocks start count src (p.nativeStart start * p.sectorsPerBlock + k)

/-- The arithmetic on one native block of a request does not wrap. -/
structure Block (p : PartitionDrive) (start count i : ℕ) : Prop where
  block : wadd (p.nativeStart start) i = p.nativeStart start + i
  first : wmul (p.nativeStart start + i) p.sectorsPerBlock =
    p.nativeStart start * p.sectorsPerBlock + i * p.sectorsPerBlock
  last : wsub (wadd (p.nativeStart start * p.sectorsPerBlock + i * p.sectorsPerBlock) p.sectorsPerBlock) 1 =
    p.nativeStart start * p.sectorsPerBlock + i * p.sectorsPerBlock + p.sectorsPerBlock - 1
  stop : wsub (wadd start count) 1 = start + count - 1
  room : i * p.sectorsPerBlock + p.sectorsPerBlock ≤ p.nativeCount start count * p.sectorsPerBlock
  inside : p.nativeStart start * p.sectorsPerBlock + p.nativeCount start count * p.sectorsPerBlock ≤
    p.partition.sizeBlocks * p.sectorsPerBlock

section

include h hcount hin

theorem Regular.block (hi : i < p.nativeCount start count) : p.Block start count i := by
  have hnative := h.native hin
  have hsectors := h.sectors_bytes
  have hspb := h.sectorsPerBlock_bounds
  have hinside := Nat.mul_le_mul_right p.sectorsPerBlock hnative.inside
  have hroom := Nat.mul_le_mul_right p.sectorsPerBlock (Nat.succ_le_of_lt hi)
  have hns : p.nativeStart start ≤ p.nativeStart start * p.sectorsPerBlock := Nat.le_mul_of_pos_right _ hspb.1
  have hile : i ≤ i * p.sectorsPerBlock := Nat.le_mul_of_pos_right _ hspb.1
  rw [Nat.succ_mul] at hroom
  rw [Nat.add_mul] at hinside
  refine ⟨?_, ?_, ?_, ?_, hroom, hinside⟩
  · rw [wadd_of_lt (by omega)]
  · rw [wmul, Nat.add_mul, Nat.mod_eq_of_lt (by omega)]
  · rw [wadd_of_lt (by omega), wsub_of_le (by omega)]
  · rw [wadd_of_lt (by omega), wsub_of_le (by omega)]

include hok

theorem Regular.fetchBlock_wp (hi : i < p.nativeCount start count)
    (hroomy : staging.Roomy (p.nativeCount start count * p.sectorsPerBlock)) (s : DriveState) :
    wp (p.fetchBlock start count (p.nativeStart start + i) staging) s
      (fun staging' s' => s'.blocks = s.blocks ∧ staging'.count = staging.count ∧
        (∀ k < i * p.sectorsPerBlock, staging'.sector k = staging.sector k) ∧
        ∀ k, i * p.sectorsPerBlock ≤ k → k < (i + 1) * p.sectorsPerBlock →
          ¬(start ≤ p.nativeStart start * p.sectorsPerBlock + k ∧
            p.nativeStart start * p.sectorsPerBlock + k < start + count) →
          staging'.sector k = p.sector s.blocks (p.nativeStart start * p.sectorsPerBlock + k))
      fun _ _ => False := by
  have hblock := h.block hcount hin hi
  have hnative := h.native hin
  have hspb := h.sectorsPerBlock_bounds
  have hroom := hblock.room
  have hinside := hblock.inside
  rw [fetchBlock, coveredStart, coveredEnd, hblock.first, hblock.last, hblock.stop]
  simp only [Nat.add_mul, Nat.one_mul]
  split_ifs with hpartial
  · refine wp_seq (h.read_wp hok (by have := hnative.inside; omega) s) (fun tmp s1 hread => ?_) fun _ _ h => h
    obtain ⟨htmp, hs1⟩ := hread
    have htmpRoomy : tmp.Roomy p.sectorsPerBlock := by
      have := h.smartPage_roomy (show 1 * p.sectorsPerBlock * 512 + 4096 ≤ 2 ^ 64 by omega)
        (p.partition.start + (p.nativeStart start + i)) s.blocks
      rw [Nat.one_mul, ← htmp] at this
      exact this
    have hfirst := Nat.add_mul (p.nativeStart start) i p.sectorsPerBlock
    obtain ⟨staging', hcopy, hcount', hset, hkeep⟩ := @copySectors_spec tmp staging _ _
      (fun j => wsub (wmul j 512) (wmul (p.nativeStart start + i) p.blockSize)) (p.stagingOffset start)
      (fun j => j - (p.nativeStart start + i) * p.sectorsPerBlock) (fun j => j - p.nativeStart start * p.sectorsPerBlock)
      (inclusive (p.nativeStart start * p.sectorsPerBlock + i * p.sectorsPerBlock)
        (p.nativeStart start * p.sectorsPerBlock + i * p.sectorsPerBlock + p.sectorsPerBlock - 1)) htmpRoomy hroomy
      (fun j hj => by rw [mem_inclusive] at hj; exact ⟨h.offset_eq (by omega) (by omega), by omega⟩)
      (fun j hj => by rw [mem_inclusive] at hj; exact ⟨h.offset_eq (by omega) (by omega), by omega⟩)
      fun a ha b hb heq => by rw [mem_inclusive] at ha hb; omega
    refine (wp_reads_const hcopy).2 ?_
    refine ⟨hs1, hcount', fun k hk => hkeep k fun j hj => ?_, fun k hk hk' _ => ?_⟩
    · rw [mem_inclusive] at hj
      omega
    · have hmem := hset (p.nativeStart start * p.sectorsPerBlock + k) (mem_inclusive.2 (by omega))
      rw [Nat.add_sub_cancel_left] at hmem
      rw [hmem, htmp, h.smartPage_sector (by omega)]
      congr 1
      omega
  · refine wp_pure.2 ⟨rfl, rfl, fun k _ => rfl, fun k hk hk' hnot => ?_⟩
    push Not at hpartial
    omega

theorem Regular.stageBlock_wp (hsrc : src.Roomy count) (hi : i < p.nativeCount start count)
    (hstaged : p.Staged s.blocks start count src i staging) :
    wp (p.stageBlock start count src staging i) s
      (fun staging' s' => p.Staged s.blocks start count src (i + 1) staging' ∧ s'.blocks = s.blocks) fun _ _ => False := by
  have hblock := h.block hcount hin hi
  have hroom := hblock.room
  have hinside := hblock.inside
  rw [stageBlock, hblock.block]
  refine wp_seq (h.fetchBlock_wp hok hcount hin hi hstaged.roomy s)
    (fun fetched s1 hfetch => ?_) fun _ _ h => h
  obtain ⟨hs1, hfetched, hkept, hold⟩ := hfetch
  have hroomy : fetched.Roomy (p.nativeCount start count * p.sectorsPerBlock) :=
    ⟨hfetched ▸ hstaged.roomy.fits, hfetched ▸ hstaged.roomy.room⟩
  have hmem : ∀ j, j ∈ inclusive (p.coveredStart start (p.nativeStart start + i))
      (p.coveredEnd start count (p.nativeStart start + i)) ↔
      start ≤ j ∧ j < start + count ∧ p.nativeStart start * p.sectorsPerBlock + i * p.sectorsPerBlock ≤ j ∧
        j < p.nativeStart start * p.sectorsPerBlock + i * p.sectorsPerBlock + p.sectorsPerBlock := by
    intro j
    have := h.sectorsPerBlock_bounds
    rw [mem_inclusive, coveredStart, coveredEnd, hblock.first, hblock.last, hblock.stop]
    omega
  have hsource : ∀ j ∈ inclusive (p.coveredStart start (p.nativeStart start + i))
      (p.coveredEnd start count (p.nativeStart start + i)),
      wmul (wsub j start) 512 = 512 * (j - start) ∧ j - start < count := by
    intro j hj
    obtain ⟨hj1, hj2, -⟩ := (hmem j).1 hj
    have hfits := hsrc.fits
    have hsrcRoom := hsrc.room
    rw [wsub_of_le hj1, wmul_of_lt (by omega)]
    omega
  have htarget : ∀ j ∈ inclusive (p.coveredStart start (p.nativeStart start + i))
      (p.coveredEnd start count (p.nativeStart start + i)),
      p.stagingOffset start j = 512 * (j - p.nativeStart start * p.sectorsPerBlock) ∧
        j - p.nativeStart start * p.sectorsPerBlock < p.nativeCount start count * p.sectorsPerBlock := by
    intro j hj
    obtain ⟨-, -, hj3, hj4⟩ := (hmem j).1 hj
    exact ⟨h.offset_eq (by omega) (by omega), by omega⟩
  obtain ⟨staging', hcopy, hcount', hset, hkeep⟩ := copySectors_spec hsrc hroomy hsource htarget
    fun a ha b hb heq => by
      have := (hmem a).1 ha
      have := (hmem b).1 hb
      omega
  refine (wp_reads_const hcopy).2 ?_
  refine ⟨⟨⟨hcount' ▸ hroomy.fits, hcount' ▸ hroomy.room⟩, fun k hk => ?_⟩, hs1⟩
  rw [Nat.add_mul, Nat.one_mul] at hk
  by_cases hnew : p.nativeStart start * p.sectorsPerBlock + k ∈ inclusive
      (p.coveredStart start (p.nativeStart start + i)) (p.coveredEnd start count (p.nativeStart start + i))
  · obtain ⟨hj1, hj2, -⟩ := (hmem _).1 hnew
    have := hset _ hnew
    rw [Nat.add_sub_cancel_left] at this
    rw [this, written, if_pos ⟨hj1, hj2⟩]
  · have hsame : staging'.sector k = fetched.sector k := by
      refine hkeep k fun j hj heq => hnew ?_
      have := (hmem j).1 hj
      rwa [show p.nativeStart start * p.sectorsPerBlock + k = j by omega]
    rw [hsame]
    rcases Nat.lt_or_ge k (i * p.sectorsPerBlock) with hlt | hge
    · rw [hkept k hlt, hstaged.ready k hlt]
    · have hout : ¬(start ≤ p.nativeStart start * p.sectorsPerBlock + k ∧
          p.nativeStart start * p.sectorsPerBlock + k < start + count) := fun hcov =>
        hnew ((hmem _).2 (by omega))
      rw [hold k hge (by rw [Nat.add_mul, Nat.one_mul]; exact hk) hout, written, if_neg hout]

end

end Staging

section Writing

variable {src staging : PhysPage}

theorem Regular.sector_stored (h : p.Regular) (b n a : ℕ) (staging : PhysPage) (blocks : ℕ → ℕ → UInt8) :
    p.sector (p.drive.inner.stored (p.partition.start + b) n staging blocks) a =
      if b * p.sectorsPerBlock ≤ a ∧ a < (b + n) * p.sectorsPerBlock then staging.sector (a - b * p.sectorsPerBlock)
      else p.sector blocks a := by
  have hpos := h.sectorsPerBlock_bounds.1
  have hiff : (p.partition.start + b ≤ p.partition.start + a / p.sectorsPerBlock ∧
      p.partition.start + a / p.sectorsPerBlock < p.partition.start + b + n) ↔
      b * p.sectorsPerBlock ≤ a ∧ a < (b + n) * p.sectorsPerBlock := by
    rw [← Nat.le_div_iff_mul_le hpos, ← Nat.div_lt_iff_lt_mul hpos]
    omega
  funext x
  simp only [sector, StorageDrive.stored, hiff]
  split_ifs with hin
  · have hdiv := Nat.div_add_mod a p.sectorsPerBlock
    have hge : b ≤ a / p.sectorsPerBlock := (Nat.le_div_iff_mul_le hpos).2 hin.1
    change staging.bytes ((p.partition.start + a / p.sectorsPerBlock - (p.partition.start + b)) * p.blockSize + _) = _
    rw [PhysPage.sector, h.blockSize_eq]
    congr 1
    obtain ⟨c, hc⟩ := Nat.exists_eq_add_of_le hge
    rw [hc] at hdiv ⊢
    rw [show p.partition.start + (b + c) - (p.partition.start + b) = c by omega]
    rw [Nat.mul_add, Nat.mul_comm _ b, Nat.mul_comm _ c] at hdiv
    rw [Nat.mul_left_comm c 512]
    omega
  · rfl

theorem range_split {n i : ℕ} {done rest : List ℕ} (h : List.range n = done ++ i :: rest) :
    i = done.length ∧ done.length < n := by
  have hlength := congrArg List.length h
  rw [length_range, length_append, length_cons] at hlength
  have hget : (List.range n)[done.length]? = some i := by
    rw [h, List.getElem?_append_right le_rfl, Nat.sub_self, List.getElem?_cons_zero]
  rw [List.getElem?_range (by omega)] at hget
  cases hget
  exact ⟨rfl, by omega⟩

theorem Regular.write_wp (h : p.Regular) (hok : ¬p.drive.inner.Fails) {offset : ℕ}
    (hin : offset + count ≤ p.partition.sizeBlocks) (hroomy : staging.Roomy (count * p.sectorsPerBlock)) (s : DriveState) :
    wp (p.drive.write p.partition offset count staging) s
      (fun _ s' => s'.blocks = p.drive.inner.stored (p.partition.start + offset) count staging s.blocks)
      fun _ _ => False := by
  have hinside := h.inside
  have hcount := h.blockCount
  have hfits := hroomy.fits
  have hroom := hroomy.room
  have hbytes : wmul count p.blockSize = count * p.sectorsPerBlock * 512 := by
    rw [h.blockSize_eq, wmul, Nat.mul_left_comm, Nat.mul_comm, Nat.mod_eq_of_lt (by omega)]
  have hsize : ¬wmul staging.count PAGE_SIZE < wmul count p.drive.inner.blockSize := by
    rw [show p.drive.inner.blockSize = p.blockSize from rfl, hbytes, wmul_of_lt hfits]
    omega
  rw [Drive.write, if_neg (by omega), if_neg (by omega), if_neg hsize, if_neg (by omega)]
  exact wp_mono (p.drive.inner.writeBlocks_wp _ count staging s) (fun _ s' hs' => by rw [hs']) fun _ _ h => hok h.1

section

include h hok hcount hin hmemory

theorem Regular.writeSectors_wp (hsrc : src.Roomy count) (s : DriveState) :
    wp (p.writeSectors start count src) s
      (fun _ s' => ∀ a, p.sector s'.blocks a = p.written s.blocks start count src a) fun _ _ => False := by
  have hnative := h.native hin
  have hsmall := hnative.small
  have hspb := h.sectorsPerBlock_bounds
  have hnativeBytes : wmul (p.nativeCount start count) p.blockSize =
      p.nativeCount start count * p.sectorsPerBlock * 512 := by
    rw [h.blockSize_eq, wmul, Nat.mul_left_comm, Nat.mul_comm, Nat.mod_eq_of_lt (by omega)]
  have hsrcSize : ¬wmul src.count PAGE_SIZE < wmul count 512 := by
    have hroom := hsrc.room
    rw [wmul, wmul, Nat.mod_eq_of_lt hsrc.fits, Nat.mod_eq_of_lt (by omega)]
    omega
  rw [writeSectors, if_neg (by omega), if_neg h.blockSize_ne, if_neg hsrcSize, hnativeBytes]
  refine wp_seq (p.drive.inner.newPage_wp _ s) (fun page s1 hnew => ?_) fun _ _ h => hok h.1
  obtain ⟨hpage, hs1⟩ := hnew
  have hroomy : page.Roomy (p.nativeCount start count * p.sectorsPerBlock) := by
    rw [hpage]
    exact roomy_zeroed (by rw [divCeil, PAGE_SIZE]; omega)
  have hloop := @wp_foldlM DriveFault DriveState PhysPage s1 (fun _ _ => False) ℕ (p.stageBlock start count src) page
    (List.range (p.nativeCount start count))
    (fun done staging s' => p.Staged s.blocks start count src done.length staging ∧ s'.blocks = s.blocks)
    (fun done i rest staging s' hsplit hbefore => by
      obtain ⟨hstaged, hs'⟩ := hbefore
      obtain ⟨rfl, hi⟩ := range_split hsplit
      rw [← hs'] at hstaged ⊢
      rw [length_append, length_singleton]
      exact h.stageBlock_wp hok hcount hin hsrc hi hstaged)
    ⟨⟨hroomy, fun k hk => absurd hk (by rw [length_nil]; omega)⟩, by rw [hs1]⟩
  rw [length_range] at hloop
  refine wp_seq hloop (fun staging s2 hdone => ?_) fun _ _ h => h
  obtain ⟨hstaged, hs2⟩ := hdone
  refine wp_mono (h.write_wp hok hnative.inside hstaged.roomy s2) (fun _ s' hs' a => ?_) fun _ _ h => h
  rw [hs', h.sector_stored, hs2]
  split_ifs with htouched
  · have hlt : a - p.nativeStart start * p.sectorsPerBlock < p.nativeCount start count * p.sectorsPerBlock := by
      rw [Nat.add_mul] at htouched
      omega
    rw [hstaged.ready _ hlt, Nat.add_sub_cancel' htouched.1]
  · have hout : ¬(start ≤ a ∧ a < start + count) := by
      have hlower := hnative.lower
      have hupper := hnative.upper
      omega
    rw [written, if_neg hout]

end

theorem zeroed_sector (n k : ℕ) : (PhysPage.zeroed n).sector k = Sector.zero := rfl

theorem Regular.zeroLoop_wp (h : p.Regular) (hok : ¬p.drive.inner.Fails) {n fuel sector rem : ℕ} (hn : n ≤ 0x200)
    (hpage : min rem 0x1000 ≤ n * 8) (hfuel : rem ≤ fuel)
    (hin : sector + rem ≤ p.partition.sizeBlocks * p.sectorsPerBlock) (s : DriveState) :
    wp (p.zeroLoop (.zeroed n) fuel sector rem) s
      (fun _ s' => ∀ a, p.sector s'.blocks a =
        if sector ≤ a ∧ a < sector + rem then Sector.zero else p.sector s.blocks a) fun _ _ => False := by
  induction fuel generalizing sector rem s with
  | zero =>
    refine wp_pure.2 fun a => ?_
    rw [if_neg (by omega)]
  | succ fuel ih =>
    rw [zeroLoop]
    split_ifs with hrem
    · refine wp_pure.2 fun a => ?_
      rw [if_neg (by omega)]
    have hsectors := h.sectors_bytes
    have hroomy : (PhysPage.zeroed n).Roomy (min rem 0x1000) := by
      constructor <;> simp only [PhysPage.zeroed, PAGE_SIZE] <;> omega
    refine wp_seq (h.writeSectors_wp hok (by omega) (by omega) (by omega) hroomy s) (fun _ s1 hs1 => ?_) fun _ _ h => h
    have hnext : wadd sector (min rem 0x1000) = sector + min rem 0x1000 := by
      rw [wadd_of_lt (by omega)]
    rw [hnext]
    refine wp_mono (ih (by omega) (by omega) (by omega) s1) (fun _ s' hs' a => ?_) fun _ _ h => h
    rw [hs', hs1, written, zeroed_sector]
    split_ifs <;> first | rfl | omega

section

include h hok hin

theorem Regular.zeroSectors_wp (s : DriveState) :
    wp (p.zeroSectors start count) s
      (fun _ s' => ∀ a, p.sector s'.blocks a =
        if start ≤ a ∧ a < start + count then Sector.zero else p.sector s.blocks a) fun _ _ => False := by
  rw [zeroSectors]
  split_ifs with hzero
  · refine wp_pure.2 fun a => ?_
    rw [if_neg (by omega)]
  refine wp_seq (p.drive.inner.newPage_wp _ s) (fun page s1 hnew => ?_) fun _ _ h => hok h.1
  obtain ⟨hpage, hs1⟩ := hnew
  have hpages : divCeil (min count 0x1000) 8 ≤ 0x200 ∧ min count 0x1000 ≤ divCeil (min count 0x1000) 8 * 8 := by
    rw [divCeil]
    omega
  subst hpage hs1
  exact h.zeroLoop_wp hok hpages.1 hpages.2 le_rfl hin _

end

/-- The sectors of a partition are a flat array: writes, reads and zeroing address exactly the sectors they name. -/
theorem flat_array (h : p.Regular) (hok : ∀ events, p.drive.inner.outcome events = none) (s : DriveState) :
    (∀ start count src, 1 ≤ count → start + count ≤ p.partition.sizeBlocks * p.sectorsPerBlock →
      count * 512 + 3 * 4096 ≤ 2 ^ 64 → src.Roomy count →
      ∃ s', p.writeSectors start count src s = (.ok (), s') ∧
        ∀ start' count', 1 ≤ count' → start' + count' ≤ p.partition.sizeBlocks * p.sectorsPerBlock →
          count' * 512 + 3 * 4096 ≤ 2 ^ 64 →
          ∃ page s'', p.readSectors start' count' s' = (.ok page, s'') ∧ ∀ i < count', page.sector i =
            if start ≤ start' + i ∧ start' + i < start + count then src.sector (start' + i - start)
            else p.sector s.blocks (start' + i)) ∧
    (∀ start count, 1 ≤ count → start + count ≤ p.partition.sizeBlocks * p.sectorsPerBlock →
      count * 512 + 3 * 4096 ≤ 2 ^ 64 →
      ∃ page s', p.readSectors start count s = (.ok page, s') ∧ s'.blocks = s.blocks ∧
        ∀ i < count, page.sector i = p.sector s.blocks (start + i)) ∧
    ∀ start count, start + count ≤ p.partition.sizeBlocks * p.sectorsPerBlock →
      ∃ s', p.zeroSectors start count s = (.ok (), s') ∧ ∀ a, p.sector s'.blocks a =
        if start ≤ a ∧ a < start + count then Sector.zero else p.sector s.blocks a := by
  have hok : ¬p.drive.inner.Fails := fun ⟨events, hfails⟩ => hfails (hok events)
  refine ⟨fun start count src hcount hin hmemory hsrc => ?_, fun start count hcount hin hmemory => ?_,
    fun start count hin => ?_⟩
  · obtain ⟨_, s', hrun, hs'⟩ := wp_total (h.writeSectors_wp hok hcount hin hmemory hsrc s)
    refine ⟨s', hrun, fun start' count' hcount' hin' hmemory' => ?_⟩
    obtain ⟨page, s'', hread, -, -, hpage⟩ := wp_total (h.readSectors_wp hok hcount' hin' hmemory' s')
    refine ⟨page, s'', hread, fun i hi => ?_⟩
    rw [hpage i hi, hs', written]
  · obtain ⟨page, s', hrun, hs', -, hpage⟩ := wp_total (h.readSectors_wp hok hcount hin hmemory s)
    exact ⟨page, s', hrun, hs', hpage⟩
  · obtain ⟨_, s', hrun, hs'⟩ := wp_total (h.zeroSectors_wp hok hin s)
    exact ⟨s', hrun, hs'⟩

def Regular.disk (h : p.Regular) (blocks : ℕ → ℕ → UInt8) : Disk where
  sectorCount := p.partition.sizeBlocks * p.sectorsPerBlock
  fits := by
    have := h.bytes
    rwa [h.blockSize_eq, Nat.mul_left_comm, Nat.mul_comm 512] at this
  sectors := p.sector blocks

theorem Regular.disk_eq (h : p.Regular) {blocks : ℕ → ℕ → UInt8} {d : Disk}
    (hcount : d.sectorCount = p.partition.sizeBlocks * p.sectorsPerBlock) (hsectors : ∀ a, p.sector blocks a = d.sectors a) :
    h.disk blocks = d := by
  obtain ⟨sectorCount, fits, sectors⟩ := d
  obtain rfl : p.sector blocks = sectors := funext hsectors
  cases hcount
  rfl

/-- Requests inside the partition do what they do on the `Disk`. -/
theorem Regular.refines_disk (h : p.Regular) (hok : ¬p.drive.inner.Fails) (s : DriveState)
    (hin : start + count ≤ p.partition.sizeBlocks * p.sectorsPerBlock) (hmemory : count * 512 + 3 * 4096 ≤ 2 ^ 64) :
    (1 ≤ count → ∃ page s' bytes, p.readSectors start count s = (.ok page, s') ∧ h.disk s'.blocks = h.disk s.blocks ∧
      (h.disk s.blocks).readSectors start count = some bytes ∧ ∀ i < count * 512, page.bytes i = bytes i) ∧
    (∀ src, src.Roomy count → ∃ s', p.writeSectors start count src s = (.ok (), s') ∧
      (h.disk s.blocks).writeSectors start count src = some (h.disk s'.blocks)) ∧
    ∃ s', p.zeroSectors start count s = (.ok (), s') ∧
      (h.disk s.blocks).zeroSectors start count = (true, h.disk s'.blocks) := by
  have hdisk : start + count ≤ (h.disk s.blocks).sectorCount := hin
  have hfits := (h.disk s.blocks).fits
  refine ⟨fun hcount => ?_, fun src hsrc => ?_, ?_⟩
  · obtain ⟨page, s', hrun, hs', -, hpage⟩ := wp_total (h.readSectors_wp hok hcount hin hmemory s)
    refine ⟨page, s', fun i => (p.sector s.blocks (start + i / 512)).byte (i % 512), hrun, by rw [hs'], ?_, fun i hi => ?_⟩
    · rw [Disk.readSectors, Nat.mod_eq_of_lt (by omega), if_neg (by omega), if_neg (by omega)]
      rfl
    · have hsector := congrFun (hpage (i / 512) (by omega)) ⟨i % 512, Nat.mod_lt i (by norm_num)⟩
      simp only [PhysPage.sector, Nat.div_add_mod] at hsector
      simp only [Sector.byte, dif_pos (Nat.mod_lt i (show 0 < 512 by norm_num))]
      exact hsector
  · obtain ⟨d', hwrite, hcount', hsectors⟩ := writeSectors_spec hsrc.room hdisk
    rcases Nat.eq_zero_or_pos count with rfl | hcount
    · exact ⟨s, by rw [writeSectors, if_pos rfl]; rfl, by rw [Disk.writeSectors, if_pos rfl]⟩
    obtain ⟨_, s', hrun, hs'⟩ := wp_total (h.writeSectors_wp hok hcount hin hmemory hsrc s)
    refine ⟨s', hrun, ?_⟩
    rw [hwrite, h.disk_eq hcount' fun a => ?_]
    rw [hs', written, hsectors]
    split_ifs
    · funext x
      rw [PhysPage.sector, Nat.mul_comm]
    · rfl
  · obtain ⟨d', hzero, hcount', hsectors⟩ := Disk.zeroSectors_spec hdisk
    obtain ⟨_, s', hrun, hs'⟩ := wp_total (h.zeroSectors_wp hok hin s)
    refine ⟨s', hrun, ?_⟩
    rw [hzero, h.disk_eq hcount' fun a => ?_]
    rw [hs', hsectors]
    rfl

/-- A partition of `sizeBlocks` blocks of a drive that never fails. -/
def samplePartition (blockSize start sizeBlocks : ℕ) : PartitionDrive where
  drive := ⟨⟨blockSize, start + sizeBlocks, fun _ => none⟩, []⟩
  partition := ⟨start, sizeBlocks, [], .lemonFS, Guid.zero⟩

theorem refines_disk_unaligned :
    ∃ h : (samplePartition 1024 5 4).Regular,
      (∃ page s' bytes, (samplePartition 1024 5 4).readSectors 3 2 ⟨fun _ _ => 7, []⟩ = (.ok page, s') ∧
        h.disk s'.blocks = (h.disk fun _ _ => 7) ∧ (h.disk fun _ _ => 7).readSectors 3 2 = some bytes ∧
        ∀ i < 2 * 512, page.bytes i = bytes i) ∧
      (∃ s', (samplePartition 1024 5 4).writeSectors 3 2 (.zeroed 1) ⟨fun _ _ => 7, []⟩ = (.ok (), s') ∧
        (h.disk fun _ _ => 7).writeSectors 3 2 (.zeroed 1) = some (h.disk s'.blocks)) ∧
      ∃ s', (samplePartition 1024 5 4).zeroSectors 3 2 ⟨fun _ _ => 7, []⟩ = (.ok (), s') ∧
        (h.disk fun _ _ => 7).zeroSectors 3 2 = (true, h.disk s'.blocks) := by
  have hregular : (samplePartition 1024 5 4).Regular := ⟨by decide, by decide, by decide, by decide, by decide⟩
  obtain ⟨hread, hwrite, hzero⟩ := hregular.refines_disk (fun ⟨_, hfails⟩ => hfails rfl) ⟨fun _ _ => 7, []⟩
    (show 3 + 2 ≤ _ by decide) (by decide)
  exact ⟨hregular, hread (by decide), hwrite (.zeroed 1) ⟨by decide, by decide⟩, hzero⟩

theorem flat_array_unaligned :
    (samplePartition 1024 5 4).Regular ∧
    ∃ s', (samplePartition 1024 5 4).writeSectors 3 2 (.zeroed 1) ⟨fun _ _ => 7, []⟩ = (.ok (), s') ∧
      ∃ page s'', (samplePartition 1024 5 4).readSectors 2 4 s' = (.ok page, s'') ∧
        page.sector 0 = (fun _ => 7) ∧ page.sector 1 = Sector.zero ∧ page.sector 2 = Sector.zero ∧
        page.sector 3 = fun _ => 7 := by
  have hregular : (samplePartition 1024 5 4).Regular := ⟨by decide, by decide, by decide, by decide, by decide⟩
  obtain ⟨hwrite, -, -⟩ := flat_array hregular (fun _ => rfl) ⟨fun _ _ => 7, []⟩
  obtain ⟨s', hrun, hread⟩ := hwrite 3 2 (.zeroed 1) (by decide) (by decide) (by decide) ⟨by decide, by decide⟩
  obtain ⟨page, s'', hpage, hsector⟩ := hread 2 4 (by decide) (by decide) (by decide)
  exact ⟨hregular, s', hrun, page, s'', hpage, hsector 0 (by decide), hsector 1 (by decide), hsector 2 (by decide),
    hsector 3 (by decide)⟩

/-- With 2^64 bytes or more, byte offsets wrap: a read of sector 2^55 returns sector 0. -/
theorem huge_partition_wraps :
    let p := samplePartition 512 0 (2 ^ 55 + 1)
    let s : DriveState := ⟨fun b _ => if b = 0 then 1 else 0, []⟩
    512 ∣ p.blockSize ∧ p.blockSize ∣ 4096 ∧ 2 ^ 55 + 1 ≤ p.partition.sizeBlocks * p.sectorsPerBlock ∧
      ((p.readSectors (2 ^ 55) 1 s).1.toOption.map fun page => page.bytes 0) = some 1 ∧
      p.sector s.blocks (2 ^ 55) 0 = 0 := by
  decide +kernel

end Writing

end PartitionDrive

end MaramOS
