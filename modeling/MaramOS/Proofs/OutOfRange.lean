import MaramOS.Proofs.Sectors

/-! Requests for sectors behind the end of the partition. Byte offsets are `u64` values, so a
request whose sectors lie 2^55 apart from those of the partition can be taken for one inside. -/

namespace MaramOS

open Prog

section Quiet

variable {α β : Type} {R : α → Prop} {T : β → Prop}

/-- The program changes no block and does not panic, and its result is as told. -/
def Quiet (x : DriveProg α) (R : α → Prop) : Prop :=
  ∀ s, wp x s (fun a s' => R a ∧ s'.blocks = s.blocks) fun e s' => e ≠ .panic ∧ s'.blocks = s.blocks

namespace Quiet

theorem fail {e : DriveFault} (he : e ≠ .panic) : Quiet (Prog.fail e) R := fun _ => wp_fail.2 ⟨he, rfl⟩

variable {a : α} {x : DriveProg α}

theorem pure (ha : R a) : Quiet (Pure.pure a) R := fun _ => wp_pure.2 ⟨ha, rfl⟩

theorem reads {r : Except DriveFault α} (hr : ∀ e, r = .error e → e ≠ .panic) : Quiet (Prog.reads fun _ => r) (r = .ok ·) :=
  fun _ => wp_reads.2 ⟨fun _ h => ⟨h, rfl⟩, fun e h => ⟨hr e h, rfl⟩⟩

theorem bind {f : α → DriveProg β} (hx : Quiet x R) (hf : ∀ a, R a → Quiet (f a) T) : Quiet (x >>= f) T := by
  intro s
  refine wp_seq (hx s) (fun a s' h => ?_) fun _ _ h => h
  exact wp_mono (hf a h.1 s') (fun _ _ h' => ⟨h'.1, h'.2.trans h.2⟩) fun _ _ h' => ⟨h'.1, h'.2.trans h.2⟩

theorem mono {R' : α → Prop} (hx : Quiet x R) (h : ∀ a, R a → R' a) : Quiet x R' := fun s =>
  wp_mono (hx s) (fun a _ ha => ⟨h a ha.1, ha.2⟩) fun _ _ he => he

theorem foldlM {f : α → β → DriveProg α} (hf : ∀ a b, R a → Quiet (f a b) R) (l : List β) (ha : R a) :
    Quiet (l.foldlM f a) R := by
  intro s
  refine wp_foldlM l (fun _ a (s' : DriveState) => R a ∧ s'.blocks = s.blocks) (fun _ b _ a s' _ h => ?_) ⟨ha, rfl⟩
  exact wp_mono (hf a b h.1 s') (fun _ _ h' => ⟨h'.1, h'.2.trans h.2⟩) fun _ _ h' => ⟨h'.1, h'.2.trans h.2⟩

theorem error (hx : Quiet x fun _ => False) (s : DriveState) :
    ∃ e s', x s = (.error e, s') ∧ e ≠ .panic ∧ s'.blocks = s.blocks := by
  cases hrun : x s with
  | mk r s' =>
    cases r with
    | ok a => exact (wp_ok (hx s) hrun).1.elim
    | error e =>
      have hquiet := wp_error (hx s) hrun
      exact ⟨e, s', rfl, hquiet⟩

variable {drive : StorageDrive} (hlimit : ∀ n events, drive.outcome (.alloc n :: events) = none → n ≤ MAX_BLOCK)
include hlimit

theorem newPage (count : ℕ) : Quiet (drive.newPage count) fun page => page = .zeroed count ∧ count ≤ MAX_BLOCK := by
  intro s
  unfold wp StorageDrive.newPage
  cases h : drive.outcome (.alloc count :: s.events) with
  | none => exact ⟨⟨rfl, hlimit _ _ h⟩, rfl⟩
  | some _ => exact ⟨DriveFault.noConfusion, rfl⟩

theorem readSmart (hsize : drive.blockSize ≠ 0) (start count : ℕ) :
    Quiet (drive.readSmart start count) fun page =>
      page.count = divCeil count (divCeil PAGE_SIZE drive.blockSize) ∧ page.count ≤ MAX_BLOCK := by
  rw [StorageDrive.readSmart_eq, if_neg hsize]
  refine (newPage hlimit _).bind fun page hpage s => ?_
  unfold wp StorageDrive.readBlocks
  cases drive.outcome (.read start count :: s.events) with
  | none =>
    rw [hpage.1]
    exact ⟨⟨rfl, hpage.2⟩, rfl⟩
  | some _ => exact ⟨DriveFault.noConfusion, rfl⟩

end Quiet

end Quiet

section Copying

variable {src dest dest' : PhysPage} {source target : ℕ → ℕ} {js : List ℕ} {f t : ℕ} {e : DriveFault}

theorem copySector_ok (h : copySector src dest f t = .ok dest') :
    src.holds f 512 = true ∧ dest.holds t 512 = true ∧ dest'.count = dest.count := by
  rw [copySector, PhysPage.readData] at h
  split_ifs at h with hsrc
  simp only [PhysPage.writeData] at h
  split_ifs at h with hdest
  cases h
  exact ⟨hsrc, hdest, rfl⟩

theorem copySector_error (h : copySector src dest f t = .error e) : e ≠ .panic := by
  rw [copySector] at h
  split at h
  · cases h
    exact DriveFault.noConfusion
  · split at h
    · cases h
      exact DriveFault.noConfusion
    · cases h

theorem copySector_of_holds (hsrc : src.holds f 512 = true) (hdest : dest.holds t 512 = true) :
    ∃ dest', copySector src dest f t = .ok dest' ∧ dest'.count = dest.count := by
  simp only [copySector, PhysPage.readData, PhysPage.writeData, hsrc, hdest, if_true]
  exact ⟨_, rfl, rfl⟩

theorem copySectors_error (h : copySectors src source target js dest = .error e) : e ≠ .panic := by
  induction js generalizing dest with
  | nil => cases h
  | cons j js ih =>
    rw [copySectors] at h
    cases hcopy : copySector src dest (source j) (target j) with
    | error e' =>
      rw [hcopy] at h
      cases h
      exact copySector_error hcopy
    | ok dest1 =>
      rw [hcopy] at h
      exact ih h

theorem copySectors_count (h : copySectors src source target js dest = .ok dest') : dest'.count = dest.count := by
  induction js generalizing dest with
  | nil =>
    cases h
    rfl
  | cons j js ih =>
    rw [copySectors] at h
    cases hcopy : copySector src dest (source j) (target j) with
    | error e =>
      rw [hcopy] at h
      cases h
    | ok dest1 =>
      rw [hcopy] at h
      exact (ih h).trans (copySector_ok hcopy).2.2

theorem copySectors_of_holds (h : ∀ j ∈ js, src.holds (source j) 512 = true ∧
      ∀ page : PhysPage, page.count = dest.count → page.holds (target j) 512 = true) :
    ∃ dest', copySectors src source target js dest = .ok dest' ∧ dest'.count = dest.count := by
  induction js generalizing dest with
  | nil => exact ⟨dest, rfl, rfl⟩
  | cons j js ih =>
    have hj := h j List.mem_cons_self
    obtain ⟨dest1, hcopy, hcount⟩ := copySector_of_holds hj.1 (hj.2 dest rfl)
    obtain ⟨dest', hrest, hcount'⟩ := @ih dest1 fun i hi => by
      rw [hcount]
      exact h i (List.mem_cons_of_mem _ hi)
    refine ⟨dest', ?_, hcount'.trans hcount⟩
    rw [copySectors, hcopy]
    exact hrest

end Copying

namespace PartitionDrive

variable {p : PartitionDrive} {start count : ℕ} {src : PhysPage}

/-- The same partition on a drive that answers otherwise. -/
def answering (p : PartitionDrive) (outcome : List DriveEvent → Option (StorageError × ℕ)) : PartitionDrive :=
  { p with drive := { p.drive with inner := { p.drive.inner with outcome := outcome } } }

/-- Whatever the drive answers, the request fails and changes nothing. No buffer is larger than a block of the
buddy allocator. -/
def Refused (p : PartitionDrive) (start count : ℕ) : Prop :=
  ∀ outcome, (∀ n events, outcome (.alloc n :: events) = none → n ≤ MAX_BLOCK) → ∀ src s, src.count ≤ MAX_BLOCK →
    (∃ e s', (p.answering outcome).readSectors start count s = (.error e, s') ∧ e ≠ .panic ∧ s'.blocks = s.blocks) ∧
    ∃ e s', (p.answering outcome).writeSectors start count src s = (.error e, s') ∧ e ≠ .panic ∧ s'.blocks = s.blocks

/-- The native block after the request, as it is computed. -/
def nativeEnd (p : PartitionDrive) (start count : ℕ) : ℕ := divCeil (wmul (wadd start count) 512) p.blockSize

/-- The wrapped byte offsets fall into the partition, and the buffers can be allocated. -/
structure Taken (p : PartitionDrive) (start count : ℕ) : Prop where
  ordered : p.nativeStart start ≤ p.nativeEnd start count
  inside : p.nativeEnd start count ≤ p.partition.sizeBlocks
  request : wmul count 512 ≤ MAX_BLOCK * PAGE_SIZE
  blocks : (p.nativeEnd start count - p.nativeStart start) * p.blockSize ≤ MAX_BLOCK * PAGE_SIZE

def Sized (p : PartitionDrive) : Prop :=
  p.blockSize = 512 ∨ p.blockSize = 1024 ∨ p.blockSize = 2048 ∨ p.blockSize = 4096

theorem nativeEnd_mul_le (h : p.Sized) (start count : ℕ) : p.nativeEnd start count * p.blockSize ≤ 2 ^ 64 := by
  rw [nativeEnd, divCeil, wmul]
  rcases h with h | h | h | h <;> rw [h] <;> omega

/-- The blocks pass the checks of `Drive` only if they are in order. -/
theorem nativeCount_checked (hsum : p.nativeStart start + p.nativeCount start count < 2 ^ 64) :
    p.nativeStart start ≤ p.nativeEnd start count ∧
      p.nativeCount start count = p.nativeEnd start count - p.nativeStart start := by
  have hcount : p.nativeCount start count = wsub (p.nativeEnd start count) (p.nativeStart start) := rfl
  have hlt : p.nativeStart start < 2 ^ 64 := Nat.lt_of_le_of_lt (Nat.div_le_self _ _) (Nat.mod_lt _ (by norm_num))
  rw [hcount, wsub] at hsum ⊢
  split_ifs at hsum ⊢ with hle
  · exact ⟨hle, rfl⟩
  · omega

theorem Sized.ne_zero (h : p.Sized) : p.blockSize ≠ 0 := by
  rcases h with h | h | h | h <;> omega

theorem blocks_fit (h : p.Sized) {n : ℕ} (hpages : divCeil n (divCeil PAGE_SIZE p.blockSize) ≤ MAX_BLOCK) :
    n * p.blockSize ≤ MAX_BLOCK * PAGE_SIZE := by
  rw [divCeil, divCeil, PAGE_SIZE, MAX_BLOCK] at hpages
  rw [PAGE_SIZE, MAX_BLOCK]
  rcases h with h | h | h | h <;> rw [h] at hpages ⊢ <;> norm_num at hpages <;> omega

section Refusal

variable (hsize : p.Sized) (hlimit : ∀ n events, p.drive.inner.outcome (.alloc n :: events) = none → n ≤ MAX_BLOCK)
include hsize hlimit

theorem read_quiet (offset n : ℕ) : Quiet (p.drive.read p.partition offset n) fun page =>
    (offset + n < 2 ^ 64 ∧ offset + n ≤ p.partition.sizeBlocks) ∧
      page.count = divCeil n (divCeil PAGE_SIZE p.blockSize) ∧ page.count ≤ MAX_BLOCK := by
  rw [Drive.read]
  split_ifs with hsum hin hstart
  · exact .fail DriveFault.noConfusion
  · exact .fail DriveFault.noConfusion
  · exact .fail DriveFault.noConfusion
  · exact (Quiet.readSmart hlimit hsize.ne_zero _ n).mono fun page h => ⟨by omega, h⟩

theorem readSectors_quiet (hnot : ¬p.Taken start count) : Quiet (p.readSectors start count) fun _ => False := by
  rw [readSectors]
  split_ifs with hcount hbs
  · exact .fail DriveFault.noConfusion
  · exact absurd hbs hsize.ne_zero
  refine (read_quiet hsize hlimit _ _).bind fun pages hpages => ?_
  obtain ⟨⟨hsum, hin⟩, hcount', hpages⟩ := hpages
  obtain ⟨hordered, heq⟩ := nativeCount_checked hsum
  rw [hcount', heq] at hpages
  refine (Quiet.newPage hlimit _).bind fun dest hdest => ?_
  refine absurd ⟨hordered, by omega, ?_, blocks_fit hsize hpages⟩ hnot
  have hrequest : wmul count 512 ≤ divCeil (wmul count 512) PAGE_SIZE * PAGE_SIZE := le_divCeil_mul (by decide)
  exact hrequest.trans (Nat.mul_le_mul_right _ hdest.2)

theorem stageBlock_quiet (staging : PhysPage) (i n : ℕ) (hstaging : staging.count = n) :
    Quiet (p.stageBlock start count src staging i) fun staging' => staging'.count = n := by
  have hcopy : ∀ (from' to' : PhysPage) source target js, to'.count = n →
      Quiet (Prog.reads fun _ => copySectors from' source target js to') fun page => page.count = n :=
    fun _ _ _ _ _ hto => (Quiet.reads fun e => copySectors_error).mono fun _ h => (copySectors_count h).trans hto
  rw [stageBlock]
  refine Quiet.bind (R := fun staging' => staging'.count = n) ?_ fun staging' h => hcopy _ _ _ _ _ h
  rw [fetchBlock]
  split_ifs
  · exact (read_quiet hsize hlimit _ _).bind fun tmp _ => hcopy _ _ _ _ _ hstaging
  · exact .pure hstaging

omit hsize hlimit in
theorem copySectors_empty {source : ℕ → ℕ} {staging staging' : PhysPage} {last : ℕ} (hstart : p.nativeStart start = 0)
    (hstaging : staging.count = 0) :
    copySectors src source (p.stagingOffset start) (inclusive 0 last) staging ≠ .ok staging' := by
  have hfirst : inclusive 0 last = 0 :: List.range' 1 last := by rw [inclusive, Nat.sub_zero, List.range'_succ]
  have hoffset : p.stagingOffset start 0 = 0 := by simp [stagingOffset, hstart, wmul, wsub]
  rw [hfirst, copySectors, hoffset]
  intro h
  cases hcopy : copySector src staging (source 0) 0 with
  | error e =>
    rw [hcopy] at h
    cases h
  | ok dest =>
    have hholds := (copySector_ok hcopy).2.1
    rw [PhysPage.holds, hstaging] at hholds
    exact absurd hholds (by decide)

theorem stageBlock_empty {staging : PhysPage} (hstart : p.nativeStart start = 0) (hstaging : staging.count = 0) :
    Quiet (p.stageBlock start count src staging 0) fun _ => False := by
  have hblock : wadd (p.nativeStart start) 0 = 0 := by rw [hstart]; rfl
  have hfirst : wmul 0 p.sectorsPerBlock = 0 := by simp [wmul]
  rw [stageBlock, hblock]
  refine Quiet.bind (R := fun staging' => staging' = staging ∧ p.coveredStart start 0 = 0) ?_ fun staging' h => ?_
  · rw [fetchBlock, hfirst]
    split_ifs with hpart
    · refine (read_quiet hsize hlimit _ _).bind fun tmp _ => (Quiet.reads fun e => copySectors_error).mono fun _ h => ?_
      exact absurd h (copySectors_empty hstart hstaging)
    · exact .pure ⟨rfl, not_not.1 (not_or.1 hpart).1⟩
  · obtain ⟨rfl, hcovered⟩ := h
    rw [hcovered]
    exact (Quiet.reads fun e => copySectors_error).mono fun _ h => copySectors_empty hstart hstaging h

theorem writeSectors_quiet (hcount : count ≠ 0) (hbuffer : src.count ≤ MAX_BLOCK) (hnot : ¬p.Taken start count) :
    Quiet (p.writeSectors start count src) fun _ => False := by
  rw [writeSectors, if_neg hcount, if_neg hsize.ne_zero]
  split_ifs with hsrc
  · exact .fail DriveFault.noConfusion
  refine (Quiet.newPage hlimit _).bind fun staging hstaging => ?_
  obtain ⟨rfl, hpages⟩ := hstaging
  by_cases hwrap : p.nativeStart start = 0 ∧ p.nativeCount start count * p.blockSize = 2 ^ 64
  · -- the size of the staging buffer has become zero
    obtain ⟨hstart, hwrap⟩ := hwrap
    have hempty : divCeil (wmul (p.nativeCount start count) p.blockSize) PAGE_SIZE = 0 := by
      rw [wmul, hwrap]
      rfl
    have hpos : p.nativeCount start count ≠ 0 := fun h => by simp [h] at hwrap
    obtain ⟨n, hn⟩ := Nat.exists_eq_add_one_of_ne_zero hpos
    refine Quiet.bind (R := fun _ => False) ?_ fun _ h => h.elim
    rw [hempty, hn, List.range_succ_eq_map, List.foldlM_cons]
    exact (stageBlock_empty hsize hlimit hstart rfl).bind fun _ h => h.elim
  refine Quiet.bind (Quiet.foldlM (fun staging i => stageBlock_quiet hsize hlimit staging i _) _ rfl) fun staging _ => ?_
  rw [Drive.write]
  split_ifs with hsum hin hroom hstart
  · exact .fail DriveFault.noConfusion
  · exact .fail DriveFault.noConfusion
  · exact .fail DriveFault.noConfusion
  · exact .fail DriveFault.noConfusion
  · obtain ⟨hordered, heq⟩ := nativeCount_checked (Nat.lt_of_not_le hsum)
    refine absurd ⟨hordered, by omega, ?_, ?_⟩ hnot
    · simp only [wmul, PAGE_SIZE, MAX_BLOCK] at hsrc hbuffer ⊢
      omega
    · have hend := nativeEnd_mul_le hsize start count
      have hsub : p.nativeCount start count * p.blockSize + p.nativeStart start * p.blockSize =
          p.nativeEnd start count * p.blockSize := by
        rw [heq, ← Nat.add_mul, Nat.sub_add_cancel hordered]
      have hlt : p.nativeCount start count * p.blockSize < 2 ^ 64 := by
        refine Nat.lt_of_le_of_ne (by omega) fun hall => hwrap ⟨?_, hall⟩
        have hzero : p.nativeStart start * p.blockSize = 0 := by omega
        exact (Nat.mul_eq_zero.1 hzero).resolve_right hsize.ne_zero
      have hpages' : p.nativeCount start count * p.blockSize ≤ MAX_BLOCK * PAGE_SIZE := by
        have hle : wmul (p.nativeCount start count) p.blockSize ≤
            divCeil (wmul (p.nativeCount start count) p.blockSize) PAGE_SIZE * PAGE_SIZE := le_divCeil_mul (by decide)
        rw [wmul_of_lt hlt] at hle hpages
        exact hle.trans (Nat.mul_le_mul_right _ hpages)
      rwa [heq] at hpages'

end Refusal

/-- The drive answers every request, and so does the allocator up to a block. -/
structure Obliging (drive : StorageDrive) : Prop where
  alloc : ∀ n events, n ≤ MAX_BLOCK → drive.outcome (.alloc n :: events) = none
  read : ∀ b n events, drive.outcome (.read b n :: events) = none
  write : ∀ b n events, drive.outcome (.write b n :: events) = none

section Acceptance

variable {m ns ne i j : ℕ}

theorem Sized.sectorsPerBlock (hsize : p.Sized) :
    (p.sectorsPerBlock = 1 ∨ p.sectorsPerBlock = 2 ∨ p.sectorsPerBlock = 4 ∨ p.sectorsPerBlock = 8) ∧
      p.blockSize = 512 * p.sectorsPerBlock := by
  rw [PartitionDrive.sectorsPerBlock]
  rcases hsize with hsize | hsize | hsize | hsize <;> rw [hsize] <;> norm_num

theorem holds_of_le {page : PhysPage} {offset : ℕ} (hcount : page.count * 4096 < 2 ^ 64)
    (h : offset + 512 ≤ page.count * 4096) : page.holds offset 512 = true := by
  rw [PhysPage.holds, decide_eq_true_iff, wadd, wmul, PAGE_SIZE, Nat.mod_eq_of_lt hcount, Nat.mod_eq_of_lt (by omega)]
  exact h

theorem sector_offsets (hm : m = 1 ∨ m = 2 ∨ m = 4 ∨ m = 8) (hne : ne * (512 * m) ≤ 2 ^ 64) (hi : ns + i < ne)
    (hj : (ns + i) * m ≤ j) (hj' : j < (ns + i) * m + m) :
    wsub (wmul j 512) (wmul (ns + i) (512 * m)) + 512 ≤ 4096 ∧
      wsub (wmul j 512) (wmul ns (512 * m)) + 512 ≤ (ne - ns) * (512 * m) := by
  have hsector : wmul j 512 = j * 512 := Nat.mod_eq_of_lt (by rcases hm with rfl | rfl | rfl | rfl <;> omega)
  have hblock : wmul (ns + i) (512 * m) = (ns + i) * (512 * m) :=
    Nat.mod_eq_of_lt (by rcases hm with rfl | rfl | rfl | rfl <;> omega)
  have hfirst : wmul ns (512 * m) = ns * (512 * m) := Nat.mod_eq_of_lt (by rcases hm with rfl | rfl | rfl | rfl <;> omega)
  rw [hsector, hblock, hfirst]
  have hle : (ns + i) * (512 * m) ≤ j * 512 ∧ ns * (512 * m) ≤ j * 512 := by
    rcases hm with rfl | rfl | rfl | rfl <;> omega
  rw [wsub_of_le hle.1, wsub_of_le hle.2]
  rcases hm with rfl | rfl | rfl | rfl <;> omega

theorem caller_offset (hm : m = 1 ∨ m = 2 ∨ m = 4 ∨ m = 8) (hns : ns = wmul start 512 / (512 * m))
    (hne : ne * (512 * m) ≤ 2 ^ 64) (hi : ns + i < ne) (hj : start ≤ j) (hj' : j < (ns + i) * m + m) :
    wmul (wsub j start) 512 + 512 ≤ (ne - ns) * (512 * m) := by
  rw [wsub_of_le hj]
  rcases hm with rfl | rfl | rfl | rfl <;> simp only [wmul] at hns ⊢ <;> omega

variable (hsize : p.Sized) (hdrive : Obliging p.drive.inner)
  (hpartition : p.partition.start + p.partition.sizeBlocks < 2 ^ 64) (h : p.Taken start count)
include hsize

include hdrive hpartition in
theorem read_one {b : ℕ} (hb : b < p.partition.sizeBlocks) (s : DriveState) :
    wp (p.drive.read p.partition b 1) s (fun page _ => page.count = 1) fun _ _ => False := by
  have hpages : divCeil 1 (divCeil PAGE_SIZE p.drive.inner.blockSize) = 1 := by
    change divCeil 1 (divCeil PAGE_SIZE p.blockSize) = 1
    rcases hsize with hsize | hsize | hsize | hsize <;> rw [hsize] <;> rfl
  have hzero : p.drive.inner.blockSize ≠ 0 := hsize.ne_zero
  rw [Drive.read, if_neg (by omega), if_neg (by omega), if_neg (by omega), StorageDrive.readSmart_eq, if_neg hzero, hpages]
  simp only [wp, StorageDrive.newPage, StorageDrive.readBlocks, bind, Prog.seq, hdrive.alloc 1 _ (by decide), hdrive.read]
  rfl

include hdrive hpartition h in
theorem stageBlock_ok {staging : PhysPage} (hsrc : src.count = MAX_BLOCK)
    (hroom : (p.nativeEnd start count - p.nativeStart start) * p.blockSize ≤ staging.count * 4096)
    (hfits : staging.count * 4096 < 2 ^ 64) (hi : p.nativeStart start + i < p.nativeEnd start count) (s : DriveState) :
    wp (p.stageBlock start count src staging i) s (fun staging' _ => staging'.count = staging.count) fun _ _ => False := by
  obtain ⟨hm, hbs⟩ := hsize.sectorsPerBlock
  have hend := nativeEnd_mul_le hsize start count
  have htotal := h.blocks
  have hinside := h.inside
  have hstart : p.nativeStart start = wmul start 512 / (512 * p.sectorsPerBlock) := by rw [nativeStart, hbs]
  rw [hbs] at hend htotal hroom
  have hwadd : wadd (p.nativeStart start) i = p.nativeStart start + i := Nat.mod_eq_of_lt (by omega)
  have hfirst : wmul (p.nativeStart start + i) p.sectorsPerBlock = (p.nativeStart start + i) * p.sectorsPerBlock := by
    rcases hm with hm | hm | hm | hm <;> rw [hm] at hend ⊢ <;> exact Nat.mod_eq_of_lt (by omega)
  have hlast : wsub (wadd ((p.nativeStart start + i) * p.sectorsPerBlock) p.sectorsPerBlock) 1 + 1 =
      (p.nativeStart start + i) * p.sectorsPerBlock + p.sectorsPerBlock := by
    have hsum : wadd ((p.nativeStart start + i) * p.sectorsPerBlock) p.sectorsPerBlock =
        (p.nativeStart start + i) * p.sectorsPerBlock + p.sectorsPerBlock := by
      rcases hm with hm | hm | hm | hm <;> rw [hm] at hend ⊢ <;> exact Nat.mod_eq_of_lt (by omega)
    have hpos : 1 ≤ p.sectorsPerBlock := by omega
    have hle : 1 ≤ (p.nativeStart start + i) * p.sectorsPerBlock + p.sectorsPerBlock := by omega
    rw [hsum, wsub_of_le hle]
    omega
  rw [stageBlock, hwadd]
  have hfetch : wp (p.fetchBlock start count (p.nativeStart start + i) staging) s
      (fun staging' _ => staging'.count = staging.count) fun _ _ => False := by
    rw [fetchBlock]
    split_ifs
    · refine wp_seq (read_one hsize hdrive hpartition (by omega) s) (fun tmp s' htmp => ?_) fun _ _ h => h
      have hcopy : ∃ dest', copySectors tmp (fun j => wsub (wmul j 512) (wmul (p.nativeStart start + i) p.blockSize))
          (p.stagingOffset start) (inclusive (wmul (p.nativeStart start + i) p.sectorsPerBlock)
            (wsub (wadd (wmul (p.nativeStart start + i) p.sectorsPerBlock) p.sectorsPerBlock) 1)) staging = .ok dest' ∧
          dest'.count = staging.count := by
        refine copySectors_of_holds fun j hj => ?_
        rw [hfirst, mem_inclusive] at hj
        obtain ⟨hpage, hstage⟩ := sector_offsets hm hend hi hj.1 (by omega)
        rw [← hbs] at hpage hstage
        have hone : tmp.count * 4096 = 4096 := by rw [htmp]
        refine ⟨holds_of_le (hone.trans_lt (by norm_num)) (hpage.trans_eq hone.symm), fun page hpage' => ?_⟩
        rw [← hbs, ← hpage'] at hroom
        exact holds_of_le (hpage' ▸ hfits) (hstage.trans hroom)
      obtain ⟨dest', hcopy, hcount⟩ := hcopy
      exact (wp_reads_const hcopy).2 hcount
    · exact wp_pure.2 rfl
  refine wp_seq hfetch (fun staging' s' hstaging => ?_) fun _ _ h => h
  have hcopy : ∃ dest', copySectors src (fun j => wmul (wsub j start) 512) (p.stagingOffset start)
      (inclusive (p.coveredStart start (p.nativeStart start + i))
        (p.coveredEnd start count (p.nativeStart start + i))) staging' =
        .ok dest' ∧ dest'.count = staging'.count := by
    refine copySectors_of_holds fun j hj => ?_
    rw [mem_inclusive, coveredStart, coveredEnd, hfirst] at hj
    have hlow : (p.nativeStart start + i) * p.sectorsPerBlock ≤ j := (le_max_left _ _).trans hj.1
    have hfrom : start ≤ j := (le_max_right _ _).trans hj.1
    have hmin := min_le_left (wsub (wadd ((p.nativeStart start + i) * p.sectorsPerBlock) p.sectorsPerBlock) 1)
      (wsub (wadd start count) 1)
    have hup : j < (p.nativeStart start + i) * p.sectorsPerBlock + p.sectorsPerBlock := by omega
    obtain ⟨-, hstage⟩ := sector_offsets hm hend hi hlow hup
    have hcaller := (caller_offset hm hstart hend hi hfrom hup).trans htotal
    rw [← hsrc] at hcaller
    refine ⟨holds_of_le (by rw [hsrc]; decide) hcaller, fun page hpage => ?_⟩
    have hsame : page.count = staging.count := hpage.trans hstaging
    rw [← hbs] at hstage hroom
    rw [← hsame] at hroom
    exact holds_of_le (hsame ▸ hfits) (hstage.trans hroom)
  obtain ⟨dest', hcopy, hcount⟩ := hcopy
  exact (wp_reads_const hcopy).2 (hcount.trans hstaging)

include hdrive hpartition h in
theorem writeSectors_ok (hcount : count ≠ 0) (hsrc : src.count = MAX_BLOCK) (s : DriveState) :
    ∃ s', p.writeSectors start count src s = (.ok (), s') := by
  suffices hwp : wp (p.writeSectors start count src) s (fun _ _ => True) fun _ _ => False by
    obtain ⟨_, s', hrun, -⟩ := wp_total hwp
    exact ⟨s', hrun⟩
  have hordered := h.ordered
  have hinside := h.inside
  have hrequest := h.request
  have htotal := h.blocks
  have hnc : p.nativeCount start count = p.nativeEnd start count - p.nativeStart start := if_pos hordered
  have hwmul : wmul (p.nativeEnd start count - p.nativeStart start) p.blockSize =
      (p.nativeEnd start count - p.nativeStart start) * p.blockSize := wmul_of_lt (htotal.trans_lt (by decide))
  have hsrcSize : wmul src.count PAGE_SIZE = MAX_BLOCK * PAGE_SIZE := by
    rw [hsrc]
    rfl
  rw [writeSectors, if_neg hcount, if_neg hsize.ne_zero, if_neg (by omega), hnc, hwmul]
  have hpages : (p.nativeEnd start count - p.nativeStart start) * p.blockSize ≤
      divCeil ((p.nativeEnd start count - p.nativeStart start) * p.blockSize) PAGE_SIZE * 4096 ∧
      divCeil ((p.nativeEnd start count - p.nativeStart start) * p.blockSize) PAGE_SIZE ≤ MAX_BLOCK := by
    rw [MAX_BLOCK, PAGE_SIZE] at htotal
    rw [divCeil, PAGE_SIZE, MAX_BLOCK]
    omega
  generalize divCeil ((p.nativeEnd start count - p.nativeStart start) * p.blockSize) PAGE_SIZE = n at hpages
  obtain ⟨hroom, hn⟩ := hpages
  have hfits : n * 4096 < 2 ^ 64 := (Nat.mul_le_mul_right _ hn).trans_lt (by decide)
  have halloc : wp (p.drive.inner.newPage n) s (fun page _ => page.count = n) fun _ _ => False := by
    simp only [wp, StorageDrive.newPage, hdrive.alloc n _ hn]
    rfl
  refine wp_seq halloc (fun staging s1 hstaging => ?_) fun _ _ h => h
  have hloop : wp ((List.range (p.nativeEnd start count - p.nativeStart start)).foldlM (p.stageBlock start count src)
    staging) s1
      (fun staging' _ => staging'.count = n) fun _ _ => False := by
    refine wp_foldlM _ (fun _ (staging : PhysPage) _ => staging.count = n)
      (fun done i rest staging s' hsplit hstaging => ?_) hstaging
    have hi : i < p.nativeEnd start count - p.nativeStart start := by
      have hmem : i ∈ List.range (p.nativeEnd start count - p.nativeStart start) := by
        rw [hsplit]
        exact List.mem_append_right _ List.mem_cons_self
      exact List.mem_range.1 hmem
    have hstage := stageBlock_ok hsize hdrive hpartition h hsrc (hstaging ▸ hroom) (hstaging ▸ hfits)
      (show p.nativeStart start + i < _ by omega) s'
    exact wp_mono hstage (fun _ _ h => h.trans hstaging) fun _ _ h => h
  refine wp_seq hloop (fun staging s2 hstaging => ?_) fun _ _ h => h
  have hbs : p.drive.inner.blockSize = p.blockSize := rfl
  have hsize' : wmul staging.count PAGE_SIZE = n * 4096 := by
    rw [hstaging]
    exact Nat.mod_eq_of_lt hfits
  rw [Drive.write, if_neg (by omega), if_neg (by omega), hbs, hwmul, hsize', if_neg (by omega), if_neg (by omega)]
  simp only [wp, StorageDrive.writeBlocks, hdrive.write]

end Acceptance

/-- A drive that answers every request, with an allocator that refuses only what is larger than a block. -/
def obliging : List DriveEvent → Option (StorageError × ℕ)
  | .alloc n :: _ => if n ≤ MAX_BLOCK then none else some (.commandFailed, 0)
  | _ => none

theorem obliging_limit (n : ℕ) (events : List DriveEvent) (h : obliging (.alloc n :: events) = none) : n ≤ MAX_BLOCK := by
  rw [obliging] at h
  split_ifs at h with hn
  exact hn

theorem obliging_drive (p : PartitionDrive) : Obliging (p.answering obliging).drive.inner :=
  ⟨fun _ _ hn => if_pos hn, fun _ _ _ => rfl, fun _ _ _ => rfl⟩

/-- A request behind the end of a partition fails and changes nothing, unless it is for no sectors at all, or its end is
2^55 or more and its wrapped byte offsets are taken for blocks of the partition. -/
theorem out_of_range_refused_iff (hsize : p.Sized) (hpartition : p.partition.start + p.partition.sizeBlocks < 2 ^ 64)
    (hout : p.partition.sizeBlocks * p.sectorsPerBlock < start + count) :
    p.Refused start count ↔ count ≠ 0 ∧ ¬(2 ^ 55 ≤ start + count ∧ p.Taken start count) := by
  have hwrap : p.Taken start count → 2 ^ 55 ≤ start + count := by
    intro h
    by_contra hlt
    obtain ⟨hm, hbs⟩ := hsize.sectorsPerBlock
    have hinside := h.inside
    rw [nativeEnd, hbs, divCeil, wmul, wadd, Nat.mod_eq_of_lt (show start + count < 2 ^ 64 by omega)] at hinside
    rcases hm with hm | hm | hm | hm <;> rw [hm] at hinside hout <;> omega
  constructor
  · intro h
    have hrun := h obliging obliging_limit ⟨MAX_BLOCK, fun _ => 0⟩ ⟨fun _ _ => 0, []⟩ le_rfl
    obtain ⟨-, e, s', hwrite, -⟩ := hrun
    refine ⟨fun hcount => ?_, fun hbad => ?_⟩
    · rw [writeSectors, if_pos hcount] at hwrite
      cases hwrite
    · obtain ⟨-, htaken⟩ := hbad
      by_cases hcount : count = 0
      · rw [writeSectors, if_pos hcount] at hwrite
        cases hwrite
      · have htaken' : (p.answering obliging).Taken start count := ⟨htaken.1, htaken.2, htaken.3, htaken.4⟩
        obtain ⟨s'', hok⟩ := @writeSectors_ok (p.answering obliging) _ _ ⟨MAX_BLOCK, fun _ => 0⟩ hsize (obliging_drive p)
          hpartition htaken' hcount rfl ⟨fun _ _ => 0, []⟩
        rw [hok] at hwrite
        cases hwrite
  · rintro ⟨hcount, hnot⟩ outcome hlimit src s hsrc
    have htaken : ¬(p.answering outcome).Taken start count := fun h =>
      hnot ⟨hwrap ⟨h.1, h.2, h.3, h.4⟩, ⟨h.1, h.2, h.3, h.4⟩⟩
    exact ⟨(@readSectors_quiet (p.answering outcome) _ _ hsize hlimit htaken).error s,
      (@writeSectors_quiet (p.answering outcome) _ _ src hsize hlimit hcount hsrc htaken).error s⟩

theorem out_of_range_refused_small :
    (samplePartition 1024 5 4).partition.sizeBlocks * (samplePartition 1024 5 4).sectorsPerBlock < 7 + 2 ∧
      (samplePartition 1024 5 4).Refused 7 2 := by
  have hout : (samplePartition 1024 5 4).partition.sizeBlocks * (samplePartition 1024 5 4).sectorsPerBlock < 7 + 2 :=
    by decide
  exact ⟨hout, (out_of_range_refused_iff (.inr (.inl rfl)) (by decide) hout).2 ⟨by decide, fun h => absurd h.1 (by decide)⟩⟩

/-- Behind a partition of four blocks, sector 2^55 is read as sector 0, and a write of 2^55 + 1 sectors changes block 0. -/
theorem out_of_range_taken :
    let p := samplePartition 512 0 4
    let s : DriveState := ⟨fun b _ => if b = 0 then 1 else 0, []⟩
    p.partition.sizeBlocks * p.sectorsPerBlock < 2 ^ 55 + 1 ∧
      ((p.readSectors (2 ^ 55) 1 s).1.toOption.map fun page => page.bytes 0) = some 1 ∧
      (p.writeSectors 0 (2 ^ 55 + 1) ⟨1, fun _ => 9⟩ s).1.toOption = some () ∧
      (p.writeSectors 0 (2 ^ 55 + 1) ⟨1, fun _ => 9⟩ s).2.blocks 0 0 = 9 ∧
      (p.writeSectors (2 ^ 55 + 1) 0 ⟨1, fun _ => 9⟩ s).1.toOption = some () := by
  decide +kernel

end PartitionDrive

end MaramOS
