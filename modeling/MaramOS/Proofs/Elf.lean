import MaramOS.Proofs.Mapping
import MaramOS.Sanity.Chains
import MaramOS.Spec.Elf

/-! The memory image that `load` builds. Each program header that is loaded gives one
segment, each segment is copied to frames of its own and mapped with `map_fixed`,
and the loop keeps what the segments before have got. -/

namespace MaramOS

open Prog VMemAllocator

section Headers

variable {dataLen base : ℕ} {phdr : ProgramHeader} {a b n : ℕ} {segs : List Segment}

theorem exists_of_bind_ok {ε α β : Type} {x : Except ε α} {f : α → Except ε β} {b : β} (h : (x >>= f) = .ok b) :
    ∃ a, x = .ok a ∧ f a = .ok b := by
  cases x with
  | error e => cases h
  | ok a => exact ⟨a, rfl, h⟩

theorem checkedAdd_ok (h : checkedAdd a b = .ok n) : n = a + b := by
  rw [checkedAdd] at h
  split_ifs at h
  cases h
  rfl

theorem checkedNextMultipleOf_ok (h : checkedNextMultipleOf a b = .ok n) : n = divCeil a b * b := by
  rw [checkedNextMultipleOf] at h
  split_ifs at h
  cases h
  rfl

namespace ProgramHeader

def loadable (phdr : ProgramHeader) : Bool := phdr.pType == PT_LOAD && phdr.pMemsz != 0

/-- The first address of the segment that a header describes. -/
def addr (base : ℕ) (phdr : ProgramHeader) : ℕ := base + phdr.pVaddr.toNat

def segment (base : ℕ) (phdr : ProgramHeader) : Segment where
  virtAddr := phdr.addr base
  start := phdr.addr base / PAGE_SIZE * PAGE_SIZE
  stop := divCeil (phdr.addr base + phdr.pMemsz.toNat) PAGE_SIZE * PAGE_SIZE
  fileStart := phdr.pOffset.toNat
  fileEnd := phdr.pOffset.toNat + phdr.pFilesz.toNat
  memSize := phdr.pMemsz.toNat
  pageOffset := phdr.addr base - phdr.addr base / PAGE_SIZE * PAGE_SIZE
  flags := pageFlags phdr.pFlags
  executable := pageFlags phdr.pFlags &&& PageTableFlags.NO_EXECUTE != PageTableFlags.NO_EXECUTE

/-- What is checked of a header that is loaded. -/
structure Accepted (dataLen base : ℕ) (phdr : ProgramHeader) : Prop where
  fits : phdr.pFilesz.toNat ≤ phdr.pMemsz.toNat
  nonempty : 0 < phdr.pMemsz.toNat
  inFile : phdr.pOffset.toNat + phdr.pFilesz.toNat ≤ dataLen
  lower : (phdr.segment base).stop ≤ 2 ^ 47

end ProgramHeader

theorem parseSegment_ok {seg : Option Segment} (h : parseSegment dataLen base phdr = .ok seg) :
    phdr.loadable = false ∧ seg = none ∨
    phdr.loadable = true ∧ seg = some (phdr.segment base) ∧ phdr.Accepted dataLen base := by
  rw [parseSegment] at h
  split_ifs at h with htype hsize hzero
  · cases h
    exact .inl ⟨by simp [ProgramHeader.loadable, htype], rfl⟩
  · cases h
    exact .inl ⟨by simp [ProgramHeader.loadable, hzero], rfl⟩
  obtain ⟨fileEnd, hfile, h⟩ := exists_of_bind_ok h
  cases checkedAdd_ok hfile
  split_ifs at h with hlen
  obtain ⟨virtAddr, hvirt, h⟩ := exists_of_bind_ok h
  cases checkedAdd_ok hvirt
  obtain ⟨memEnd, hmem, h⟩ := exists_of_bind_ok h
  cases checkedAdd_ok hmem
  obtain ⟨stop, hstop, h⟩ := exists_of_bind_ok h
  cases checkedNextMultipleOf_ok hstop
  split_ifs at h with hend
  cases h
  refine .inr ⟨by simpa [ProgramHeader.loadable, hzero] using htype, rfl, ?_, ?_, Nat.not_lt.1 hlen, Nat.not_lt.1 hend⟩
  · exact Nat.not_lt.1 hsize
  · exact Nat.pos_of_ne_zero fun h0 => hzero (UInt64.toNat_inj.1 h0)

theorem collectSegments_ok {phdrs : List ProgramHeader} (h : collectSegments dataLen base phdrs = .ok segs) :
    segs = (phdrs.filter ProgramHeader.loadable).map (ProgramHeader.segment base) ∧
    ∀ phdr ∈ phdrs.filter ProgramHeader.loadable, phdr.Accepted dataLen base := by
  induction phdrs generalizing segs with
  | nil =>
    cases h
    exact ⟨rfl, fun _ hp => absurd hp List.not_mem_nil⟩
  | cons phdr phdrs ih =>
    rw [collectSegments] at h
    obtain ⟨seg, hseg, h⟩ := exists_of_bind_ok h
    obtain ⟨res, hres, h⟩ := exists_of_bind_ok h
    cases h
    obtain ⟨rfl, haccepted⟩ := ih hres
    rcases parseSegment_ok hseg with ⟨hskip, rfl⟩ | ⟨hload, rfl, hphdr⟩
    · rw [List.filter_cons_of_neg (by rw [hskip]; exact Bool.false_ne_true)]
      exact ⟨rfl, haccepted⟩
    · rw [List.filter_cons_of_pos hload]
      exact ⟨rfl, List.forall_mem_cons.2 ⟨hphdr, haccepted⟩⟩

def ElfBytes.loaded (elf : ElfBytes) : List ProgramHeader := (elf.segments.getD []).filter ProgramHeader.loadable

theorem parseSegments_ok {elf : ElfBytes} (h : parseSegments elf dataLen base = .ok segs) :
    segs = elf.loaded.map (ProgramHeader.segment base) ∧ ∀ phdr ∈ elf.loaded, phdr.Accepted dataLen base := by
  rw [parseSegments] at h
  rw [ElfBytes.loaded]
  cases hphdrs : elf.segments with
  | none =>
    rw [hphdrs] at h
    cases h
  | some phdrs =>
    rw [hphdrs] at h
    obtain ⟨res, hres, h⟩ := exists_of_bind_ok h
    split_ifs at h
    cases h
    exact collectSegments_ok hres

theorem checkNoOverlap_ok {sorted : List Segment} (h : checkNoOverlap segs = .ok sorted) : sorted.Perm segs := by
  rw [checkNoOverlap] at h
  obtain ⟨_, -, h⟩ := exists_of_bind_ok h
  cases h
  exact segs.perm_insertionSort _

theorem validateEntry_ok {entry e : ℕ} (h : validateEntry entry base segs = .ok e) :
    e = base + entry ∧ ∃ seg ∈ segs, seg.executable = true ∧ seg.virtAddr ≤ e ∧ e < seg.virtAddr + seg.memSize := by
  rw [validateEntry] at h
  obtain ⟨e', he, h⟩ := exists_of_bind_ok h
  cases checkedAdd_ok he
  dsimp only at h
  split_ifs at h with hexec
  cases h
  rw [Bool.not_eq_true, Bool.not_eq_false', List.any_eq_true] at hexec
  obtain ⟨seg, hseg, hin⟩ := hexec
  rw [Bool.and_eq_true, Bool.and_eq_true, decide_eq_true_eq, decide_eq_true_eq] at hin
  exact ⟨rfl, seg, hseg, hin.1.1, hin.1.2, hin.2⟩

end Headers

section Flags

theorem shifted_eq_one_iff (flags : UInt32) : (flags >>> 1) &&& 1 = 1 ↔ flags.toNat.testBit 1 = true := by
  rw [← UInt32.toNat_inj]
  simp [Nat.testBit, Nat.and_comm]

theorem and_one_eq_zero_iff (flags : UInt32) : flags &&& 1 = 0 ↔ flags.toNat.testBit 0 = false := by
  rw [← UInt32.toNat_inj]
  simp

theorem pageFlags_permissions (flags : UInt32) :
    ((pageFlags flags ||| PageTableFlags.PRESENT) &&& PageTableFlags.WRITABLE ≠ 0 ↔ flags.toNat.testBit 1 = true) ∧
    ((pageFlags flags ||| PageTableFlags.PRESENT) &&& PageTableFlags.NO_EXECUTE = 0 ↔ flags.toNat.testBit 0 = true) ∧
    (pageFlags flags ||| PageTableFlags.PRESENT) &&& PageTableFlags.USER_ACCESSIBLE ≠ 0 := by
  rw [pageFlags, ← shifted_eq_one_iff, ← Bool.not_eq_false, ← and_one_eq_zero_iff]
  split_ifs with hw hx hx
  · exact ⟨iff_of_true (by decide) hw, iff_of_false (by decide) (not_not.2 hx), by decide⟩
  · exact ⟨iff_of_true (by decide) hw, iff_of_true (by decide) hx, by decide⟩
  · exact ⟨iff_of_false (by decide) hw, iff_of_false (by decide) (not_not.2 hx), by decide⟩
  · exact ⟨iff_of_false (by decide) hw, iff_of_true (by decide) hx, by decide⟩

theorem executable_iff (base : ℕ) (phdr : ProgramHeader) :
    (phdr.segment base).executable = true ↔ phdr.pFlags.toNat.testBit 0 = true := by
  simp only [ProgramHeader.segment, pageFlags]
  rw [← Bool.not_eq_false (phdr.pFlags.toNat.testBit 0), ← and_one_eq_zero_iff]
  split_ifs with hw hx hx
  · exact iff_of_false (by decide) (not_not.2 hx)
  · exact iff_of_true (by decide) hx
  · exact iff_of_false (by decide) (not_not.2 hx)
  · exact iff_of_true (by decide) hx

end Flags

section Pages

variable {pool : FramePool} {m m' : PhysMem} {count : ℕ} {run : FrameRun}

structure FreshRun (m : PhysMem) (count : ℕ) (run : FrameRun) (m' : PhysMem) : Prop where
  size : run.count = count
  aligned : PAGE_SIZE ∣ run.phys
  live : m'.live = run :: m.live
  zeroed : ∀ a, run.phys ≤ a ∧ a < run.phys + count * PAGE_SIZE → m'.bytes a = 0
  others : ∀ old ∈ m.live, ∀ a, old.phys ≤ a ∧ a < old.phys + old.count * PAGE_SIZE →
    ¬(run.phys ≤ a ∧ a < run.phys + count * PAGE_SIZE) ∧ m'.bytes a = m.bytes a

theorem newPage_wp (pool : FramePool) (count : ℕ) (m : PhysMem) :
    wp (pool.newPage count) m (fun run m' => FreshRun m count run m') fun _ _ => True := by
  cases hphys : pool.allocRange m.live count with
  | none =>
    simp only [wp, FramePool.newPage, hphys]
  | some phys =>
    simp only [wp, FramePool.newPage, hphys]
    refine ⟨rfl, pool.aligned _ _ _ hphys, rfl, fun a ha => if_pos ha, fun old hold a ha => ?_⟩
    have hapart : ¬(phys ≤ a ∧ a < phys + count * PAGE_SIZE) := fun hin => pool.unused _ _ _ hphys old hold a hin ha
    exact ⟨hapart, if_neg hapart⟩

theorem wp_inSpace {α : Type} {x : VMem α} {s : LoadState} {Q : α → LoadState → Prop} {E : KernelFault → LoadState → Prop} :
    wp (inSpace x) s Q E ↔
      wp x s.space (fun a t => Q a { s with space := t }) fun e t => E (.ofMemoryFault e) { s with space := t } :=
  wp_zoom.trans wp_mapError

end Pages

section Segments

variable {pool : FramePool} {data : List UInt8} {active : PageTable} {seg : Segment} {done : List Segment} {s : LoadState}
  {phys : ℕ} {m : PhysMem}

/-- The byte at an offset into the pages of a segment. -/
def Segment.byte (seg : Segment) (data : List UInt8) (i : ℕ) : UInt8 :=
  if seg.pageOffset ≤ i ∧ i < seg.pageOffset + (seg.fileEnd - seg.fileStart) then
    data.getD (seg.fileStart + (i - seg.pageOffset)) 0
  else 0

/-- The frames from `phys` on hold the bytes of a segment, and its pages are mapped to them. -/
structure Placed (data : List UInt8) (seg : Segment) (phys : ℕ) (s : LoadState) : Prop where
  live : ⟨phys, divCeil (seg.stop - seg.start) PAGE_SIZE⟩ ∈ s.memory.live
  bytes : ∀ i < seg.stop - seg.start, s.memory.bytes (phys + i) = seg.byte data i
  mapped : Mapped seg.start phys (seg.stop - seg.start) (seg.flags ||| PageTableFlags.PRESENT) s.space
  whole : Whole seg.region s.space

/-- The loop of `load` has mapped the segments `done`. -/
structure Loading (data : List UInt8) (active : PageTable) (done : List Segment) (s : LoadState) : Prop where
  separate : Separate {w | ∃ seg ∈ done, w ∈ seg.region.addresses} s.space
  placed : ∀ seg ∈ done, ∃ phys, Placed data seg phys s
  apart : done.Pairwise fun a b => Disjoint a.region.addresses b.region.addresses
  others : ∀ w, (∀ seg ∈ done, w % 2 ^ 48 ∉ seg.region.addresses) →
    s.space.pageTable.lookup w = (userTable active).lookup w

theorem Placed.keep (h : Placed data seg phys s) (hlower : seg.region.addresses ⊆ Set.Iio (2 ^ 47)) {s' : LoadState}
    (hlive : ∀ run ∈ s.memory.live, run ∈ s'.memory.live ∧ ∀ a, run.phys ≤ a ∧ a < run.phys + run.count * PAGE_SIZE →
      s'.memory.bytes a = s.memory.bytes a)
    (hlookup : ∀ w, w % 2 ^ 48 ∈ seg.region.addresses → s'.space.pageTable.lookup w = s.space.pageTable.lookup w) :
    Placed data seg phys s' := by
  obtain ⟨hmem, hsame⟩ := hlive _ h.live
  refine ⟨hmem, fun i hi => ?_, h.mapped.congr fun i hi => hlookup _ ?_, fun w k x hw hfound => ?_⟩
  · have hroom : seg.stop - seg.start ≤ divCeil (seg.stop - seg.start) PAGE_SIZE * PAGE_SIZE := le_divCeil_mul (by decide)
    rw [hsame _ ⟨by simp only; omega, by simp only; omega⟩]
    exact h.bytes i hi
  · have hin : seg.start + i ∈ seg.region.addresses := ⟨Nat.le_add_right _ _, Nat.add_lt_add_left hi _⟩
    have hlt : seg.start + i < 2 ^ 47 := hlower hin
    rwa [Nat.mod_eq_of_lt (by omega)]
  · rw [hlookup w hw] at hfound
    exact h.whole w k x hw hfound

theorem copied_byte {count : ℕ} {run : FrameRun} {m0 : PhysMem} (hfresh : FreshRun m0 count run m)
    (hfile : seg.fileStart ≤ seg.fileEnd ∧ seg.fileEnd ≤ data.length) {src : List UInt8}
    (hsrc : src = (data.drop seg.fileStart).take (seg.fileEnd - seg.fileStart)) {i : ℕ} (hi : i < count * PAGE_SIZE) :
    (m.write (run.phys + seg.pageOffset) src.length fun i => src.getD i 0).bytes (run.phys + i) = seg.byte data i := by
  have hlen : src.length = seg.fileEnd - seg.fileStart := by
    rw [hsrc, List.length_take, List.length_drop]
    omega
  rw [PhysMem.write, Segment.byte]
  dsimp only
  split_ifs with hin hin' hin'
  · have hoff : run.phys + i - (run.phys + seg.pageOffset) = i - seg.pageOffset := by omega
    rw [hoff, hsrc, List.getD_eq_getElem?_getD, List.getD_eq_getElem?_getD, List.getElem?_take_of_lt (by omega),
      List.getElem?_drop]
  · omega
  · omega
  · exact hfresh.zeroed _ ⟨by omega, by omega⟩

theorem Loading.mapSegment [Mapper] [Mapper.PartialMap] (h : Loading data active done s) (hseg : seg.start < seg.stop) :
    wp (mapSegment pool data seg) s (fun _ s' => Loading data active (done ++ [seg]) s') fun _ _ => True := by
  rw [MaramOS.mapSegment]
  refine wp_bind.2 (wp_zoom.2 (wp_mono (newPage_wp pool _ s.memory) (fun run m₁ hfresh => ?_) fun _ _ _ => trivial))
  split_ifs with hfile
  · exact wp_fail.2 trivial
  rw [not_or, Nat.not_lt, Nat.not_lt] at hfile
  dsimp only
  split_ifs with hroom
  · exact wp_fail.2 trivial
  refine wp_bind.2 (wp_zoom.2 (wp_modify.2 (wp_bind.2 (wp_inSpace.2 (wp_virtAddr (fun _ => ?_) fun _ => trivial)))))
  refine wp_bind.2 (wp_inSpace.2 ?_)
  dsimp only
  set m₂ := m₁.write (run.phys + seg.pageOffset) ((data.drop seg.fileStart).take (seg.fileEnd - seg.fileStart)).length
    fun i => ((data.drop seg.fileStart).take (seg.fileEnd - seg.fileStart)).getD i 0 with hm2
  have hseparate := h.separate.mapFixed_wp seg.region run.phys seg.flags
  rcases hrun : mapFixed seg.region run.phys seg.flags s.space with ⟨e | _, space⟩
  · rw [Segment.region] at hrun
    simp only [wp, hrun]
  refine wp_of_run hrun (wp_pure.2 ?_)
  have hseparate' := wp_ok hseparate hrun
  have hfixed := h.separate.fixed (by simp only [Segment.region]; omega) hfresh.aligned hrun
  have hapart : ∀ old ∈ done, Disjoint old.region.addresses seg.region.addresses := by
    intro old hold
    have hsub : old.region.addresses ⊆ {w | ∃ seg ∈ done, w ∈ seg.region.addresses} := fun w hw => ⟨old, hold, hw⟩
    exact (h.separate.disjoint.mono hfixed.free hsub).symm
  have hmemory : ∀ old ∈ s.memory.live, old ∈ m₂.live ∧ ∀ a, old.phys ≤ a ∧ a < old.phys + old.count * PAGE_SIZE →
      m₂.bytes a = s.memory.bytes a := by
    intro old hold
    refine ⟨?_, fun a ha => ?_⟩
    · show old ∈ m₁.live
      rw [hfresh.live]
      exact List.mem_cons_of_mem _ hold
    · obtain ⟨hout, hsame⟩ := hfresh.others old hold a ha
      rw [← hsame]
      exact if_neg fun hin => hout ⟨by omega, by omega⟩
  refine ⟨?_, fun seg' hseg' => ?_, ?_, fun w hw => ?_⟩
  · have howned : {w | ∃ seg' ∈ done ++ [seg], w ∈ seg'.region.addresses} =
        {w | ∃ seg' ∈ done, w ∈ seg'.region.addresses} ∪ seg.region.addresses := by
      ext w
      simp [or_and_right, exists_or]
    rw [howned]
    exact hseparate'
  · rcases List.mem_append.1 hseg' with hold | hnew
    · obtain ⟨phys, hplaced⟩ := h.placed seg' hold
      refine ⟨phys, hplaced.keep (fun w hw => h.separate.lower ⟨seg', hold, hw⟩) hmemory fun w hw => ?_⟩
      exact hfixed.others w (Set.disjoint_left.1 (hapart seg' hold) hw)
    · cases List.mem_singleton.1 hnew
      have hcount : divCeil (seg.stop - seg.start) PAGE_SIZE * PAGE_SIZE ≥ seg.stop - seg.start := le_divCeil_mul (by decide)
      refine ⟨run.phys, ?_, fun i hi => copied_byte hfresh hfile rfl (by omega), hfixed.mapped, hfixed.whole⟩
      show _ ∈ m₁.live
      rw [hfresh.live, ← hfresh.size]
      exact List.mem_cons_self
  · refine List.pairwise_append.2 ⟨h.apart, List.pairwise_singleton _ _, fun old hold new hnew => ?_⟩
    cases List.mem_singleton.1 hnew
    exact hapart old hold
  · rw [List.forall_mem_append] at hw
    rw [hfixed.others w (hw.2 seg (List.mem_singleton_self _))]
    exact h.others w hw.1

theorem mapSegments_ok [Mapper] [Mapper.PartialMap] {grants : List (Option ℕ)} {segs : List Segment}
    (hsegs : ∀ seg ∈ segs, seg.start < seg.stop) {m' : PhysMem} {space : VMemAllocator} {pages : List FrameRun}
    (hrun : mapSegments pool active grants data segs m = (.ok (space, pages), m')) :
    Loading data active segs ⟨m', space⟩ := by
  rw [mapSegments] at hrun
  obtain ⟨page, m₁, -, hrun⟩ := run_bind_ok hrun
  have hstart : Loading data active [] ⟨m₁, newUserAllocator active ⟨grants, [], []⟩⟩ := by
    have hseparate := (UserRun.start : UserRun Bounded active grants _ ∅).separate
    refine ⟨?_, fun _ hseg => absurd hseg List.not_mem_nil, .nil, fun _ _ => rfl⟩
    simpa using hseparate
  have hloop : wp (segs.mapM (mapSegment pool data)) ⟨m₁, newUserAllocator active ⟨grants, [], []⟩⟩
      (fun _ s' => Loading data active segs s') fun _ _ => True := by
    refine wp_mapM segs (fun done _ s => Loading data active done s) (fun done seg rest _ s hsplit hs => ?_) hstart
    exact hs.mapSegment (hsegs seg (hsplit ▸ List.mem_append_right done List.mem_cons_self))
  rcases hmap : segs.mapM (mapSegment pool data) ⟨m₁, newUserAllocator active ⟨grants, [], []⟩⟩ with ⟨e | pages', s'⟩
  · simp only [hmap] at hrun
    cases hrun
  · simp only [hmap] at hrun
    cases hrun
    have hloaded := wp_ok hloop hmap
    exact hloaded

end Segments

section Load

variable {pool : FramePool} {parse : List UInt8 → Option ElfBytes} {active : PageTable} {grants : List (Option ℕ)}
  {fs : FileSystem} {path : Path} {m m' : PhysMem} {bin : LoadedBinary} {elf : ElfBytes} {data : List UInt8} {base : ℕ}
  {phdr : ProgramHeader} {k : ℕ} {α : Type}

structure Image (active : PageTable) (elf : ElfBytes) (data : List UInt8) (base : ℕ) (bin : LoadedBinary)
    (memory : PhysMem) :
    Prop where
  contents : ∀ phdr ∈ elf.loaded, ∀ k < phdr.pMemsz.toNat, ∃ phys,
    bin.addressSpace.pageTable.translate (phdr.addr base + k) = some phys ∧
    (k < phdr.pFilesz.toNat → data[phdr.pOffset.toNat + k]? = some (memory.bytes phys)) ∧
    (phdr.pFilesz.toNat ≤ k → memory.bytes phys = 0)
  permissions : ∀ phdr ∈ elf.loaded, ∀ k < phdr.pMemsz.toNat, ∃ level page,
    bin.addressSpace.pageTable.lookup (phdr.addr base + k) = some (level, page) ∧
    (page.flags &&& PageTableFlags.WRITABLE ≠ 0 ↔ phdr.pFlags.toNat.testBit 1 = true) ∧
    (page.flags &&& PageTableFlags.NO_EXECUTE = 0 ↔ phdr.pFlags.toNat.testBit 0 = true) ∧
    page.flags &&& PageTableFlags.USER_ACCESSIBLE ≠ 0
  /-- No page, of whatever size, holds addresses of two segments. -/
  apart : elf.loaded.Pairwise fun p q => ∀ i < p.pMemsz.toNat, ∀ j < q.pMemsz.toNat, ∀ level page,
    bin.addressSpace.pageTable.lookup (p.addr base + i) = some (level, page) →
    ¬SamePage level (q.addr base + j) (p.addr base + i)
  /-- A page is one of a segment, below 2^47, or one of the kernel. -/
  lower : ∀ w level page, bin.addressSpace.pageTable.lookup w = some (level, page) →
    (∃ phdr ∈ elf.loaded, ∀ v, SamePage level v w →
      v % 2 ^ 48 ∈ (phdr.segment base).region.addresses ∧ v % 2 ^ 48 < 2 ^ 47) ∨
    2 ^ 47 ≤ w % 2 ^ 48 ∧ active.lookup w = some (level, page)
  entry : bin.entry = base + elf.ehdr.eEntry.toNat ∧ ∃ phdr ∈ elf.loaded, phdr.pFlags.toNat.testBit 0 = true ∧
    phdr.addr base ≤ bin.entry ∧ bin.entry < phdr.addr base + phdr.pMemsz.toNat

theorem ProgramHeader.segment_addr (base : ℕ) (phdr : ProgramHeader) (k : ℕ) :
    (phdr.segment base).start + ((phdr.segment base).pageOffset + k) = phdr.addr base + k := by
  simp only [segment, PAGE_SIZE]
  omega

theorem ProgramHeader.segment_room (base : ℕ) (phdr : ProgramHeader) (hk : k < phdr.pMemsz.toNat) :
    (phdr.segment base).pageOffset + k < (phdr.segment base).stop - (phdr.segment base).start := by
  have hend : phdr.addr base + phdr.pMemsz.toNat ≤ (phdr.segment base).stop := le_divCeil_mul (by decide)
  have haddr := phdr.segment_addr base k
  omega

theorem ProgramHeader.addr_mem (base : ℕ) (phdr : ProgramHeader) (hk : k < phdr.pMemsz.toNat) :
    phdr.addr base + k ∈ (phdr.segment base).region.addresses := by
  have haddr := phdr.segment_addr base k
  have hroom := phdr.segment_room base hk
  exact ⟨by simp only [Segment.region]; omega, by simp only [Segment.region]; omega⟩

theorem ProgramHeader.Accepted.byte (h : phdr.Accepted data.length base) (k : ℕ) :
    (k < phdr.pFilesz.toNat →
      data[phdr.pOffset.toNat + k]? = some ((phdr.segment base).byte data ((phdr.segment base).pageOffset + k))) ∧
    (phdr.pFilesz.toNat ≤ k → (phdr.segment base).byte data ((phdr.segment base).pageOffset + k) = 0) := by
  have hsize : (phdr.segment base).fileEnd - (phdr.segment base).fileStart = phdr.pFilesz.toNat := Nat.add_sub_cancel_left ..
  have hfile := h.inFile
  rw [Segment.byte, hsize]
  refine ⟨fun hk => ?_, fun hk => if_neg (by omega)⟩
  rw [if_pos ⟨by omega, by omega⟩, Nat.add_sub_cancel_left]
  show _ = some (data.getD (phdr.pOffset.toNat + k) 0)
  rw [List.getD_eq_getElem?_getD, List.getElem?_eq_getElem (by omega), Option.getD_some]

theorem userTable_lookup {w level : ℕ} {page : MappedPage} (h : (userTable active).lookup w = some (level, page)) :
    2 ^ 47 ≤ w % 2 ^ 48 ∧ active.lookup w = some (level, page) := by
  by_cases hindex : (pageIndex w 3).val < 256
  · rw [PageTable.lookup, userTable, if_pos hindex, RadixTree.find_empty] at h
    cases h
  · rw [PageTable.lookup, userTable, if_neg hindex] at h
    refine ⟨?_, h⟩
    simp only [pageIndex, pageSize] at hindex
    omega

theorem Loading.image {segs : List Segment} {space : VMemAllocator} {pages : List FrameRun} {entry : ℕ}
    (h : Loading data active segs ⟨m, space⟩) (hperm : segs.Perm (elf.loaded.map (ProgramHeader.segment base)))
    (haccepted : ∀ phdr ∈ elf.loaded, phdr.Accepted data.length base)
    (hentry : validateEntry elf.ehdr.eEntry.toNat base segs = .ok entry) :
    Image active elf data base ⟨entry, space, pages⟩ m := by
  have hmem : ∀ phdr ∈ elf.loaded, phdr.segment base ∈ segs := fun phdr hphdr =>
    hperm.mem_iff.2 (List.mem_map_of_mem hphdr)
  have hof : ∀ seg ∈ segs, ∃ phdr ∈ elf.loaded, phdr.segment base = seg := fun seg hseg =>
    List.mem_map.1 (hperm.mem_iff.1 hseg)
  refine ⟨fun phdr hphdr k hk => ?_, fun phdr hphdr k hk => ?_, ?_, fun w level page hfound => ?_, ?_⟩
  · obtain ⟨phys, hplaced⟩ := h.placed _ (hmem phdr hphdr)
    have hroom := phdr.segment_room base hk
    have hsent := hplaced.mapped.translate hroom
    rw [phdr.segment_addr base k] at hsent
    refine ⟨_, hsent, ?_⟩
    rw [hplaced.bytes _ hroom]
    exact (haccepted phdr hphdr).byte k
  · obtain ⟨phys, hplaced⟩ := h.placed _ (hmem phdr hphdr)
    obtain ⟨level, page, hfound, hflags⟩ := hplaced.mapped.found (phdr.segment_room base hk)
    rw [phdr.segment_addr base k] at hfound
    refine ⟨level, page, hfound, ?_⟩
    rw [hflags]
    exact pageFlags_permissions phdr.pFlags
  · have hpairs := (hperm.pairwise_iff fun hd => hd.symm).1 h.apart
    rw [List.pairwise_map] at hpairs
    refine hpairs.imp_of_mem fun {p q} hp hq hdisj i hi j hj level page hfound hsame => ?_
    obtain ⟨phys, hplaced⟩ := h.placed _ (hmem p hp)
    have hlower : ∀ phdr ∈ elf.loaded, ∀ w ∈ (phdr.segment base).region.addresses, w % 2 ^ 48 = w :=
      fun phdr hphdr w hw => by
      have hlt : w < 2 ^ 47 := h.separate.lower ⟨_, hmem phdr hphdr, hw⟩
      exact Nat.mod_eq_of_lt (by omega)
    have hpi := p.addr_mem base hi
    have hqj := q.addr_mem base hj
    have hpi' : (p.addr base + i) % 2 ^ 48 ∈ (p.segment base).region.addresses := by
      rw [hlower p hp _ hpi]
      exact hpi
    -- the page of the first address lies in the first region
    have hin := (hplaced.whole _ level page hpi' hfound).2 _ hsame
    rw [hlower q hq _ hqj] at hin
    exact Set.disjoint_left.1 hdisj hin hqj
  · by_cases hseg : ∃ seg ∈ segs, w % 2 ^ 48 ∈ seg.region.addresses
    · obtain ⟨seg, hseg, hw⟩ := hseg
      obtain ⟨phys, hplaced⟩ := h.placed seg hseg
      obtain ⟨phdr, hphdr, rfl⟩ := hof seg hseg
      refine .inl ⟨phdr, hphdr, fun v hv => ?_⟩
      have hin := (hplaced.whole w level page hw hfound).2 v hv
      exact ⟨hin, Set.mem_Iio.1 (h.separate.lower ⟨_, hseg, hin⟩)⟩
    · rw [h.others w fun seg hin hw => hseg ⟨seg, hin, hw⟩] at hfound
      exact .inr (userTable_lookup hfound)
  · obtain ⟨heq, seg, hseg, hexec, hfirst, hlast⟩ := validateEntry_ok hentry
    obtain ⟨phdr, hphdr, rfl⟩ := hof seg hseg
    exact ⟨heq, phdr, hphdr, (executable_iff base phdr).1 hexec, hfirst, hlast⟩

theorem mapError_ok {ε δ : Type} {x : Except ε α} {f : ε → δ} {a : α} (h : x.mapError f = .ok a) : x = .ok a := by
  cases x with
  | error e => cases h
  | ok b =>
    cases h
    rfl

theorem ofLoader_ok {r : Except LoaderError α} {a : α} (h : ofLoader r m = (.ok a, m')) : r = .ok a ∧ m' = m := by
  obtain ⟨hres, rfl⟩ := Prod.mk.inj h
  exact ⟨mapError_ok hres, rfl⟩

theorem readFile_ok {page : PhysPage} {dataLen : ℕ} (h : readFile pool fs path m = (.ok (page, dataLen), m')) :
    ∃ size contents, fs.fileSize path = .ok size ∧
      fs.read path ⟨divCeil size PAGE_SIZE, fun _ => 0⟩ = .ok (dataLen, contents) ∧
      page = ⟨divCeil size PAGE_SIZE, contents.bytes⟩ := by
  rw [readFile] at h
  obtain ⟨size, m₁, hsize, h⟩ := run_bind_ok h
  obtain ⟨run, m₂, -, h⟩ := run_bind_ok h
  obtain ⟨⟨n, contents⟩, m₃, hread, h⟩ := run_bind_ok h
  obtain ⟨_, m₄, -, h⟩ := run_bind_ok h
  cases h
  exact ⟨size, contents, mapError_ok (Prod.mk.inj hsize).1, mapError_ok (Prod.mk.inj hread).1, rfl⟩

theorem parseHeader_ok (h : parseHeader elf = .ok base) : base = if elf.ehdr.eType = ET_EXEC then 0 else 0x400000 := by
  rw [parseHeader] at h
  split_ifs at h with hclass hmachine htype hexec
  · cases h
    rw [if_pos hexec]
  · cases h
    rw [if_neg hexec]

theorem parsed_of_elim (h : (parse data).elim (Except.error LoaderError.parseError) Except.ok = .ok elf) :
    parse data = some elf := by
  cases hres : parse data with
  | none =>
    rw [hres] at h
    cases h
  | some elf' =>
    rw [hres] at h
    cases h
    rfl

/-- Whatever `load` accepts lies in the new address space as its program headers say. -/
theorem load_image [Mapper] [Mapper.PartialMap] (h : load pool parse active grants fs path m = (.ok bin, m')) :
    ∃ size contents dataLen elf base, fs.fileSize path = .ok size ∧
      fs.read path ⟨divCeil size PAGE_SIZE, fun _ => 0⟩ = .ok (dataLen, contents) ∧
      parse ((List.range dataLen).map contents.bytes) = some elf ∧
      base = (if elf.ehdr.eType = ET_EXEC then 0 else 0x400000) ∧
      Image active elf ((List.range dataLen).map contents.bytes) base bin m' := by
  rw [load] at h
  obtain ⟨⟨page, dataLen⟩, m₁, hread, h₁⟩ := run_bind_ok h
  obtain ⟨size, contents, hsize, hcontents, rfl⟩ := readFile_ok hread
  dsimp only at h₁
  split_ifs at h₁ with hlen
  · cases h₁
  obtain ⟨elf, m₂, hrun, h₂⟩ := run_bind_ok h₁
  obtain ⟨helf, rfl⟩ := ofLoader_ok hrun
  obtain ⟨base, m₃, hrun, h₃⟩ := run_bind_ok h₂
  obtain ⟨hbase, rfl⟩ := ofLoader_ok hrun
  obtain ⟨parsed, m₄, hrun, h₄⟩ := run_bind_ok h₃
  obtain ⟨hparsed, rfl⟩ := ofLoader_ok hrun
  obtain ⟨segs, m₅, hrun, h₅⟩ := run_bind_ok h₄
  obtain ⟨hsegs, rfl⟩ := ofLoader_ok hrun
  obtain ⟨entry, m₆, hrun, h₆⟩ := run_bind_ok h₅
  obtain ⟨hentry, rfl⟩ := ofLoader_ok hrun
  obtain ⟨⟨space, pages⟩, m₇, hmap, h₇⟩ := run_bind_ok h₆
  cases h₇
  have hparse := parsed_of_elim helf
  obtain ⟨rfl, haccepted⟩ := parseSegments_ok hparsed
  have hperm := checkNoOverlap_ok hsegs
  have hloading : Loading _ active segs ⟨m', space⟩ := mapSegments_ok (fun seg hseg => ?_) hmap
  · exact ⟨size, contents, dataLen, elf, base, hsize, hcontents, hparse, parseHeader_ok hbase,
      hloading.image hperm haccepted hentry⟩
  · obtain ⟨phdr, hphdr, rfl⟩ := List.mem_map.1 (hperm.mem_iff.1 hseg)
    have hroom := phdr.segment_room base (haccepted phdr hphdr).nonempty
    omega

def topOf (live : List FrameRun) : ℕ := live.foldr (fun run top => max top (run.phys + run.count * PAGE_SIZE)) 0

theorem le_topOf {live : List FrameRun} {run : FrameRun} (h : run ∈ live) :
    run.phys + run.count * PAGE_SIZE ≤ topOf live := by
  induction live with
  | nil => exact absurd h List.not_mem_nil
  | cons first live ih =>
    rcases List.mem_cons.1 h with rfl | h
    · exact le_max_right _ _
    · exact (ih h).trans (le_max_left _ _)

/-- An allocator that hands out the frames behind all that are in use. -/
def bumpPool : FramePool where
  allocRange live count := if count ≤ MAX_BLOCK then some (divCeil (topOf live) PAGE_SIZE * PAGE_SIZE) else none
  aligned live count phys h := by
    split_ifs at h
    cases h
    exact Dvd.intro_left _ rfl
  unused live count phys h run hrun a ha hin := by
    split_ifs at h
    cases h
    have htop := le_topOf hrun
    have hround : topOf live ≤ divCeil (topOf live) PAGE_SIZE * PAGE_SIZE := le_divCeil_mul (by decide)
    omega
  limit live count phys h := by
    split_ifs at h with hle
    exact hle

open TreeMapper

/-- A file of eight bytes, found to be a program with code at 0x1004 and data at 0x2ffe, across a page boundary. -/
def smallFile : FileSystem := ⟨fun _ => .ok 8, fun _ page => .ok (8, { page with bytes := fun i => .ofNat (i + 1) })⟩

def smallElf : ElfBytes :=
  ⟨⟨.elf64, ET_EXEC, EM_X86_64, 0x1005⟩, some [⟨PT_LOAD, 6, 3, 0x2ffe, 4, 9⟩, ⟨PT_LOAD, 5, 0, 0x1004, 3, 3⟩]⟩

theorem load_image_small :
    ∃ bin m', load bumpPool (fun _ => some smallElf) (fun _ => .empty) [some 1, some 2, some 3] smallFile ⟨[]⟩
        ⟨fun _ => 7, []⟩ = (.ok bin, m') ∧
      ∃ size contents dataLen elf base, smallFile.fileSize ⟨[]⟩ = .ok size ∧
        smallFile.read ⟨[]⟩ ⟨divCeil size PAGE_SIZE, fun _ => 0⟩ = .ok (dataLen, contents) ∧
        some smallElf = some elf ∧ base = (if elf.ehdr.eType = ET_EXEC then 0 else 0x400000) ∧
        Image (fun _ => .empty) elf ((List.range dataLen).map contents.bytes) base bin m' := by
  have hok : (load bumpPool (fun _ => some smallElf) (fun _ => .empty) [some 1, some 2, some 3] smallFile ⟨[]⟩
      ⟨fun _ => 7, []⟩).1.isOk = true := by decide +kernel
  rcases hrun : load bumpPool (fun _ => some smallElf) (fun _ => .empty) [some 1, some 2, some 3] smallFile ⟨[]⟩
      ⟨fun _ => 7, []⟩ with ⟨e | bin, m'⟩
  · rw [hrun] at hok
    cases hok
  · exact ⟨bin, m', rfl, load_image hrun⟩

end Load

end MaramOS
