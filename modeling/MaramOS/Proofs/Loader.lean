import MaramOS.Proofs.Elf
import MaramOS.Proofs.Vacant

/-! The failures of `load`, for any file. The checks of the headers leave no index out of bounds and
no region that could not be reserved, but a segment may end with the last page of the lower half,
and the address behind this page is not canonical. -/

namespace MaramOS

open List Prog VMemAllocator

section Checks

variable {parse : List UInt8 → Option ElfBytes} {data : List UInt8} {elf : ElfBytes} {base entry dataLen : ℕ}
  {segs : List Segment} {seg : Segment} {phdr : ProgramHeader}

/-- A file that passes the checks of `load`, with the segments in the order of their addresses. -/
structure Passes (parse : List UInt8 → Option ElfBytes) (data : List UInt8) (elf : ElfBytes) (base : ℕ) (segs : List Segment)
    (entry : ℕ) : Prop where
  parsed : parse data = some elf
  header : parseHeader elf = .ok base
  segments : ∃ found, parseSegments elf data.length base = .ok found ∧ checkNoOverlap found = .ok segs
  entry : validateEntry elf.ehdr.eEntry.toNat base segs = .ok entry

theorem Passes.unique {elf' : ElfBytes} {base' entry' : ℕ} {segs' : List Segment} (h : Passes parse data elf base segs entry)
    (h' : Passes parse data elf' base' segs' entry') : elf' = elf ∧ base' = base ∧ segs' = segs := by
  obtain rfl := Option.some.inj (h'.parsed.symm.trans h.parsed)
  obtain rfl := Except.ok.inj (h'.header.symm.trans h.header)
  obtain ⟨found, hfound, hsegs⟩ := h.segments
  obtain ⟨found', hfound', hsegs'⟩ := h'.segments
  obtain rfl := Except.ok.inj (hfound'.symm.trans hfound)
  exact ⟨rfl, rfl, Except.ok.inj (hsegs'.symm.trans hsegs)⟩

/-- What `validate_entry` and `map_segment` rely on: the sums do not overflow, the slices are in bounds, and the
region consists of whole pages of the lower half. -/
structure Segment.InBounds (dataLen : ℕ) (seg : Segment) : Prop where
  sum : seg.virtAddr + seg.memSize < 2 ^ 64
  order : seg.start < seg.stop
  file : seg.fileStart ≤ seg.fileEnd ∧ seg.fileEnd ≤ dataLen
  room : seg.pageOffset + (seg.fileEnd - seg.fileStart) ≤ divCeil (seg.stop - seg.start) PAGE_SIZE * PAGE_SIZE
  canonical : canonicalAddr seg.start
  paged : seg.region.Paged

theorem ProgramHeader.Accepted.inBounds (h : phdr.Accepted dataLen base) : (phdr.segment base).InBounds dataLen := by
  have hlower := h.lower
  have hend : phdr.addr base + phdr.pMemsz.toNat ≤ (phdr.segment base).stop := le_divCeil_mul (by decide)
  have hroom := phdr.segment_room base h.nonempty
  have hstop : (phdr.segment base).stop = divCeil (phdr.addr base + phdr.pMemsz.toNat) PAGE_SIZE * PAGE_SIZE := rfl
  have hstart : (phdr.segment base).start = phdr.addr base / PAGE_SIZE * PAGE_SIZE := rfl
  have hsize : pageSize 0 ∣ (phdr.segment base).stop - (phdr.segment base).start := by
    rw [hstop, hstart]
    exact Nat.dvd_sub (Dvd.intro_left _ rfl) (Dvd.intro_left _ rfl)
  refine ⟨?_, by omega, ⟨Nat.le_add_right _ _, h.inFile⟩, ?_, ?_, ?_, hsize, ?_⟩
  · show phdr.addr base + phdr.pMemsz.toNat < 2 ^ 64
    omega
  · have hwhole : divCeil ((phdr.segment base).stop - (phdr.segment base).start) PAGE_SIZE * PAGE_SIZE =
        (phdr.segment base).stop - (phdr.segment base).start := (divCeil_mul_eq_iff (by decide)).2 hsize
    have hfile : (phdr.segment base).fileEnd - (phdr.segment base).fileStart = phdr.pFilesz.toNat :=
      Nat.add_sub_cancel_left ..
    have haddr := phdr.segment_addr base 0
    have hfits := h.fits
    rw [hwhole, hfile]
    omega
  · exact canonicalAddr_of_lt (by omega)
  · exact Dvd.intro_left _ rfl
  · show (phdr.segment base).start + ((phdr.segment base).stop - (phdr.segment base).start) ≤ 2 ^ 47
    omega

theorem checkWindows_ok (h : checkWindows segs = .ok ()) (horder : ∀ seg ∈ segs, seg.start < seg.stop) :
    segs.Pairwise fun a b => a.stop ≤ b.start := by
  induction segs with
  | nil => exact .nil
  | cons a segs ih =>
    cases segs with
    | nil => exact pairwise_singleton _ _
    | cons b segs =>
      rw [checkWindows] at h
      split_ifs at h with hover
      have hrest := ih h fun seg hseg => horder seg (mem_cons_of_mem _ hseg)
      refine pairwise_cons.2 ⟨fun c hc => ?_, hrest⟩
      rcases mem_cons.1 hc with rfl | hc
      · exact Nat.not_lt.1 hover
      · have hb := horder b (mem_cons_of_mem _ mem_cons_self)
        have hbc := (pairwise_cons.1 hrest).1 c hc
        omega

section

variable (h : Passes parse data elf base segs entry)
include h

theorem Passes.perm : segs.Perm (elf.loaded.map (ProgramHeader.segment base)) := by
  obtain ⟨found, hfound, hsorted⟩ := h.segments
  rw [← (parseSegments_ok hfound).1]
  exact checkNoOverlap_ok hsorted

theorem Passes.inBounds (hseg : seg ∈ segs) : seg.InBounds data.length := by
  obtain ⟨phdr, hphdr, rfl⟩ := mem_map.1 (h.perm.mem_iff.1 hseg)
  obtain ⟨found, hfound, -⟩ := h.segments
  exact ((parseSegments_ok hfound).2 phdr hphdr).inBounds

theorem Passes.sorted : segs.Pairwise fun a b => a.stop ≤ b.start := by
  refine checkWindows_ok ?_ fun seg hseg => (h.inBounds hseg).order
  obtain ⟨found, -, hsorted⟩ := h.segments
  rw [checkNoOverlap] at hsorted
  obtain ⟨u, hwindows, hok⟩ := exists_of_bind_ok hsorted
  cases hok
  exact hwindows

end

/-- The bytes that segments take in the address space. -/
def bytesOf (segs : List Segment) : ℕ := (segs.map fun seg => seg.stop - seg.start).sum

theorem bytesOf_append (segs segs' : List Segment) : bytesOf (segs ++ segs') = bytesOf segs + bytesOf segs' := by
  rw [bytesOf, map_append, sum_append]
  rfl

theorem bytesOf_split {done rest : List Segment} (h : segs = done ++ seg :: rest) :
    bytesOf segs = bytesOf (done ++ [seg]) + bytesOf rest := by
  rw [h, append_cons, bytesOf_append]

theorem bytesOf_singleton (seg : Segment) : bytesOf [seg] = seg.region.size := sum_singleton

theorem bytesOf_le {lo hi : ℕ} (hle : lo ≤ hi) (hsorted : segs.Pairwise fun a b => a.stop ≤ b.start)
    (hin : ∀ seg ∈ segs, lo ≤ seg.start ∧ seg.start < seg.stop ∧ seg.stop ≤ hi) : lo + bytesOf segs ≤ hi := by
  induction segs generalizing lo with
  | nil => exact hle
  | cons a segs ih =>
    obtain ⟨hlo, horder, hhi⟩ := hin a mem_cons_self
    obtain ⟨hbehind, hsorted⟩ := pairwise_cons.1 hsorted
    have hrest := ih hhi hsorted fun seg hseg => ⟨hbehind seg hseg, (hin seg (mem_cons_of_mem _ hseg)).2⟩
    have hsum : bytesOf (a :: segs) = a.stop - a.start + bytesOf segs := sum_cons
    omega

end Checks

section Mapping

variable {pool : FramePool} {data : List UInt8} {active : PageTable} {grants : List (Option ℕ)} {seg : Segment}
  {done : List Segment} {s : LoadState} {m : PhysMem} {count : ℕ}

/-- Physical addresses have 52 bits, and the last frame is not handed out. -/
def FramePool.Bounded (pool : FramePool) : Prop :=
  ∀ live count phys, pool.allocRange live count = some phys → phys + count * PAGE_SIZE < 2 ^ 52

theorem newPage_rule {Q : FrameRun → PhysMem → Prop} {E : KernelFault → PhysMem → Prop}
    (hnone : pool.allocRange m.live count = none → E (.memory .outOfMemory) m)
    (hsome : ∀ phys m', pool.allocRange m.live count = some phys → m'.live = ⟨phys, count⟩ :: m.live → Q ⟨phys, count⟩ m') :
    wp (pool.newPage count) m Q E := by
  cases hphys : pool.allocRange m.live count with
  | none =>
    simp only [wp, FramePool.newPage, hphys]
    exact hnone hphys
  | some phys =>
    simp only [wp, FramePool.newPage, hphys]
    exact hsome phys _ hphys rfl

def Segment.pages (seg : Segment) : ℕ := divCeil (seg.stop - seg.start) PAGE_SIZE

theorem Segment.InBounds.pages_mul {dataLen : ℕ} (h : seg.InBounds dataLen) : seg.pages * PAGE_SIZE = seg.region.size :=
  (divCeil_mul_eq_iff (by decide)).2 h.paged.size

/-- The address space after the segments `done` have been mapped. -/
structure Ready (grants : List (Option ℕ)) (done : List Segment) (s : VMemAllocator) : Prop where
  pristine : Pristine grants (bytesOf done) s
  fits : ∀ seg ∈ done, seg.pages ≤ MAX_BLOCK
  free : ∀ v, v ∈ freeSet s ↔ v < 2 ^ 47 ∧ ∀ seg ∈ done, v ∉ seg.region.addresses

theorem ready_new (active : PageTable) (grants : List (Option ℕ)) :
    Ready grants [] (newUserAllocator active ⟨grants, [], []⟩) := by
  have hranges := newUserAllocator_ranges active ⟨grants, [], []⟩
  have hfree : ∀ v, v ∈ freeSet (newUserAllocator active ⟨grants, [], []⟩) ↔ v < 2 ^ 47 := fun v => by
    rw [freeSet, hranges, RangeAllocator.mem_span]
    simp
  refine ⟨⟨⟨fun r hr => ?_, fun r hr => ?_, ?_⟩, fun k hk v hv => ?_, 0, Nat.zero_le _, rfl⟩,
    fun _ hseg => absurd hseg not_mem_nil, fun v => ?_⟩
  · rw [hranges, mem_singleton] at hr
    rw [hr]
    exact Nat.two_pow_pos 47
  · rw [hranges, mem_singleton] at hr
    rw [hr]
    norm_num
  · rw [hranges]
    exact pairwise_singleton _ _
  · have hlower := (hfree _).1 (hv v rfl)
    have hindex : (pageIndex v 3).val < 256 := by
      simp only [pageIndex, pageSize]
      omega
    show RadixTree.Vacant k _ (userTable active (pageIndex v 3))
    rw [userTable, if_pos hindex]
    exact RadixTree.vacant_empty
  · rw [hfree]
    simp

theorem Ready.addresses_free (h : Ready grants done s.space) (hseg : seg.InBounds data.length)
    (hbehind : ∀ old ∈ done, old.stop ≤ seg.start) : seg.region.addresses ⊆ freeSet s.space := by
  rintro v ⟨hge, hlt⟩
  have hlower := hseg.paged.lower
  refine (h.free v).2 ⟨hlt.trans_le hlower, fun old hold hin => ?_⟩
  have hstop := hbehind old hold
  obtain ⟨hfirst, hlast⟩ := hin
  simp only [Segment.region] at hge hfirst hlast
  omega

/-- The ways in which mapping a segment fails: there are no frames for its bytes, or not enough for its tables,
or it ends with the last page. -/
inductive SegmentFault (pool : FramePool) (grants : List (Option ℕ)) (done : List Segment) (seg : Segment)
    (live : List FrameRun) : KernelFault → Prop
  | frames (h : pool.allocRange live seg.pages = none) : SegmentFault pool grants done seg live (.memory .outOfMemory)
  | tables (hstop : seg.stop < 2 ^ 47) (h : Exhausted grants (bytesOf (done ++ [seg]))) :
      SegmentFault pool grants done seg live (.memory .invalidMapping)
  | lastPage {e : KernelFault} (hstop : seg.stop = 2 ^ 47) (hfits : seg.pages ≤ MAX_BLOCK) (h : e = .panic ∨ e = .diverge) :
      SegmentFault pool grants done seg live e

theorem Ready.mapSegment [Mapper] [Mapper.PartialMap] [Mapper.MapsVacant] (h : Ready grants done s.space)
    (hseg : seg.InBounds data.length) (hbehind : ∀ old ∈ done, old.stop ≤ seg.start) (hpool : pool.Bounded) :
    wp (mapSegment pool data seg) s
      (fun _ s' => seg.stop < 2 ^ 47 ∧ Ready grants (done ++ [seg]) s'.space ∧
        ∃ phys, pool.allocRange s.memory.live seg.pages = some phys ∧
          s'.memory.live = ⟨phys, seg.pages⟩ :: s.memory.live)
      fun e _ => SegmentFault pool grants done seg s.memory.live e := by
  have hfree := h.addresses_free hseg hbehind
  have hsize : 0 < seg.region.size := Nat.sub_pos_of_lt hseg.order
  have horder := hseg.order
  have hstop : seg.region.start + seg.region.size = seg.stop := by
    simp only [Segment.region]
    omega
  rw [MaramOS.mapSegment]
  refine wp_bind.2 (wp_zoom.2 (newPage_rule (fun hnone => .frames hnone) fun phys m' hphys hlive => ?_))
  have hfile := hseg.file
  rw [if_neg (by omega)]
  have hlen : ((data.drop seg.fileStart).take (seg.fileEnd - seg.fileStart)).length = seg.fileEnd - seg.fileStart := by
    rw [length_take, length_drop]
    omega
  dsimp only
  rw [hlen, if_neg (Nat.not_lt.2 hseg.room)]
  refine wp_bind.2 (wp_zoom.2 (wp_modify.2 (wp_bind.2 (wp_inSpace.2 ?_))))
  refine wp_virtAddr (fun _ => ?_) fun hnot => absurd hseg.canonical hnot
  refine wp_bind.2 (wp_inSpace.2 ?_)
  by_cases hlast : seg.stop < 2 ^ 47
  · have hbound : phys + seg.pages * PAGE_SIZE < 2 ^ 52 := hpool _ _ _ hphys
    rw [hseg.pages_mul] at hbound
    refine wp_mono (h.pristine.mapFixed (r := seg.region) hseg.paged hsize (by rwa [hstop]) hfree hbound)
      (fun _ space hspace => wp_pure.2 ⟨hlast, ⟨?_, ?_, fun v => ?_⟩, phys, hphys, hlive⟩) fun e _ he => ?_
    · rw [bytesOf_append, bytesOf_singleton]
      exact hspace.2
    · exact forall_mem_append.2 ⟨h.fits, forall_mem_singleton.2 (pool.limit _ _ _ hphys)⟩
    · dsimp only
      rw [hspace.1, Set.mem_sdiff, h.free, forall_mem_append, forall_mem_singleton, and_assoc]
    · obtain ⟨rfl, hexhausted⟩ := he
      refine .tables hlast ?_
      rwa [bytesOf_append, bytesOf_singleton]
  · have hend : seg.stop = 2 ^ 47 := by
      have := hseg.paged.lower
      omega
    refine wp_mono (mapFixed_lastPage (r := seg.region) h.pristine.canonical hseg.paged hsize (by rw [hstop, hend]) hfree)
      (fun _ _ hfalse => hfalse.elim) fun e _ he => .lastPage hend (pool.limit _ _ _ hphys) ?_
    cases e with
    | memory m => exact absurd rfl (he m)
    | panic => exact .inl rfl
    | diverge => exact .inr rfl

end Mapping

section Load

variable {pool : FramePool} {parse : List UInt8 → Option ElfBytes} {active : PageTable} {grants : List (Option ℕ)}
  {fs : FileSystem} {path : Path} {size : ℕ} {data : List UInt8} {m : PhysMem} {elf : ElfBytes} {base entry : ℕ}
  {segs : List Segment} {phdr : ProgramHeader} {α : Type} {E : KernelFault → PhysMem → Prop} {done : List Segment}
  {seg : Segment} {r : Except LoaderError α} {Q : α → PhysMem → Prop}

/-- The file can be read, and `data` are its bytes. -/
def FileSystem.Reads (fs : FileSystem) (path : Path) (size : ℕ) (data : List UInt8) : Prop :=
  ∃ contents, fs.read path ⟨divCeil size PAGE_SIZE, fun _ => 0⟩ = .ok (data.length, contents) ∧
    (List.range data.length).map contents.bytes = data ∧ data.length ≤ divCeil size PAGE_SIZE * PAGE_SIZE

/-- A file system that answers with the file, or with an error of its own. -/
structure FileSystem.Answers (fs : FileSystem) (path : Path) (size : ℕ) (data : List UInt8) : Prop where
  fileSize : fs.fileSize path = .ok size ∨ ∃ e, fs.fileSize path = .error (.fs e)
  read : fs.Reads path size data ∨ ∃ e, fs.read path ⟨divCeil size PAGE_SIZE, fun _ => 0⟩ = .error (.fs e)

theorem wp_ofLoader :
    wp (ofLoader r) m Q E ↔ (∀ a, r = .ok a → Q a m) ∧ ∀ e, r = .error e → E (.loader e) m := by
  rw [ofLoader, wp_reads]
  cases r with
  | ok a => exact ⟨fun h => ⟨fun a' ha => h.1 a' (by cases ha; rfl), fun e he => by cases he⟩,
      fun h => ⟨fun a' ha => h.1 a' (by cases ha; rfl), fun e he => by cases he⟩⟩
  | error e => exact ⟨fun h => ⟨fun a ha => (by cases ha), fun e' he => h.2 _ (by cases he; rfl)⟩,
      fun h => ⟨fun a ha => (by cases ha), fun e' he => by cases he; exact h.2 e rfl⟩⟩

theorem wp_ofLoader_ok {a : α} (h : r = .ok a) :
    wp (ofLoader r) m Q E ↔ Q a m :=
  wp_reads_const (congrArg _ h)

theorem load_rule [Mapper] {Q : LoadedBinary → PhysMem → Prop} (hfs : fs.Answers path size data)
    (hio : ∀ e m', fs.fileSize path = .error (.fs e) ∨ fs.read path ⟨divCeil size PAGE_SIZE, fun _ => 0⟩ = .error (.fs e) →
      E (.fs e) m') (hmem : pool.allocRange m.live (divCeil size PAGE_SIZE) = none → E (.memory .outOfMemory) m)
    (hrefused : (∀ elf base segs entry, ¬Passes parse data elf base segs entry) → ∀ e m', E (.loader e) m')
    (hmap : ∀ elf base segs entry phys m', fs.fileSize path = .ok size → fs.Reads path size data →
      Passes parse data elf base segs entry →
      pool.allocRange m.live (divCeil size PAGE_SIZE) = some phys → m'.live = ⟨phys, divCeil size PAGE_SIZE⟩ :: m.live →
      wp (mapSegments pool active grants data segs) m' (fun out m'' => Q ⟨entry, out.1, out.2⟩ m'') E) :
    wp (load pool parse active grants fs path) m Q E := by
  rw [load, readFile]
  rcases hfs.fileSize with hsize | ⟨e, hsize⟩
  swap
  · refine wp_bind.2 (wp_bind.2 (wp_reads.2 ⟨fun a ha => ?_, fun e' he => ?_⟩))
    · rw [hsize] at ha
      cases ha
    · rw [hsize] at he
      cases he
      exact hio e m (.inl hsize)
  refine wp_bind.2 (wp_reads_seq ?_ (by rw [hsize]; rfl))
  refine wp_bind.2 (newPage_rule hmem fun phys m1 hphys hlive => ?_)
  rcases hfs.read with ⟨contents, hread, hdata, hlen⟩ | ⟨e, hread⟩
  swap
  · refine wp_bind.2 (wp_reads.2 ⟨fun a ha => ?_, fun e' he => ?_⟩)
    · rw [hread] at ha
      cases ha
    · rw [hread] at he
      cases he
      exact hio e m1 (.inr hread)
  refine wp_reads_seq (a := (data.length, contents)) ?_ (by rw [hread]; rfl)
  refine wp_bind.2 (wp_modify.2 (wp_pure.2 ?_))
  dsimp only
  rw [if_neg (Nat.not_lt.2 hlen), hdata]
  by_cases hpass : ∃ elf base segs entry, Passes parse data elf base segs entry
  · obtain ⟨elf, base, segs, entry, hpass⟩ := hpass
    obtain ⟨found, hfound, hsegs⟩ := hpass.segments
    refine wp_bind.2 ((wp_ofLoader_ok (by rw [hpass.parsed]; rfl)).2 ?_)
    refine wp_bind.2 ((wp_ofLoader_ok hpass.header).2 (wp_bind.2 ((wp_ofLoader_ok hfound).2 ?_)))
    refine wp_bind.2 ((wp_ofLoader_ok hsegs).2 (wp_bind.2 ((wp_ofLoader_ok hpass.entry).2 ?_)))
    exact wp_seq (hmap elf base segs entry phys _ hsize ⟨contents, hread, hdata, hlen⟩ hpass hphys hlive)
      (fun _ _ hout => wp_pure.2 hout) fun _ _ he => he
  · have hfault := hrefused fun elf base segs entry h => hpass ⟨elf, base, segs, entry, h⟩
    refine wp_bind.2 (wp_ofLoader.2 ⟨fun elf helf => ?_, fun e _ => hfault e _⟩)
    refine wp_bind.2 (wp_ofLoader.2 ⟨fun base hbase => ?_, fun e _ => hfault e _⟩)
    refine wp_bind.2 (wp_ofLoader.2 ⟨fun found hfound => ?_, fun e _ => hfault e _⟩)
    refine wp_bind.2 (wp_ofLoader.2 ⟨fun segs hsegs => ?_, fun e _ => hfault e _⟩)
    refine wp_bind.2 (wp_ofLoader.2 ⟨fun entry hentry => ?_, fun e _ => hfault e _⟩)
    exact absurd ⟨elf, base, segs, entry, parsed_of_elim helf, hbase, ⟨found, hfound, hsegs⟩, hentry⟩ hpass

theorem mapSegments_rule [Mapper] {Q : VMemAllocator × List FrameRun → PhysMem → Prop}
    (hmem : pool.allocRange m.live 1 = none → E (.memory .outOfMemory) m)
    (hloop : ∀ phys m', pool.allocRange m.live 1 = some phys → m'.live = ⟨phys, 1⟩ :: m.live →
      wp (segs.mapM (mapSegment pool data)) ⟨m', newUserAllocator active ⟨grants, [], []⟩⟩
        (fun pages s => Q (s.space, pages) s.memory) fun e s => E e s.memory) :
    wp (mapSegments pool active grants data segs) m Q E := by
  rw [mapSegments]
  refine wp_bind.2 (newPage_rule hmem fun phys m' hphys hlive => ?_)
  have hrun := hloop phys m' hphys hlive
  rcases hres : segs.mapM (mapSegment pool data) ⟨m', newUserAllocator active ⟨grants, [], []⟩⟩ with ⟨e | pages, s⟩
  · have hfault := wp_error hrun hres
    unfold wp
    simp only [hres]
    exact hfault
  · have hpages := wp_ok hrun hres
    unfold wp
    simp only [hres]
    exact hpages

theorem behind_of_sorted {rest : List Segment} (hsorted : segs.Pairwise fun a b => a.stop ≤ b.start)
    (hsplit : segs = done ++ seg :: rest) : ∀ old ∈ done, old.stop ≤ seg.start := fun old hold => by
  rw [hsplit] at hsorted
  exact (pairwise_append.1 hsorted).2.2 old hold seg mem_cons_self

theorem mapM_ready [Mapper] [Mapper.PartialMap] [Mapper.MapsVacant] (hin : ∀ seg ∈ segs, seg.InBounds data.length)
    (hsorted : segs.Pairwise fun a b => a.stop ≤ b.start) (hpool : pool.Bounded) :
    wp (segs.mapM (mapSegment pool data)) ⟨m, newUserAllocator active ⟨grants, [], []⟩⟩
      (fun _ s => Ready grants segs s.space)
      fun e _ => ∃ done seg rest live, segs = done ++ seg :: rest ∧ (∀ old ∈ done, old.pages ≤ MAX_BLOCK) ∧
        SegmentFault pool grants done seg live e := by
  refine wp_mapM segs (fun done _ (s : LoadState) => Ready grants done s.space) (fun done seg rest _ s hsplit hs => ?_)
    (ready_new active grants)
  have hseg : seg ∈ segs := hsplit ▸ mem_append_right done mem_cons_self
  exact wp_mono (hs.mapSegment (hin seg hseg) (behind_of_sorted hsorted hsplit) hpool) (fun _ _ hs' => hs'.2.1)
    fun _ _ he => ⟨done, seg, rest, _, hsplit, hs.fits, he⟩

/-- The failures that `load` is meant to have: of the file, of the file system, and for want of memory. Where a frame
for a table is refused, `map` reports `InvalidMapping`. -/
inductive Expected (parse : List UInt8 → Option ElfBytes) (data : List UInt8) (grants : List (Option ℕ)) : KernelFault → Prop
  | loader (e : LoaderError) : Expected parse data grants (.loader e)
  | fs (e : FSError) : Expected parse data grants (.fs e)
  | outOfMemory : Expected parse data grants (.memory .outOfMemory)
  | tables {elf : ElfBytes} {base entry : ℕ} {segs : List Segment} (h : Passes parse data elf base segs entry)
      (hrefused : Exhausted grants (bytesOf segs)) : Expected parse data grants (.memory .invalidMapping)

theorem stop_lt_iff : (phdr.segment base).stop < 2 ^ 47 ↔ base + phdr.pVaddr.toNat + phdr.pMemsz.toNat ≤ 2 ^ 47 - 4096 := by
  have hpages := @lt_divCeil_iff (phdr.addr base + phdr.pMemsz.toNat) PAGE_SIZE (2 ^ 35 - 1) (by decide)
  have haddr : phdr.addr base = base + phdr.pVaddr.toNat := rfl
  have hstop : (phdr.segment base).stop = divCeil (phdr.addr base + phdr.pMemsz.toNat) PAGE_SIZE * PAGE_SIZE := rfl
  rw [hstop]
  rw [haddr] at hpages ⊢
  simp only [PAGE_SIZE] at hpages ⊢
  omega

/-- A file that `load` can fail on only as it is meant to: no program header asks for the last page of the lower half,
or memory is refused before that page is reached, since the file or a segment is larger than a block. -/
def Harmless (parse : List UInt8 → Option ElfBytes) (size : ℕ) (data : List UInt8) : Prop :=
  ∀ elf base segs entry, Passes parse data elf base segs entry →
    MAX_BLOCK < divCeil size PAGE_SIZE ∨ (∃ phdr ∈ elf.loaded, MAX_BLOCK < (phdr.segment base).pages) ∨
    ∀ phdr ∈ elf.loaded, base + phdr.pVaddr.toNat + phdr.pMemsz.toNat ≤ 2 ^ 47 - 4096

/-- The segment with the last page is the last one, so the frames of all others have been allocated before. -/
theorem Passes.fits_of_last (h : Passes parse data elf base segs entry) {rest : List Segment}
    (hsplit : segs = done ++ seg :: rest) (hstop : seg.stop = 2 ^ 47) (hdone : ∀ old ∈ done, old.pages ≤ MAX_BLOCK)
    (hseg : seg.pages ≤ MAX_BLOCK) : ∀ seg' ∈ segs, seg'.pages ≤ MAX_BLOCK := by
  intro seg' hseg'
  have hbounds := h.inBounds hseg'
  rw [hsplit, mem_append, mem_cons] at hseg'
  rcases hseg' with hold | rfl | hrest
  · exact hdone seg' hold
  · exact hseg
  · have hsorted := h.sorted
    rw [hsplit] at hsorted
    have hbehind := (pairwise_cons.1 (pairwise_append.1 hsorted).2.1).1 seg' hrest
    have hlower := hbounds.paged.lower
    have horder := hbounds.order
    simp only [Segment.region] at hlower
    omega

theorem Passes.mem_segs (h : Passes parse data elf base segs entry) (hphdr : phdr ∈ elf.loaded) :
    phdr.segment base ∈ segs := h.perm.mem_iff.2 (mem_map_of_mem hphdr)

theorem load_expected [Mapper] [Mapper.PartialMap] [Mapper.MapsVacant]
    (h : fs.fileSize path = .ok size → fs.Reads path size data → Harmless parse size data)
    (hfs : fs.Answers path size data) (hpool : pool.Bounded) :
    wp (load pool parse active grants fs path) m (fun _ _ => True) fun e _ => Expected parse data grants e := by
  refine load_rule hfs (fun e _ _ => .fs e) (fun _ => .outOfMemory) (fun _ e _ => .loader e)
    fun elf base segs entry phys m' hsize hreads hpass hphys _ => mapSegments_rule (fun _ => .outOfMemory) fun _ m''
      _ _ => ?_
  refine wp_mono (mapM_ready (fun _ => hpass.inBounds) hpass.sorted hpool) (fun _ _ _ => trivial) fun e _ he => ?_
  obtain ⟨done, seg, rest, live, hsplit, hdone, he⟩ := he
  cases he with
  | frames hnone => exact .outOfMemory
  | tables _ hexhausted =>
    have hall := bytesOf_split hsplit
    exact .tables hpass (hexhausted.mono (by omega))
  | lastPage hstop hfits _ =>
    rcases h hsize hreads _ _ _ _ hpass with hfile | ⟨phdr, hphdr, hlarge⟩ | hclear
    · exact absurd (pool.limit _ _ _ hphys) (Nat.not_le.2 hfile)
    · exact absurd (hpass.fits_of_last hsplit hstop hdone hfits _ (hpass.mem_segs hphdr)) (Nat.not_le.2 hlarge)
    · have hseg : seg ∈ segs := hsplit ▸ mem_append_right done mem_cons_self
      obtain ⟨phdr, hphdr, rfl⟩ := mem_map.1 (hpass.perm.mem_iff.1 hseg)
      exact absurd hstop (stop_lt_iff.2 (hclear phdr hphdr)).ne

/-- Nothing is handed out beyond the physical addresses. -/
def FramePool.capped (pool : FramePool) : FramePool where
  allocRange live count := (pool.allocRange live count).filter fun phys => decide (phys + count * PAGE_SIZE < 2 ^ 52)
  aligned live count phys h := pool.aligned live count phys (Option.filter_eq_some_iff.1 h).1
  unused live count phys h := pool.unused live count phys (Option.filter_eq_some_iff.1 h).1
  limit live count phys h := pool.limit live count phys (Option.filter_eq_some_iff.1 h).1

theorem FramePool.capped_bounded (pool : FramePool) : pool.capped.Bounded := fun _ _ _ h =>
  of_decide_eq_true (Option.filter_eq_some_iff.1 h).2

theorem bumpPool_capped {live : List FrameRun} {count : ℕ} (hcount : count ≤ MAX_BLOCK) (hdvd : PAGE_SIZE ∣ topOf live)
    (hroom : topOf live + count * PAGE_SIZE < 2 ^ 52) : bumpPool.capped.allocRange live count = some (topOf live) := by
  have hbump : bumpPool.allocRange live count = some (divCeil (topOf live) PAGE_SIZE * PAGE_SIZE) := if_pos hcount
  rw [(divCeil_mul_eq_iff (by decide)).2 hdvd] at hbump
  have hfits : decide (topOf live + count * PAGE_SIZE < 2 ^ 52) = true := decide_eq_true hroom
  simp only [FramePool.capped]
  rw [hbump, Option.filter_some, if_pos hfits]

theorem topOf_next (live : List FrameRun) (count : ℕ) :
    topOf (⟨topOf live, count⟩ :: live) = topOf live + count * PAGE_SIZE :=
  max_eq_right (Nat.le_add_right _ _)

theorem replicate_not_exhausted (b : ℕ) : ¬Exhausted (replicate (3 * b) (some 0)) b := by
  rintro ⟨i, hi, hrefused⟩
  have hpos := pageSize_pos 0
  have hlt : i < 3 * b := (Nat.le_mul_of_pos_right i hpos).trans_lt hi
  rw [Refused, List.getElem?_replicate_of_lt hlt] at hrefused
  cases hrefused

/-- The segments `done` have got their frames, one behind the other from `first` on. -/
structure Filling (grants : List (Option ℕ)) (first : ℕ) (done : List Segment) (s : LoadState) : Prop where
  ready : Ready grants done s.space
  below : ∀ seg ∈ done, seg.stop < 2 ^ 47
  aligned : PAGE_SIZE ∣ topOf s.memory.live
  top : topOf s.memory.live = first + bytesOf done

theorem Filling.mapSegment [Mapper] [Mapper.PartialMap] [Mapper.MapsVacant] {first : ℕ} {s : LoadState}
    (h : Filling grants first done s) (hseg : seg.InBounds data.length) (hfits : seg.pages ≤ MAX_BLOCK)
    (hbehind : ∀ old ∈ done, old.stop ≤ seg.start)
    (hroom : first + bytesOf (done ++ [seg]) < 2 ^ 52) (hgrants : ¬Exhausted grants (bytesOf (done ++ [seg]))) :
    wp (mapSegment bumpPool.capped data seg) s (fun _ s' => Filling grants first (done ++ [seg]) s')
      fun e _ => e = .panic ∨ e = .diverge := by
  have hbytes : bytesOf (done ++ [seg]) = bytesOf done + seg.pages * PAGE_SIZE := by
    rw [bytesOf_append, bytesOf_singleton, hseg.pages_mul]
  have htop := h.top
  have halloc := @bumpPool_capped s.memory.live seg.pages hfits h.aligned (by omega)
  refine wp_mono (h.ready.mapSegment hseg hbehind bumpPool.capped_bounded) (fun _ s' hs' => ?_) fun e _ he => ?_
  · obtain ⟨hstop, hready, phys, hphys, hlive⟩ := hs'
    obtain rfl := Option.some.inj (hphys.symm.trans halloc)
    have hnext : topOf s'.memory.live = topOf s.memory.live + seg.pages * PAGE_SIZE := by rw [hlive, topOf_next]
    refine ⟨hready, forall_mem_append.2 ⟨h.below, forall_mem_singleton.2 hstop⟩, ?_, by omega⟩
    rw [hnext]
    exact Nat.dvd_add h.aligned (Dvd.intro_left _ rfl)
  · cases he with
    | frames hnone => cases halloc.symm.trans hnone
    | tables _ hexhausted => exact absurd hexhausted hgrants
    | lastPage _ _ hfault => exact hfault

theorem Passes.lastPage [Mapper] [Mapper.PartialMap] [Mapper.MapsVacant] (h : Passes parse data elf base segs entry)
    (hsize : fs.fileSize path = .ok size) (hreads : fs.Reads path size data) (hcount : divCeil size PAGE_SIZE ≤ MAX_BLOCK)
    (hfits : ∀ seg ∈ segs, seg.pages ≤ MAX_BLOCK) (hphdr : phdr ∈ elf.loaded) (hlast : ¬(phdr.segment base).stop < 2 ^ 47) :
    wp (MaramOS.load bumpPool.capped parse active (replicate (3 * bytesOf segs) (some 0)) fs path) ⟨fun _ => 0, []⟩
      (fun _ _ => False) fun e _ => e = .panic ∨ e = .diverge := by
  have hmem := h.mem_segs hphdr
  have hfile : divCeil size PAGE_SIZE * PAGE_SIZE ≤ 2 ^ 18 * 4096 := Nat.mul_le_mul_right _ hcount
  have hbytes : bytesOf segs ≤ 2 ^ 47 := by
    have hle := bytesOf_le (Nat.zero_le (2 ^ 47)) h.sorted fun seg hseg => ⟨Nat.zero_le _, (h.inBounds hseg).order, ?_⟩
    · omega
    · have hlower := (h.inBounds hseg).paged.lower
      have horder := (h.inBounds hseg).order
      simp only [Segment.region] at hlower
      omega
  have hpage : PAGE_SIZE = 4096 := rfl
  have hfirst := @bumpPool_capped [] (divCeil size PAGE_SIZE) hcount (dvd_zero _) (by rw [topOf, foldr_nil]; omega)
  refine load_rule ⟨.inl hsize, .inl hreads⟩ (fun e _ he => ?_) (fun hnone => ?_) (fun hnot => absurd h (hnot _ _ _ _))
    fun elf' base' segs' entry' phys m' _ _ hpass hphys hlive => ?_
  · obtain ⟨contents, hread, -⟩ := hreads
    rcases he with he | he
    · cases hsize.symm.trans he
    · cases hread.symm.trans he
  · cases hfirst.symm.trans hnone
  obtain ⟨rfl, rfl, rfl⟩ := h.unique hpass
  obtain rfl := Option.some.inj (hphys.symm.trans hfirst)
  have htop : topOf m'.live = divCeil size PAGE_SIZE * PAGE_SIZE := by
    rw [hlive, topOf_next, topOf, foldr_nil, Nat.zero_add]
  have hsecond := @bumpPool_capped m'.live 1 (by decide) (htop ▸ Dvd.intro_left _ rfl) (by omega)
  refine mapSegments_rule (fun hnone => ?_) fun phys' m'' hphys' hlive' => ?_
  · cases hsecond.symm.trans hnone
  obtain rfl := Option.some.inj (hphys'.symm.trans hsecond)
  have hone : (divCeil size PAGE_SIZE + 1) * PAGE_SIZE = divCeil size PAGE_SIZE * PAGE_SIZE + PAGE_SIZE := Nat.succ_mul _ _
  have htop' : topOf m''.live = (divCeil size PAGE_SIZE + 1) * PAGE_SIZE := by
    rw [hlive', topOf_next, htop, ← Nat.add_mul]
  -- the frames in use are those of the file, of the L4 table and of the segments before
  have hstart : Filling (replicate (3 * bytesOf segs') (some 0)) ((divCeil size PAGE_SIZE + 1) * PAGE_SIZE) []
      ⟨m'', newUserAllocator active ⟨replicate (3 * bytesOf segs') (some 0), [], []⟩⟩ :=
    ⟨ready_new active _, fun _ hseg => absurd hseg not_mem_nil, htop' ▸ Dvd.intro_left _ rfl,
      htop'.trans (Nat.add_zero _).symm⟩
  refine wp_mono (wp_mapM segs' (fun done _ s => Filling (replicate (3 * bytesOf segs') (some 0))
    ((divCeil size PAGE_SIZE + 1) * PAGE_SIZE) done s) (fun done seg rest _ s hsplit hs => ?_) hstart)
    (fun _ _ hs => hlast (hs.below _ hmem)) fun _ _ he => he
  have hseg : seg ∈ segs' := hsplit ▸ mem_append_right done mem_cons_self
  have hall := bytesOf_split hsplit
  refine hs.mapSegment (h.inBounds hseg) (hfits seg hseg) (behind_of_sorted h.sorted hsplit) (by omega) fun hexhausted => ?_
  exact replicate_not_exhausted _ (hexhausted.mono (by omega))

/-- The checks of `load` keep every sum, slice and address of `map_segment` in bounds, and what it reserves is free.
So `load` fails only as it is meant to, in every memory, unless it can read a file with a segment that takes the last
page of the lower half and memory is not refused before. -/
theorem load_failures_iff [Mapper] [Mapper.PartialMap] [Mapper.MapsVacant] (hfs : fs.Answers path size data) :
    (∀ elf base segs entry, Passes parse data elf base segs entry →
      (∀ seg ∈ segs, seg.InBounds data.length) ∧
      ∀ pool grants m, FramePool.Bounded pool → ∀ done seg rest, segs = done ++ seg :: rest → ∀ pages s,
        done.mapM (mapSegment pool data) ⟨m, newUserAllocator active ⟨grants, [], []⟩⟩ = (.ok pages, s) →
        ∃ space, reserve seg.region s.space = (.ok (), space)) ∧
    ((∀ pool grants m, FramePool.Bounded pool → ∀ e m',
        load pool parse active grants fs path m = (.error e, m') → Expected parse data grants e) ↔
      (fs.fileSize path = .ok size → fs.Reads path size data → Harmless parse size data)) := by
  refine ⟨fun elf base segs entry hpass => ⟨fun seg hseg => hpass.inBounds hseg, ?_⟩,
    fun hall hsize hreads elf base segs entry hpass => ?_, fun hharmless pool grants m hpool e m' hrun => ?_⟩
  · intro pool grants m hpool done seg rest hsplit pages s hrun
    have hsub : ∀ seg' ∈ done, seg' ∈ segs := fun seg' hseg' => hsplit ▸ List.mem_append_left _ hseg'
    have hsorted : done.Pairwise fun a b => a.stop ≤ b.start := by
      have hall := hpass.sorted
      rw [hsplit] at hall
      exact (List.pairwise_append.1 hall).1
    have hready := wp_ok (mapM_ready (fun seg' hseg' => hpass.inBounds (hsub seg' hseg')) hsorted hpool) hrun
    have hseg := hpass.inBounds (hsplit ▸ List.mem_append_right done List.mem_cons_self : seg ∈ segs)
    obtain ⟨a', hreserve, -⟩ := reserve_of_free hready.pristine.canonical hseg.paged
      (hready.addresses_free hseg (behind_of_sorted hpass.sorted hsplit))
    exact ⟨_, hreserve⟩
  · by_contra hnot
    obtain ⟨hcount, hfits, hlast⟩ := not_or.1 hnot |>.imp_right not_or.1
    rw [Nat.not_lt] at hcount
    push Not at hfits hlast
    obtain ⟨phdr, hphdr, hlast⟩ := hlast
    rw [← Nat.not_le, ← stop_lt_iff] at hlast
    have hsegs : ∀ seg ∈ segs, seg.pages ≤ MAX_BLOCK := fun seg hseg => by
      obtain ⟨phdr', hphdr', rfl⟩ := List.mem_map.1 (hpass.perm.mem_iff.1 hseg)
      exact hfits phdr' hphdr'
    have hload : wp (load bumpPool.capped parse active (List.replicate (3 * bytesOf segs) (some 0)) fs path) ⟨fun _ => 0, []⟩
        (fun _ _ => False) fun e _ => e = .panic ∨ e = .diverge := hpass.lastPage hsize hreads hcount hsegs hphdr hlast
    rcases hrun : load bumpPool.capped parse active (List.replicate (3 * bytesOf segs) (some 0)) fs path
      ⟨fun _ => 0, []⟩ with
      ⟨e | bin, m'⟩
    · have hexpected := hall _ _ _ bumpPool.capped_bounded e m' hrun
      rcases wp_error hload hrun with rfl | rfl
      · cases hexpected
      · cases hexpected
    · exact wp_ok hload hrun
  · have hload : wp (load pool parse active grants fs path) m (fun _ _ => True) fun e _ => Expected parse data grants e :=
      load_expected hharmless hfs hpool
    have hfault := wp_error hload hrun
    exact hfault

def smallData : List UInt8 := [1, 2, 3, 4, 5, 6, 7, 8]

theorem smallFile_reads : smallFile.Reads ⟨[]⟩ 8 smallData := ⟨_, rfl, by decide, by decide⟩

open TreeMapper

theorem load_failures_small :
    smallFile.Answers ⟨[]⟩ 8 smallData ∧ ∀ pool grants m, FramePool.Bounded pool → ∀ e m',
      load pool (fun _ => some smallElf) (fun _ => .empty) grants smallFile ⟨[]⟩ m = (.error e, m') →
      Expected (fun _ => some smallElf) smallData grants e := by
  have hfs : smallFile.Answers ⟨[]⟩ 8 smallData := ⟨.inl rfl, .inl smallFile_reads⟩
  refine ⟨hfs, (load_failures_iff hfs).2.2 fun _ _ elf base segs entry hpass => .inr (.inr fun phdr hphdr => ?_)⟩
  obtain rfl := Option.some.inj hpass.parsed
  obtain rfl := Except.ok.inj (hpass.header.symm.trans (rfl : parseHeader smallElf = .ok 0))
  have hall : ∀ phdr ∈ smallElf.loaded, 0 + phdr.pVaddr.toNat + phdr.pMemsz.toNat ≤ 2 ^ 47 - 4096 := by decide
  exact hall phdr hphdr

/-- A program that lies in the last page of the lower half. -/
def lastPageElf : ElfBytes :=
  ⟨⟨.elf64, ET_EXEC, EM_X86_64, 0x7ffffffff000⟩, some [⟨PT_LOAD, 5, 0, 0x7ffffffff000, 8, 8⟩]⟩

theorem last_page_panics :
    smallFile.Answers ⟨[]⟩ 8 smallData ∧ FramePool.Bounded bumpPool.capped ∧
    ((load bumpPool.capped (fun _ => some lastPageElf) (fun _ => .empty) [some 1, some 2, some 3] smallFile ⟨[]⟩
      ⟨fun _ => 0, []⟩).1.map fun _ => ()) = .error .panic :=
  ⟨⟨.inl rfl, .inl smallFile_reads⟩, bumpPool.capped_bounded, by decide +kernel⟩

end Load

end MaramOS
