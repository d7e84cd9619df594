import MaramOS.Spec.LemonFS
import MaramOS.Spec.Virt

/-! The ELF loader of `elf/loader.rs`. The header and the program headers that the
`elf` crate finds in the bytes of a file are a parameter, and so are the answers of
the frame allocator. Pages of the loaded program lie in physical memory. What is
freed when `load` returns is not given back here, since nothing is allocated after. -/

namespace MaramOS

inductive LoaderError
  | badClass | badTarget | badType | noSegments | overlappingSegments | badSegments | parseError
  | memoryError (e : MemoryError)
  | io (e : FSError)
  deriving DecidableEq, Repr

/-- The ways in which `load` does not return `Ok`. -/
inductive KernelFault
  | loader (e : LoaderError)
  | memory (e : MemoryError)
  | fs (e : FSError)
  | panic
  | diverge
  deriving DecidableEq, Repr

def KernelFault.ofFault : Fault → KernelFault
  | .fs e => .fs e
  | .panic => .panic
  | .diverge => .diverge

def KernelFault.ofMemoryFault : MemoryFault → KernelFault
  | .memory e => .memory e
  | .panic => .panic
  | .diverge => .diverge

structure FrameRun where
  phys : ℕ
  count : ℕ
  deriving DecidableEq, Repr

/-- The bytes of physical memory, and the runs of frames that are in use. -/
structure PhysMem where
  bytes : ℕ → UInt8
  live : List FrameRun

def PhysMem.write (m : PhysMem) (addr size : ℕ) (byte : ℕ → UInt8) : PhysMem :=
  { m with bytes := fun a => if addr ≤ a ∧ a < addr + size then byte (a - addr) else m.bytes a }

/-- A frame allocator. It may refuse any request, and refuses those for more than a block; what it hands out are whole
frames that nobody uses. -/
structure FramePool where
  allocRange : List FrameRun → ℕ → Option ℕ
  aligned : ∀ live count phys, allocRange live count = some phys → PAGE_SIZE ∣ phys
  unused : ∀ live count phys, allocRange live count = some phys → ∀ run ∈ live, ∀ a,
    phys ≤ a ∧ a < phys + count * PAGE_SIZE → ¬(run.phys ≤ a ∧ a < run.phys + run.count * PAGE_SIZE)
  limit : ∀ live count phys, allocRange live count = some phys → count ≤ MAX_BLOCK

/-- `PhysPage::new`: the frames are zeroed. -/
def FramePool.newPage (pool : FramePool) (count : ℕ) : Prog KernelFault PhysMem FrameRun := fun m =>
  match pool.allocRange m.live count with
  | none => (.error (.memory .outOfMemory), m)
  | some phys =>
    (.ok ⟨phys, count⟩, { m.write phys (count * PAGE_SIZE) (fun _ => 0) with live := ⟨phys, count⟩ :: m.live })

/-- The calls of a `FileSystem` that the loader makes. -/
structure FileSystem where
  fileSize : Path → Except Fault ℕ
  read : Path → PhysPage → Except Fault (ℕ × PhysPage)

inductive Class
  | elf32 | elf64
  deriving DecidableEq, Repr

structure FileHeader where
  elfClass : Class
  eType : UInt16
  eMachine : UInt16
  eEntry : UInt64
  deriving DecidableEq, Repr

structure ProgramHeader where
  pType : UInt32
  pFlags : UInt32
  pOffset : UInt64
  pVaddr : UInt64
  pFilesz : UInt64
  pMemsz : UInt64
  deriving DecidableEq, Repr

/-- What `minimal_parse` returns, with the answer of `segments()`. -/
structure ElfBytes where
  ehdr : FileHeader
  segments : Option (List ProgramHeader)

def ET_EXEC : UInt16 := 2

def ET_DYN : UInt16 := 3

def EM_X86_64 : UInt16 := 62

def PT_LOAD : UInt32 := 1

def USER_END : ℕ := 0x0000800000000000

structure Segment where
  virtAddr : ℕ
  start : ℕ
  stop : ℕ
  fileStart : ℕ
  fileEnd : ℕ
  memSize : ℕ
  pageOffset : ℕ
  flags : PageTableFlags
  executable : Bool
  deriving DecidableEq, Repr

def Segment.region (seg : Segment) : VirtualRegion := ⟨seg.start, seg.stop - seg.start⟩

def pageFlags (flags : UInt32) : PageTableFlags :=
  let res := if flags &&& 1 = 0 then PageTableFlags.NO_EXECUTE else 0
  let res := if (flags >>> 1) &&& 1 = 1 then res ||| PageTableFlags.WRITABLE else res
  res ||| PageTableFlags.USER_ACCESSIBLE

def parseHeader (elf : ElfBytes) : Except LoaderError ℕ :=
  if elf.ehdr.elfClass ≠ .elf64 then .error .badClass
  else if elf.ehdr.eMachine ≠ EM_X86_64 then .error .badTarget
  else if elf.ehdr.eType ∉ [ET_EXEC, ET_DYN] then .error .badType
  else if elf.ehdr.eType = ET_EXEC then .ok 0
  else .ok 0x400000

def checkedAdd (a b : ℕ) : Except LoaderError ℕ :=
  if a + b < 2 ^ 64 then .ok (a + b) else .error (.memoryError .outOfBounds)

def checkedNextMultipleOf (a b : ℕ) : Except LoaderError ℕ :=
  if divCeil a b * b < 2 ^ 64 then .ok (divCeil a b * b) else .error (.memoryError .outOfBounds)

/-- One program header; `none` if the loop goes on without it. -/
def parseSegment (dataLen base : ℕ) (phdr : ProgramHeader) : Except LoaderError (Option Segment) :=
  if phdr.pType ≠ PT_LOAD then .ok none
  else if phdr.pFilesz > phdr.pMemsz then .error .badSegments
  else if phdr.pMemsz = 0 then .ok none
  else do
    let fileStart := phdr.pOffset.toNat
    let fileEnd ← checkedAdd fileStart phdr.pFilesz.toNat
    if fileEnd > dataLen then .error (.memoryError .outOfBounds)
    else do
      let virtAddr ← checkedAdd base phdr.pVaddr.toNat
      let memEnd ← checkedAdd virtAddr phdr.pMemsz.toNat
      let start := virtAddr / PAGE_SIZE * PAGE_SIZE
      let stop ← checkedNextMultipleOf memEnd PAGE_SIZE
      if stop > USER_END then .error (.memoryError .outOfBounds)
      else
        let memSize := phdr.pMemsz.toNat
        let pageOffset := virtAddr - start
        let flags := pageFlags phdr.pFlags
        let executable := flags &&& PageTableFlags.NO_EXECUTE != PageTableFlags.NO_EXECUTE
        .ok (some ⟨virtAddr, start, stop, fileStart, fileEnd, memSize, pageOffset, flags, executable⟩)

def collectSegments (dataLen base : ℕ) : List ProgramHeader → Except LoaderError (List Segment)
  | [] => .ok []
  | phdr :: phdrs => do
    let seg ← parseSegment dataLen base phdr
    let res ← collectSegments dataLen base phdrs
    .ok (seg.toList ++ res)

def parseSegments (elf : ElfBytes) (dataLen base : ℕ) : Except LoaderError (List Segment) :=
  match elf.segments with
  | none => .error .noSegments
  | some phdrs => do
    let res ← collectSegments dataLen base phdrs
    if res.isEmpty then .error .noSegments else .ok res

/-- The loop over `windows(2)`. -/
def checkWindows : List Segment → Except LoaderError Unit
  | a :: b :: segments => if a.stop > b.start then .error .overlappingSegments else checkWindows (b :: segments)
  | _ => .ok ()

/-- The segments in the order that they are sorted into. -/
def checkNoOverlap (segments : List Segment) : Except LoaderError (List Segment) := do
  let sorted := segments.insertionSort fun a b => a.start ≤ b.start
  checkWindows sorted
  .ok sorted

def validateEntry (entry base : ℕ) (segments : List Segment) : Except LoaderError ℕ := do
  let entry ← checkedAdd base entry
  let inExec := segments.any fun s =>
    s.executable && decide (s.virtAddr ≤ entry) && decide (entry < s.virtAddr + s.memSize)
  if !inExec then .error (.memoryError .invalidMapping)
  else if canonicalAddr entry then .ok entry
  else .error (.memoryError .invalidMapping)

/-- Physical memory and the address space that is filled. -/
structure LoadState where
  memory : PhysMem
  space : VMemAllocator

def inMemory {α : Type} (x : Prog KernelFault PhysMem α) : Prog KernelFault LoadState α :=
  .zoom LoadState.memory (fun s m => { s with memory := m }) x

def inSpace {α : Type} (x : VMem α) : Prog KernelFault LoadState α :=
  .zoom LoadState.space (fun s a => { s with space := a }) (x.mapError KernelFault.ofMemoryFault)

def mapSegment [Mapper] (pool : FramePool) (data : List UInt8) (seg : Segment) : Prog KernelFault LoadState FrameRun := do
  let count := divCeil (seg.stop - seg.start) PAGE_SIZE
  let page ← inMemory (pool.newPage count)
  -- slices are checked against the bounds
  if seg.fileEnd < seg.fileStart ∨ seg.fileEnd > data.length then .fail .panic
  else do
    let src := (data.drop seg.fileStart).take (seg.fileEnd - seg.fileStart)
    if seg.pageOffset + src.length > count * PAGE_SIZE then .fail .panic
    else do
      inMemory (.modify fun m => m.write (page.phys + seg.pageOffset) src.length fun i => src.getD i 0)
      let start ← inSpace (virtAddr seg.start)
      inSpace (VMemAllocator.mapFixed ⟨start, seg.stop - seg.start⟩ page.phys seg.flags)
      pure page

structure LoadedBinary where
  entry : ℕ
  addressSpace : VMemAllocator
  segments : List FrameRun

def readFile (pool : FramePool) (fs : FileSystem) (path : Path) : Prog KernelFault PhysMem (PhysPage × ℕ) := do
  let fileSize ← .reads fun _ => (fs.fileSize path).mapError KernelFault.ofFault
  let count := divCeil fileSize PAGE_SIZE
  let page ← pool.newPage count
  let (bytesRead, contents) ← .reads fun _ => (fs.read path ⟨count, fun _ => 0⟩).mapError KernelFault.ofFault
  Prog.modify fun m => m.write page.phys (count * PAGE_SIZE) contents.bytes
  pure (⟨count, contents.bytes⟩, bytesRead)

def ofLoader {α : Type} (r : Except LoaderError α) : Prog KernelFault PhysMem α :=
  .reads fun _ => r.mapError KernelFault.loader

/-- `new_user_allocator` and the loop over the segments. -/
def mapSegments [Mapper] (pool : FramePool) (active : PageTable) (grants : List (Option ℕ)) (data : List UInt8)
    (segments : List Segment) :
    Prog KernelFault PhysMem (VMemAllocator × List FrameRun) := do
  let _ ← pool.newPage 1
  fun m =>
    let r := segments.mapM (mapSegment pool data) ⟨m, newUserAllocator active ⟨grants, [], []⟩⟩
    (r.1.map fun pages => (r.2.space, pages), r.2.memory)

/-- Frames for page tables come from `grants`. -/
def load [Mapper] (pool : FramePool) (parse : List UInt8 → Option ElfBytes) (active : PageTable) (grants : List (Option ℕ))
    (fs : FileSystem) (path : Path) : Prog KernelFault PhysMem LoadedBinary := do
  let (page, dataLen) ← readFile pool fs path
  if dataLen > page.count * PAGE_SIZE then .fail .panic
  else do
    let data := (List.range dataLen).map page.bytes
    let elf ← ofLoader ((parse data).elim (.error .parseError) .ok)
    let base ← ofLoader (parseHeader elf)
    let segments ← ofLoader (parseSegments elf data.length base)
    let segments ← ofLoader (checkNoOverlap segments)
    let entry ← ofLoader (validateEntry elf.ehdr.eEntry.toNat base segments)
    let (space, pages) ← mapSegments pool active grants data segments
    pure ⟨entry, space, pages⟩

end MaramOS
