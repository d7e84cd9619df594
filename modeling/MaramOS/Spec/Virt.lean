import MaramOS.Spec.PageTable
import MaramOS.Spec.RangeAllocator

/-! The virtual memory manager of `memory/virt.rs` and `memory/user.rs`: a page
table and a range allocator for the addresses that are free. A `VirtAddr` is
canonical, and arithmetic that leaves the canonical addresses panics. -/

namespace MaramOS

inductive MemoryError
  | outOfMemory | invalidMapping | outOfBounds
  deriving DecidableEq, Repr

inductive MemoryFault
  | memory (e : MemoryError)
  | panic
  | diverge
  deriving DecidableEq, Repr

inductive AddressSpace
  | kernel | user
  deriving DecidableEq, Repr

structure VirtualRegion where
  start : ℕ
  size : ℕ
  deriving DecidableEq, Repr

/-- The frame allocator is shared by the whole kernel; here is what this address space sees of it. -/
structure VMemAllocator where
  pageTable : PageTable
  allocator : RangeAllocator
  frames : Frames

abbrev VMem (α : Type) : Type := Prog MemoryFault VMemAllocator α

def canonicalAddr (addr : ℕ) : Bool := decide (addr < 2 ^ 47) || decide (2 ^ 64 - 2 ^ 47 ≤ addr) && decide (addr < 2 ^ 64)

def virtAddr (addr : ℕ) : VMem ℕ := if canonicalAddr addr then pure addr else .fail .panic

def virtSub (addr n : ℕ) : VMem ℕ := if n ≤ addr then virtAddr (addr - n) else .fail .panic

def physAddr (addr : ℕ) : VMem ℕ := if addr < 2 ^ 52 then pure addr else .fail .panic

def indexToAddr (l4 l3 l2 l1 : ℕ) : ℕ :=
  let addr := l4 <<< 39 ||| l3 <<< 30 ||| l2 <<< 21 ||| l1 <<< 12
  if addr >>> 47 % 2 = 1 then addr ||| 0xFFFF000000000000 else addr

def findFreeRanges (t : PageTable) (space : AddressSpace) : List VirtualRegion :=
  let range := match space with
    | .kernel => (List.finRange 512).drop 256
    | .user => (List.finRange 512).take 256
  range.flatMap fun l4 =>
    match t l4 with
    | .empty => [⟨indexToAddr l4 0 0 0, 2 ^ 39⟩]
    | .leaf _ => []
    | .table _ l3Table => (List.finRange 512).flatMap fun l3 =>
      match l3Table l3 with
      | .empty => [⟨indexToAddr l4 l3 0 0, 2 ^ 30⟩]
      | .leaf _ => []
      | .table _ l2Table => (List.finRange 512).flatMap fun l2 =>
        match l2Table l2 with
        | .empty => [⟨indexToAddr l4 l3 l2 0, 2 ^ 21⟩]
        | .leaf _ => []
        | .table _ l1Table => (List.finRange 512).flatMap fun l1 =>
          match l1Table l1 with
          | .empty => [⟨indexToAddr l4 l3 l2 l1, 2 ^ 12⟩]
          | .leaf _ => []

namespace VMemAllocator

def new (t : PageTable) (space : AddressSpace) (frames : Frames) : VMemAllocator :=
  ⟨t, (findFreeRanges t space).foldl (fun a r => a.addRange r.start (wadd r.start r.size)) RangeAllocator.new, frames⟩

section Mapper

variable [Mapper]

/-- One `map_to`. -/
def mapPage (k virt phys : ℕ) (flags : PageTableFlags) : VMem Unit := fun s =>
  let r := Mapper.mapTo k virt ⟨phys / pageSize k * pageSize k, flags⟩ s.pageTable s.frames
  (match r.1 with
    | .ok _ => .ok ()
    | .error _ => .error (.memory .invalidMapping),
    { s with pageTable := r.2.1, frames := r.2.2 })

/-- A loop of `map`, which goes on with the addresses behind the pages. -/
def mapPages (k : ℕ) (flags : PageTableFlags) : ℕ → ℕ → ℕ → VMem (ℕ × ℕ)
  | 0, virt, phys => pure (virt, phys)
  | n + 1, virt, phys => do
    mapPage k virt phys flags
    let virt ← virtAddr (virt + pageSize k)
    let phys ← physAddr (phys + pageSize k)
    mapPages k flags n virt phys

/-- The loops of `map` over huge pages. -/
def mapHuge (k : ℕ) (flags : PageTableFlags) (rem virt phys : ℕ) : VMem (ℕ × ℕ × ℕ) :=
  if pageSize k ≤ rem ∧ pageSize k ∣ phys ∧ pageSize k ∣ virt then do
    let count := rem / pageSize k
    let (virt, phys) ← mapPages k flags count virt phys
    pure (rem - count * pageSize k, virt, phys)
  else pure (rem, virt, phys)

def map (region : VirtualRegion) (phys : ℕ) (flags : PageTableFlags) : VMem Unit := do
  let flags := flags ||| PageTableFlags.PRESENT
  let (rem, virt, phys) ← mapHuge 2 flags region.size region.start phys
  let (rem, virt, phys) ← mapHuge 1 flags rem virt phys
  let _ ← mapPages 0 flags (divCeil rem (pageSize 0)) virt phys

/-- One `unmap` of the mapper. -/
def unmapPage (k virt : ℕ) : VMem (Except UnmapError Unit) := fun s =>
  match Mapper.unmap k virt s.pageTable with
  | .ok t => (.ok (.ok ()), { s with pageTable := t })
  | .error err => (.ok (.error err), s)

/-- Whether a huge page at `curr` could be unmapped. -/
def unmapHuge (k curr stop : ℕ) : VMem Bool :=
  if pageSize k ≤ stop - curr ∧ pageSize k ∣ curr then do
    match ← unmapPage k curr with
    | .ok _ => pure true
    | .error _ => pure false
  else pure false

/-- The loop of `unmap`. -/
def unmapLoop (stop : ℕ) : ℕ → ℕ → VMem Unit
  | 0, _ => .fail .diverge
  | fuel + 1, curr =>
    if curr < stop then do
      if ← unmapHuge 2 curr stop then
        unmapLoop stop fuel (← virtAddr (curr + pageSize 2))
      else if ← unmapHuge 1 curr stop then
        unmapLoop stop fuel (← virtAddr (curr + pageSize 1))
      else
        match ← unmapPage 0 curr with
        | .error .parentEntryHugePage => .fail (.memory .invalidMapping)
        | _ => unmapLoop stop fuel (← virtAddr (curr + pageSize 0))
    else pure ()

def cleanUpAddrRange (first last : ℕ) : VMem Unit := fun s =>
  let r := Mapper.cleanUpAddrRange (first / pageSize 0 * pageSize 0) (last / pageSize 0 * pageSize 0) s.pageTable
  (.ok (), { s with pageTable := r.1, frames := s.frames.deallocate r.2 })

def unmap (region : VirtualRegion) : VMem Unit := do
  let stop ← virtAddr (region.start + region.size)
  unmapLoop stop (region.size + 1) region.start
  let last ← virtSub stop 1
  cleanUpAddrRange region.start last

end Mapper

def onAllocator {α : Type} (f : RangeAllocator → α × RangeAllocator) : VMem α := fun s =>
  let r := f s.allocator
  (.ok r.1, { s with allocator := r.2 })

def alloc (count : ℕ) : VMem (Option VirtualRegion) :=
  if count = 0 then pure none
  else do
    let align := if count % 0x40000 = 0 then pageSize 2 else if count % 0x200 = 0 then pageSize 1 else pageSize 0
    let sizeBytes := wmul count (pageSize 0)
    match ← onAllocator fun a => a.allocate sizeBytes align with
    | none => pure none
    | some start => do
      let start ← virtAddr start
      pure (some ⟨start, sizeBytes⟩)

def reserve (region : VirtualRegion) : VMem Unit :=
  if region.size % PAGE_SIZE ≠ 0 then .fail (.memory .invalidMapping)
  else if region.start % PAGE_SIZE ≠ 0 then .fail (.memory .invalidMapping)
  else do
    if ← onAllocator fun a => a.reserve region.start region.size then pure ()
    else .fail (.memory .invalidMapping)

def free [Mapper] (region : VirtualRegion) : VMem Unit := do
  unmap region
  onAllocator fun a => ((), a.free region.start region.size)

/-- What `if let Err(e)` sees of `map`; a panic goes on upwards. -/
def attempt (x : VMem Unit) : VMem (Except MemoryError Unit) := fun s =>
  match x s with
  | (.ok (), s') => (.ok (.ok ()), s')
  | (.error (.memory e), s') => (.ok (.error e), s')
  | (.error e, s') => (.error e, s')

def mapFixed [Mapper] (region : VirtualRegion) (phys : ℕ) (flags : PageTableFlags) : VMem Unit := do
  reserve region
  match ← attempt (map region phys flags) with
  | .ok () => pure ()
  | .error e => do
    free region
    .fail (.memory e)

/-- The frames that `drop` frees. -/
def drop (s : VMemAllocator) : List ℕ :=
  ((List.finRange 512).take 256).flatMap fun l4 =>
    match s.pageTable l4 with
    | .table frame l3 => ((List.finRange 512).flatMap fun i =>
      match l3 i with
      | .table frame l2 => ((List.finRange 512).flatMap fun j =>
        match l2 j with
        | .table frame _ => [frame]
        | _ => []) ++ [frame]
      | _ => []) ++ [frame]
    | _ => []

end VMemAllocator

inductive SpaceCall
  | alloc (count : ℕ)
  | reserve (region : VirtualRegion)
  | map (region : VirtualRegion) (phys : ℕ) (flags : PageTableFlags)
  | mapFixed (region : VirtualRegion) (phys : ℕ) (flags : PageTableFlags)
  | free (region : VirtualRegion)

def SpaceCall.run [Mapper] : SpaceCall → VMem Unit
  | .alloc count => VMemAllocator.alloc count >>= fun _ => pure ()
  | .reserve region => VMemAllocator.reserve region
  | .map region phys flags => VMemAllocator.map region phys flags
  | .mapFixed region phys flags => VMemAllocator.mapFixed region phys flags
  | .free region => VMemAllocator.free region

/-- The table that `new_user_allocator` makes from the active one: the higher half is copied. -/
def userTable (active : PageTable) : PageTable := fun i => if i.val < 256 then .empty else active i

def newUserAllocator (active : PageTable) (frames : Frames) : VMemAllocator :=
  VMemAllocator.new (userTable active) .user frames

/-- `KERNEL_ALLOCATOR` and the L4 tables of the live user address spaces, as they were copied. -/
structure AddressSpaces where
  kernel : VMemAllocator
  users : List PageTable

inductive KernelCall
  | alloc (count : ℕ)
  | map (region : VirtualRegion) (phys : ℕ) (flags : PageTableFlags)
  | free (region : VirtualRegion)
  /-- `new_user_allocator`, while the table of a user or that of the kernel is active. -/
  | newUser (active : Option ℕ)

def AddressSpaces.activeTable (s : AddressSpaces) (active : Option ℕ) : PageTable :=
  (active.bind fun j => s.users[j]?).getD s.kernel.pageTable

def KernelCall.run [Mapper] : KernelCall → Prog MemoryFault AddressSpaces Unit
  | .alloc count => fun s => let r := VMemAllocator.alloc count s.kernel; (r.1.map fun _ => (), { s with kernel := r.2 })
  | .map region phys flags => fun s => let r := VMemAllocator.map region phys flags s.kernel; (r.1, { s with kernel := r.2 })
  | .free region => fun s => let r := VMemAllocator.free region s.kernel; (r.1, { s with kernel := r.2 })
  | .newUser active => fun s => (.ok (), { s with users := userTable (s.activeTable active) :: s.users })

/-- What the processor finds through a user's table. An L4 entry only points to the frame of an L3 table, so
it leads to what that frame holds now; once the kernel does not use the frame for this entry any more,
that can be anything. -/
def seenThrough (kernel stale user : PageTable) : PageTable := fun i =>
  match user i, kernel i with
  | .table frame _, .table frame' l3 => if frame = frame' then .table frame' l3 else stale i
  | .table _ _, _ => stale i
  | e, _ => e

end MaramOS
