import MaramOS.Spec.Basic

/-! The drives of `drivers/storage/mod.rs` and the buffers they fill. What the device
and the frame allocator answer is left to an oracle that knows all earlier requests. A
write that fails has written some of its blocks. -/

namespace MaramOS

inductive StorageError
  | blockOutOfBounds | commandFailed | timeout
  deriving DecidableEq, Repr

/-- How a storage call fails: with a `StorageError`, with a `MemoryError`, or by a division by zero. -/
inductive DriveFault
  | storage (e : StorageError)
  | outOfMemory
  | outOfBounds
  | panic
  deriving DecidableEq, Repr

/-- A request for zeroed pages, or for blocks of the drive. -/
inductive DriveEvent
  | alloc (count : ℕ)
  | read (start count : ℕ)
  | write (start count : ℕ)
  deriving DecidableEq, Repr

structure StorageDrive where
  blockSize : ℕ
  blockCount : ℕ
  /-- Why the latest request fails, if it does, and how many blocks were transferred before. -/
  outcome : List DriveEvent → Option (StorageError × ℕ)

/-- The bytes of each block, and all requests so far. -/
structure DriveState where
  blocks : ℕ → ℕ → UInt8
  events : List DriveEvent

abbrev DriveProg := Prog DriveFault DriveState

namespace PhysPage

/-- The check of `read_data` and `write_data`; all types that are read have alignment 1.
Irreducible, so that no reduction divides by 2^64. -/
@[irreducible] def holds (p : PhysPage) (offset size : ℕ) : Bool := wadd offset size ≤ wmul p.count PAGE_SIZE

/-- `read_data` of a type of `size` bytes. -/
def readData (p : PhysPage) (offset size : ℕ) : Option (ℕ → UInt8) :=
  if p.holds offset size then some fun i => p.bytes (offset + i) else none

def writeData (p : PhysPage) (offset size : ℕ) (data : ℕ → UInt8) : Option PhysPage :=
  if p.holds offset size then
    some { p with bytes := fun i => if offset ≤ i ∧ i < offset + size then data (i - offset) else p.bytes i }
  else none

end PhysPage

namespace StorageDrive

/-- `PhysPage::new` -/
def newPage (drive : StorageDrive) (count : ℕ) : DriveProg PhysPage := fun s =>
  match drive.outcome (.alloc count :: s.events) with
  | some _ => (.error .outOfMemory, ⟨s.blocks, .alloc count :: s.events⟩)
  | none => (.ok (PhysPage.zeroed count), ⟨s.blocks, .alloc count :: s.events⟩)

/-- What a buffer holds after `count` blocks were transferred to it. -/
def loaded (drive : StorageDrive) (start count : ℕ) (dest : PhysPage) (blocks : ℕ → ℕ → UInt8) : ℕ → UInt8 := fun i =>
  if i < count * drive.blockSize then blocks (start + i / drive.blockSize) (i % drive.blockSize) else dest.bytes i

/-- `read_blocks`, with what `dest` holds afterwards. -/
def readBlocks (drive : StorageDrive) (start count : ℕ) (dest : PhysPage) : DriveProg PhysPage := fun s =>
  match drive.outcome (.read start count :: s.events) with
  | some (e, _) => (.error (.storage e), ⟨s.blocks, .read start count :: s.events⟩)
  | none => (.ok ⟨dest.count, drive.loaded start count dest s.blocks⟩, ⟨s.blocks, .read start count :: s.events⟩)

/-- The blocks after `count` blocks of `src` were transferred. -/
def stored (drive : StorageDrive) (start count : ℕ) (src : PhysPage) (blocks : ℕ → ℕ → UInt8) : ℕ → ℕ → UInt8 :=
  fun b i => if start ≤ b ∧ b < start + count then src.bytes ((b - start) * drive.blockSize + i) else blocks b i

def writeBlocks (drive : StorageDrive) (start count : ℕ) (src : PhysPage) : DriveProg Unit := fun s =>
  match drive.outcome (.write start count :: s.events) with
  | some (e, k) =>
    (.error (.storage e), ⟨drive.stored start (min k count) src s.blocks, .write start count :: s.events⟩)
  | none => (.ok (), ⟨drive.stored start count src s.blocks, .write start count :: s.events⟩)

def readSmart (drive : StorageDrive) (start count : ℕ) : DriveProg PhysPage := do
  if drive.blockSize = 0 then Prog.fail .panic
  let page ← drive.newPage (divCeil count (divCeil PAGE_SIZE drive.blockSize))
  drive.readBlocks start count page

end StorageDrive

end MaramOS
