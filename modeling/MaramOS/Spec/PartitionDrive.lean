import MaramOS.Spec.Gpt

/-! `Drive`, which keeps accesses inside a partition, and the sectors of 512 bytes that
`fs/lba_abstractor.rs` puts over native blocks. -/

namespace MaramOS

structure Drive where
  inner : StorageDrive
  partitions : List Partition

namespace Drive

def read (d : Drive) (partition : Partition) (offset count : ℕ) : DriveProg PhysPage :=
  if 2 ^ 64 ≤ offset + count then Prog.fail (.storage .blockOutOfBounds)
  else if offset + count > partition.sizeBlocks then Prog.fail (.storage .blockOutOfBounds)
  else if 2 ^ 64 ≤ partition.start + offset then Prog.fail (.storage .blockOutOfBounds)
  else d.inner.readSmart (partition.start + offset) count

def write (d : Drive) (partition : Partition) (offset count : ℕ) (src : PhysPage) : DriveProg Unit :=
  if 2 ^ 64 ≤ offset + count then Prog.fail (.storage .blockOutOfBounds)
  else if offset + count > partition.sizeBlocks then Prog.fail (.storage .blockOutOfBounds)
  else if wmul src.count PAGE_SIZE < wmul count d.inner.blockSize then Prog.fail (.storage .commandFailed)
  else if 2 ^ 64 ≤ partition.start + offset then Prog.fail (.storage .blockOutOfBounds)
  else d.inner.writeBlocks (partition.start + offset) count src

end Drive

/-- `read_data` of one sector from a buffer and `write_data` to another. -/
def copySector (src dest : PhysPage) (source target : ℕ) : Except DriveFault PhysPage :=
  match src.readData source 512 with
  | none => .error (.storage .commandFailed)
  | some data =>
    match dest.writeData target 512 data with
    | none => .error .outOfBounds
    | some dest => .ok dest

/-- A loop that copies one sector for each index. -/
def copySectors (src : PhysPage) (source target : ℕ → ℕ) : List ℕ → PhysPage → Except DriveFault PhysPage
  | [], dest => .ok dest
  | j :: js, dest =>
    match copySector src dest (source j) (target j) with
    | .error e => .error e
    | .ok dest => copySectors src source target js dest

/-- The numbers of `first..=last`. -/
def inclusive (first last : ℕ) : List ℕ := List.range' first (last + 1 - first)

structure PartitionDrive where
  drive : Drive
  partition : Partition

namespace PartitionDrive

def blockSize (p : PartitionDrive) : ℕ := p.drive.inner.blockSize

def sectorsPerBlock (p : PartitionDrive) : ℕ := p.blockSize / 512

def sectorCount (p : PartitionDrive) : ℕ := wmul p.partition.sizeBlocks p.sectorsPerBlock

def nativeStart (p : PartitionDrive) (start : ℕ) : ℕ := wmul start 512 / p.blockSize

def nativeCount (p : PartitionDrive) (start count : ℕ) : ℕ :=
  wsub (divCeil (wmul (wadd start count) 512) p.blockSize) (p.nativeStart start)

def readSectors (p : PartitionDrive) (start count : ℕ) : DriveProg PhysPage :=
  if count = 0 then Prog.fail (.storage .commandFailed)
  else if p.blockSize = 0 then Prog.fail .panic
  else do
    let nativePages ← p.drive.read p.partition (p.nativeStart start) (p.nativeCount start count)
    let dest ← p.drive.inner.newPage (divCeil (wmul count 512) PAGE_SIZE)
    Prog.reads fun _ => copySectors nativePages
      (fun i => wsub (wmul (wadd start i) 512) (wmul (p.nativeStart start) p.blockSize)) (fun i => wmul i 512)
      (List.range count) dest

/-- The part of a native block that is written. -/
def coveredStart (p : PartitionDrive) (start nativeBlock : ℕ) : ℕ := max (wmul nativeBlock p.sectorsPerBlock) start

def coveredEnd (p : PartitionDrive) (start count nativeBlock : ℕ) : ℕ :=
  min (wsub (wadd (wmul nativeBlock p.sectorsPerBlock) p.sectorsPerBlock) 1) (wsub (wadd start count) 1)

/-- Where sector `j` is in the staging buffer. -/
def stagingOffset (p : PartitionDrive) (start j : ℕ) : ℕ :=
  wsub (wmul j 512) (wmul (p.nativeStart start) p.blockSize)

/-- Fetches a native block that is written only in part. -/
def fetchBlock (p : PartitionDrive) (start count nativeBlock : ℕ) (staging : PhysPage) : DriveProg PhysPage :=
  let first := wmul nativeBlock p.sectorsPerBlock
  let last := wsub (wadd first p.sectorsPerBlock) 1
  if p.coveredStart start nativeBlock ≠ first ∨ p.coveredEnd start count nativeBlock ≠ last then do
    let tmp ← p.drive.read p.partition nativeBlock 1
    Prog.reads fun _ => copySectors tmp (fun j => wsub (wmul j 512) (wmul nativeBlock p.blockSize))
      (p.stagingOffset start) (inclusive first last) staging
  else pure staging

def stageBlock (p : PartitionDrive) (start count : ℕ) (src staging : PhysPage) (i : ℕ) : DriveProg PhysPage := do
  let nativeBlock := wadd (p.nativeStart start) i
  let staging ← p.fetchBlock start count nativeBlock staging
  Prog.reads fun _ => copySectors src (fun j => wmul (wsub j start) 512) (p.stagingOffset start)
    (inclusive (p.coveredStart start nativeBlock) (p.coveredEnd start count nativeBlock)) staging

def writeSectors (p : PartitionDrive) (start count : ℕ) (src : PhysPage) : DriveProg Unit :=
  if count = 0 then pure ()
  else if p.blockSize = 0 then Prog.fail .panic
  else if wmul src.count PAGE_SIZE < wmul count 512 then Prog.fail (.storage .commandFailed)
  else do
    let staging ← p.drive.inner.newPage (divCeil (wmul (p.nativeCount start count) p.blockSize) PAGE_SIZE)
    let staging ← (List.range (p.nativeCount start count)).foldlM (p.stageBlock start count src) staging
    p.drive.write p.partition (p.nativeStart start) (p.nativeCount start count) staging

/-- The loop of `zero_sectors`, which runs at most `rem` times. -/
def zeroLoop (p : PartitionDrive) (page : PhysPage) : ℕ → ℕ → ℕ → DriveProg Unit
  | 0, _, _ => pure ()
  | fuel + 1, sector, rem =>
    if rem = 0 then pure ()
    else do
      let chunk := min rem 0x1000
      p.writeSectors sector chunk page
      p.zeroLoop page fuel (wadd sector chunk) (rem - chunk)

def zeroSectors (p : PartitionDrive) (start count : ℕ) : DriveProg Unit :=
  if count = 0 then pure ()
  else do
    let page ← p.drive.inner.newPage (divCeil (min count 0x1000) 8)
    p.zeroLoop page count start count

end PartitionDrive

end MaramOS
