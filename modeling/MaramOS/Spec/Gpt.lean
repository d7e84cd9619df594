import MaramOS.Spec.Format
import MaramOS.Spec.Storage

/-! The partition table of `drivers/storage/gpt`. -/

namespace MaramOS

section Checksum

def CRC32_POLYNOMIAL : UInt32 := 0xEDB88320

/-- Entry `i` of `CRC32_TABLE`. -/
def crc32Table (i : UInt32) : UInt32 :=
  (List.range 8).foldl
    (fun crc _ => if crc &&& 1 != 0 then (crc >>> 1) ^^^ CRC32_POLYNOMIAL else crc >>> 1) i

def crc32Step (crc : UInt32) (byte : UInt8) : UInt32 :=
  (crc >>> 8) ^^^ crc32Table ((crc ^^^ byte.toUInt32) &&& 0xFF)

def crc32 (data : List UInt8) : UInt32 := data.foldl crc32Step 0xFFFFFFFF ^^^ (0xFFFFFFFF : UInt32)

end Checksum

section Headers

def beNumber (data : ℕ → UInt8) (off : ℕ) : ℕ → ℕ
  | 0 => 0
  | k + 1 => beNumber data off k * 256 + (data (off + k)).toNat

structure Guid where
  timeLow : ℕ
  timeMid : ℕ
  timeHighVer : ℕ
  clockSeq : ℕ
  node : ℕ
  deriving DecidableEq, Repr

namespace Guid

def zero : Guid := ⟨0, 0, 0, 0, 0⟩

def decode (data : ℕ → UInt8) (off : ℕ) : Guid :=
  ⟨leNumber data off 4, leNumber data (off + 4) 2, leNumber data (off + 6) 2, beNumber data (off + 8) 2,
    beNumber data (off + 10) 6⟩

end Guid

def EFI_GUID : Guid := ⟨0xC12A7328, 0xF81F, 0x11D2, 0xBA4B, 0xA0C93EC93B⟩

def LEMONFS_GUID : Guid := ⟨0x8CBD0D4E, 0xFE62, 0x49CC, 0xA982, 0xFBD6F69ED888⟩

def GPT_SIG : List UInt8 := [0x45, 0x46, 0x49, 0x20, 0x50, 0x41, 0x52, 0x54]

/-- The fields of the header that are looked at. -/
structure PrimaryGPTHeader where
  signature : List UInt8
  size : ℕ
  headerCrc : ℕ
  currBlock : ℕ
  backupBlock : ℕ
  firstUsable : ℕ
  lastUsable : ℕ
  entryStart : ℕ
  entryCount : ℕ
  entryByteCount : ℕ
  entryArrayCrc : ℕ
  deriving DecidableEq, Repr

def PrimaryGPTHeader.decode (data : ℕ → UInt8) : PrimaryGPTHeader where
  signature := (List.range 8).map data
  size := leNumber data 12 4
  headerCrc := leNumber data 16 4
  currBlock := leNumber data 24 8
  backupBlock := leNumber data 32 8
  firstUsable := leNumber data 40 8
  lastUsable := leNumber data 48 8
  entryStart := leNumber data 72 8
  entryCount := leNumber data 80 4
  entryByteCount := leNumber data 84 4
  entryArrayCrc := leNumber data 88 4

structure PartitionEntry where
  typeGuid : Guid
  partitionGuid : Guid
  startBlock : ℕ
  endBlock : ℕ
  name : List ℕ
  deriving DecidableEq, Repr

def PartitionEntry.decode (data : ℕ → UInt8) : PartitionEntry where
  typeGuid := Guid.decode data 0
  partitionGuid := Guid.decode data 16
  startBlock := leNumber data 32 8
  endBlock := leNumber data 40 8
  name := (List.range 36).map fun i => leNumber data (56 + 2 * i) 2

inductive PartitionType
  | efi
  | lemonFS
  | unknown (guid : Guid)
  deriving DecidableEq, Repr

def PartitionType.fromGuid (guid : Guid) : PartitionType :=
  if guid = LEMONFS_GUID then .lemonFS else if guid = EFI_GUID then .efi else .unknown guid

structure Partition where
  start : ℕ
  sizeBlocks : ℕ
  name : List Char
  type : PartitionType
  guid : Guid
  deriving DecidableEq, Repr

/-- `String::from_utf16_lossy`: surrogates without a partner become U+FFFD. -/
def utf16Lossy : List ℕ → List Char
  | [] => []
  | [u] => [if 0xD800 ≤ u ∧ u < 0xE000 then Char.ofNat 0xFFFD else Char.ofNat u]
  | u :: v :: rest =>
    if u < 0xD800 ∨ 0xE000 ≤ u then Char.ofNat u :: utf16Lossy (v :: rest)
    else if u < 0xDC00 ∧ 0xDC00 ≤ v ∧ v < 0xE000 then
      Char.ofNat (0x10000 + (u - 0xD800) * 0x400 + (v - 0xDC00)) :: utf16Lossy rest
    else Char.ofNat 0xFFFD :: utf16Lossy (v :: rest)

end Headers

inductive GPTError
  | ioError | badHeader | entryCRCFailed | badMBR
  deriving DecidableEq, Repr

inductive GptFault
  | gpt (e : GPTError)
  | panic
  | diverge
  deriving DecidableEq, Repr

abbrev GptProg := Prog GptFault DriveState

/-- `map_err(|_| GPTError::IOError)` -/
def orIoError {α : Type} (x : DriveProg α) : GptProg α :=
  x.mapError fun
    | .panic => .panic
    | _ => .gpt .ioError

def readHeader (page : PhysPage) : GptProg PrimaryGPTHeader :=
  match page.readData 0 92 with
  | none => Prog.fail (.gpt .ioError)
  | some data => pure (.decode data)

/-- `check_gpt_header`. It zeroes the checksum in the page, which nobody reads again. -/
def checkGptHeader (drive : StorageDrive) (header : PrimaryGPTHeader) (bytes : ℕ → UInt8) (isBackup : Bool) : Bool :=
  let expectedBlock := if isBackup then wsub drive.blockCount 1 else 1
  let zeroed := fun i => if 16 ≤ i ∧ i < 20 then 0 else bytes i
  let total := header.entryCount * header.entryByteCount
  let alternate := if isBackup then 1 else wsub drive.blockCount 1
  let arrayEnd := header.entryStart + divCeil total drive.blockSize
  if header.signature ≠ GPT_SIG ∨ header.size < 92 ∨ header.size > drive.blockSize then false
  else if header.currBlock ≠ expectedBlock then false
  else if (crc32 ((List.range header.size).map zeroed)).toNat ≠ header.headerCrc then false
  else if header.entryCount < 128 then false
  else if header.entryByteCount < 128 then false
  else if header.firstUsable > header.lastUsable ∨ header.lastUsable > drive.blockCount ∨ header.entryStart ≤ 1 then false
  else if header.backupBlock ≠ alternate then false
  -- `None > Some(..)` is false, so an overflow passes
  else if arrayEnd < 2 ^ 64 ∧ arrayEnd > header.firstUsable then false
  else true

/-- The first header that is accepted, and whether it is the backup. -/
def acceptedHeader (drive : StorageDrive) : GptProg (PrimaryGPTHeader × Bool) := do
  let pages ← orIoError (drive.readSmart 1 1)
  let header ← readHeader pages
  if checkGptHeader drive header pages.bytes false then return (header, false)
  let pages ← orIoError (drive.readBlocks (wsub drive.blockCount 1) 1 pages)
  let header ← readHeader pages
  if checkGptHeader drive header pages.bytes true then return (header, true)
  Prog.fail (.gpt .badHeader)

/-- The entry array of a header, and whether its checksum is right. -/
def readEntries (drive : StorageDrive) (header : PrimaryGPTHeader) : GptProg (PhysPage × Bool) := do
  let total := min (header.entryCount * header.entryByteCount) (1024 * 1024 * 16)
  let entryBlocks ← orIoError (drive.readSmart header.entryStart (divCeil total drive.blockSize))
  return (entryBlocks, (crc32 ((List.range total).map entryBlocks.bytes)).toNat = header.entryArrayCrc)

/-- The header for the second try. The backup is read in any case, but a header that is the backup is kept. -/
def backupHeader (drive : StorageDrive) (header : PrimaryGPTHeader) (isBackup : Bool) : GptProg PrimaryGPTHeader := do
  let backupPage ← orIoError (drive.readSmart header.backupBlock 1)
  if isBackup then return header
  let backup ← readHeader backupPage
  if checkGptHeader drive backup backupPage.bytes true then return backup
  Prog.fail (.gpt .badHeader)

/-- `gpt::init` up to the entry loop: the header in force and its entries. -/
def gptTable (drive : StorageDrive) : GptProg (PrimaryGPTHeader × PhysPage) := do
  let mbrBlock ← orIoError (drive.readSmart 0 1)
  match mbrBlock.readData 0 512 with
  | none => Prog.fail (.gpt .ioError)
  | some mbr =>
    if leNumber mbr 510 2 ≠ 0xAA55 then Prog.fail (.gpt .badMBR)
    else do
      let first ← acceptedHeader drive
      let entries ← readEntries drive first.1
      if entries.2 then return (first.1, entries.1)
      let header ← backupHeader drive first.1 first.2
      let entries ← readEntries drive header
      if entries.2 then return (header, entries.1)
      Prog.fail (.gpt .entryCRCFailed)

section EntryLoop

variable (header : PrimaryGPTHeader) (entryBlocks : PhysPage)

def PartitionEntry.partition (entry : PartitionEntry) : Partition where
  name := utf16Lossy (entry.name.takeWhile (· ≠ 0))
  sizeBlocks := wadd (wsub entry.endBlock entry.startBlock) 1
  start := entry.startBlock
  type := .fromGuid entry.typeGuid
  guid := entry.partitionGuid

/-- One turn of the entry loop, or `none` at its end. A `continue` goes on with the same offset. -/
def entryTurn (s : ℕ × List Partition) : Option (ℕ × List Partition) :=
  match (entryBlocks.readData s.1 128).map PartitionEntry.decode with
  | none => none
  | some entry =>
    if entry.typeGuid = Guid.zero then none
    else if s.2.getLast?.any fun p => entry.startBlock < wadd p.start p.sizeBlocks then some s
    else if entry.startBlock < header.firstUsable ∨ entry.endBlock > header.lastUsable then some s
    else if entry.startBlock > entry.endBlock then some s
    else some (wadd s.1 header.entryByteCount, s.2 ++ [entry.partition])

/-- The entry loop, when it ends within `fuel` turns. -/
def entryLoop : ℕ → ℕ × List Partition → Option (List Partition)
  | 0, _ => none
  | fuel + 1, s =>
    match entryTurn header entryBlocks s with
    | none => some s.2
    | some s' => entryLoop fuel s'

/-- The offsets at which the first turns read an entry. -/
def examined : ℕ → ℕ × List Partition → List ℕ
  | 0, _ => []
  | fuel + 1, s =>
    s.1 ::
      match entryTurn header entryBlocks s with
      | none => []
      | some s' => examined fuel s'

end EntryLoop

/-- `gpt::init`. -/
def gptInit (drive : StorageDrive) (fuel : ℕ) : GptProg (List Partition) := do
  let table ← gptTable drive
  match entryLoop table.1 table.2 fuel (0, []) with
  | none => Prog.fail .diverge
  | some partitions => return partitions

end MaramOS
