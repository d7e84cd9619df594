import MaramOS.Spec.Format
import MaramOS.Spec.Bitmap

/-! The superblock, its CRC-64 and its backup in the last sector. -/

namespace MaramOS

def CRC64_POLYNOMIAL : UInt64 := 0xC96C5795D7870F42

/-- Entry `i` of `CRC64_TABLE`. -/
def crc64Table (i : UInt64) : UInt64 :=
  (List.range 8).foldl
    (fun crc _ => if crc &&& 1 != 0 then (crc >>> 1) ^^^ CRC64_POLYNOMIAL else crc >>> 1) i

def crc64Step (crc : UInt64) (byte : UInt8) : UInt64 :=
  (crc >>> 8) ^^^ crc64Table ((crc ^^^ byte.toUInt64) &&& 0xFF)

def crc64 (data : List UInt8) : UInt64 :=
  data.foldl crc64Step 0xFFFFFFFFFFFFFFFF ^^^ (0xFFFFFFFFFFFFFFFF : UInt64)

def getSbChecksum (sb : SuperBlock) : ℕ := (crc64 (List.ofFn sb.encode)).toNat

def checkSb (sb : SuperBlock) : Bool := sb.checksum == getSbChecksum { sb with checksum := 0 }

/-- The flag is set when the backup had to be used. -/
def getSuperblock (d : Disk) : Except Fault (SuperBlock × Bool) := do
  let sb := SuperBlock.decode (← readData d 0)
  if checkSb sb then return (sb, false)
  let backup := SuperBlock.decode (← readData d (wsub d.sectorCount 1))
  if checkSb backup then return (backup, true)
  throw (.fs .badSuperblock)

/-- `flags &= !DIRTY; flags |= BACKUP_SYNC` in `bitflags`, whose complement keeps known bits only. -/
def syncedFlags (flags : UInt64) : UInt64 := (flags &&& 0b11101) ||| 0b10000

def sealSb (sb : SuperBlock) : SuperBlock :=
  let blank := { sb with flags := syncedFlags sb.flags, checksum := 0 }
  { blank with checksum := getSbChecksum blank }

def writeSb (sb : SuperBlock) : FsProg Unit := do
  let count ← Prog.reads fun v => .ok v.disk.sectorCount
  Volume.writeData 0 (sealSb sb).encode
  Volume.writeData (wsub count 1) (sealSb sb).encode

end MaramOS
