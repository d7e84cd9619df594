import MaramOS.Spec.Basic

/-! The on-disk structures of LemonFS: packed, little-endian, one sector each. -/

namespace MaramOS

/-- Byte `i` of the little-endian encoding of `x`. -/
def leByte (x i : ℕ) : UInt8 := UInt8.ofNat (x / 256 ^ i)

/-- The little-endian number in `k` bytes from offset `off`. -/
def leNumber (data : ℕ → UInt8) (off : ℕ) : ℕ → ℕ
  | 0 => 0
  | k + 1 => leNumber data off k + (data (off + k)).toNat * 256 ^ k

def Sector.le (s : Sector) (off : ℕ) : ℕ → ℕ
  | 0 => 0
  | k + 1 => Sector.le s off k + (s.byte (off + k)).toNat * 256 ^ k

structure LinkPointer where
  start : ℕ
  size : ℕ
  deriving DecidableEq, Repr

namespace LinkPointer

def isValid (l : LinkPointer) : Bool := l.start != 0

def isDirect (l : LinkPointer) : Bool := l.size != 0

def byte (l : LinkPointer) (j : ℕ) : UInt8 := if j < 8 then leByte l.start j else leByte l.size (j - 8)

def decode (s : Sector) (off : ℕ) : LinkPointer := ⟨s.le off 8, s.le (off + 8) 8⟩

def read (l : LinkPointer) (d : Disk) : Except Fault Sector := readData d l.start

end LinkPointer

/-- 32 pointers: 31 extents and the pointer to the next link block. -/
abbrev LinkBlock := Fin 32 → LinkPointer

def LinkBlock.encode (b : LinkBlock) : Sector := fun i =>
  (b ⟨i.val / 16, by omega⟩).byte (i.val % 16)

def LinkBlock.decode (s : Sector) : LinkBlock := fun k => LinkPointer.decode s (16 * k.val)

abbrev Filename := Fin 36 → UInt8

/-- What the first bytes of non-empty text are: whether they form a character,
and how many of them are consumed (`core::str::lossy::Utf8Chunks`). -/
def utf8Step (b : UInt8) (bs : List UInt8) : Bool × ℕ :=
  let at' := fun i => bs.getD i 0
  let cont := fun i => at' i &&& 192 == 128
  if b < 128 then (true, 1)
  else if 0xC2 ≤ b ∧ b ≤ 0xDF then
    if cont 0 then (true, 2) else (false, 1)
  else if 0xE0 ≤ b ∧ b ≤ 0xEF then
    let lo : UInt8 := if b = 0xE0 then 0xA0 else 0x80
    let hi : UInt8 := if b = 0xED then 0x9F else 0xBF
    if ¬ (lo ≤ at' 0 ∧ at' 0 ≤ hi) then (false, 1)
    else if ¬ cont 1 then (false, 2)
    else (true, 3)
  else if 0xF0 ≤ b ∧ b ≤ 0xF4 then
    let lo : UInt8 := if b = 0xF0 then 0x90 else 0x80
    let hi : UInt8 := if b = 0xF4 then 0x8F else 0xBF
    if ¬ (lo ≤ at' 0 ∧ at' 0 ≤ hi) then (false, 1)
    else if ¬ cont 1 then (false, 2)
    else if ¬ cont 2 then (false, 3)
    else (true, 4)
  else (false, 1)

/-- `String::from_utf8_lossy`: each invalid run becomes U+FFFD. -/
def utf8Lossy : ℕ → List UInt8 → Str
  | 0, _ => []
  | _, [] => []
  | k + 1, b :: bs =>
    let r := utf8Step b bs
    (if r.1 then (b :: bs).take r.2 else [0xEF, 0xBF, 0xBD]) ++ utf8Lossy k ((b :: bs).drop r.2)

namespace Filename

def fromStr (s : Str) : Filename := fun i => s.getD i.val 0

def toStr (n : Filename) : Str :=
  let bytes := (List.ofFn n).filter (· ≠ 0)
  utf8Lossy bytes.length bytes

def isEmpty (n : Filename) : Bool := (List.ofFn n).all (· == 0)

end Filename

/-- `DirEntryFlags`: bit 0 is `IS_DIR`, bit 1 is `IS_SYMLINK`. -/
abbrev DirEntryFlags := UInt8

namespace DirEntryFlags

def isDir : DirEntryFlags := 1

def isSymlink : DirEntryFlags := 2

def contains (f g : DirEntryFlags) : Bool := f &&& g == g

def fromBits (b : UInt8) : Option DirEntryFlags := if b &&& 3 == b then some b else none

end DirEntryFlags

structure DirEntry where
  name : Filename
  flags : DirEntryFlags
  link : LinkPointer

namespace DirEntry

def zero : DirEntry := ⟨Filename.fromStr [], 0, ⟨0, 0⟩⟩

def byte (e : DirEntry) (j : ℕ) : UInt8 :=
  if h : j < 36 then e.name ⟨j, h⟩
  else if j = 36 then e.flags
  else e.link.byte (j - 37)

def decode (s : Sector) (off : ℕ) : DirEntry :=
  ⟨fun i => s.byte (off + i.val), s.byte (off + 36), LinkPointer.decode s (off + 37)⟩

end DirEntry

def ENTRIES_PER_DIRENTRY : ℕ := 8

structure DirBlock where
  parent : ℕ
  entries : Fin 8 → DirEntry
  next : LinkPointer

namespace DirBlock

/-- 8 bytes of parent, 8 entries of 53 bytes, the next pointer, padding `0xBA`. -/
def encode (b : DirBlock) : Sector := fun i =>
  if i.val < 8 then leByte b.parent i.val
  else if h : i.val < 432 then (b.entries ⟨(i.val - 8) / 53, by omega⟩).byte ((i.val - 8) % 53)
  else if i.val < 448 then b.next.byte (i.val - 432)
  else 0xBA

def decode (s : Sector) : DirBlock :=
  ⟨s.le 0 8, fun k => DirEntry.decode s (8 + 53 * k.val), LinkPointer.decode s 432⟩

end DirBlock

structure SuperBlock where
  magic : Fin 8 → UInt8
  version : ℕ
  reserved : Fin 4 → UInt8
  flags : UInt64
  checksum : ℕ
  bitmapStart : ℕ
  dataStart : ℕ
  dataEnd : ℕ
  padding : Fin 456 → UInt8

namespace SuperBlock

/-- `LEMONFS\0` -/
def LEMONFS_MAGIC : Fin 8 → UInt8 := ![0x4C, 0x45, 0x4D, 0x4F, 0x4E, 0x46, 0x53, 0]

def new (partBlock : ℕ) : Option SuperBlock :=
  if partBlock < 0x1000 then none
  else some {
    magic := LEMONFS_MAGIC
    version := 1
    reserved := fun _ => 0xBA
    flags := 0
    checksum := 0
    bitmapStart := 1
    dataStart := wadd 1 (divCeil partBlock 0x1000)
    dataEnd := wsub partBlock 2
    padding := fun _ => 0xBA }

def encode (sb : SuperBlock) : Sector := fun i =>
  if h : i.val < 8 then sb.magic ⟨i.val, h⟩
  else if i.val < 12 then leByte sb.version (i.val - 8)
  else if h : i.val < 16 then sb.reserved ⟨i.val - 12, by omega⟩
  else if i.val < 24 then leByte sb.flags.toNat (i.val - 16)
  else if i.val < 32 then leByte sb.checksum (i.val - 24)
  else if i.val < 40 then leByte sb.bitmapStart (i.val - 32)
  else if i.val < 48 then leByte sb.dataStart (i.val - 40)
  else if i.val < 56 then leByte sb.dataEnd (i.val - 48)
  else sb.padding ⟨i.val - 56, by omega⟩

def decode (s : Sector) : SuperBlock where
  magic := fun i => s.byte i.val
  version := s.le 8 4
  reserved := fun i => s.byte (12 + i.val)
  flags := UInt64.ofNat (s.le 16 8)
  checksum := s.le 24 8
  bitmapStart := s.le 32 8
  dataStart := s.le 40 8
  dataEnd := s.le 48 8
  padding := fun i => s.byte (56 + i.val)

end SuperBlock

end MaramOS
