import MaramOS.Lib.Prog

/-! Faults, machine words, pages and the partition as LemonFS sees it. The
kernel is built in release mode, so `u64` arithmetic wraps and only index
checks, `unwrap` and `unreachable!` panic. -/

namespace MaramOS

inductive FSError
  | wrongFS | badSuperblock | ioError | noSpace | badFileType
  | fileNotFound | fileExists | badFilename | isRoot | badFlags
  deriving DecidableEq, Repr

/-- The ways a call can fail to return `Ok`: an `FSError`, a kernel panic, or a
loop that never ends. -/
inductive Fault
  | fs (e : FSError)
  | panic
  | diverge
  deriving DecidableEq, Repr

abbrev Str := List UInt8

def wadd (a b : ℕ) : ℕ := (a + b) % 2 ^ 64

def wsub (a b : ℕ) : ℕ := if b ≤ a then a - b else 2 ^ 64 - (b - a)

def wmul (a b : ℕ) : ℕ := a * b % 2 ^ 64

def wsum (l : List ℕ) : ℕ := l.foldl wadd 0

theorem wadd_of_lt {a b : ℕ} (h : a + b < 2 ^ 64) : wadd a b = a + b := Nat.mod_eq_of_lt h

theorem wsub_of_le {a b : ℕ} (h : b ≤ a) : wsub a b = a - b := if_pos h

theorem wmul_of_lt {a b : ℕ} (h : a * b < 2 ^ 64) : wmul a b = a * b := Nat.mod_eq_of_lt h

def divCeil (a b : ℕ) : ℕ := (a + b - 1) / b

theorem le_divCeil_mul {a b : ℕ} (hb : 0 < b) : a ≤ divCeil a b * b := by
  have hlt := Nat.lt_div_mul_add hb (a := a + b - 1)
  rw [divCeil]
  omega

theorem lt_divCeil_iff {a b i : ℕ} (hb : 0 < b) : i < divCeil a b ↔ i * b < a := by
  rw [divCeil, Nat.lt_div_iff_mul_lt hb]
  omega

theorem divCeil_add {a b m : ℕ} (hb : 0 < b) (hm : b ∣ m) (hle : m ≤ a) :
    m + divCeil (a - m) b * b = divCeil a b * b := by
  obtain ⟨q, rfl⟩ := hm
  have heq : a + b - 1 = b * q + (a - b * q + b - 1) := by omega
  rw [divCeil, divCeil, heq, Nat.mul_add_div hb]
  ring

theorem divCeil_mul_eq_iff {a b : ℕ} (hb : 0 < b) : divCeil a b * b = a ↔ b ∣ a := by
  constructor
  · exact fun h => ⟨divCeil a b, by rw [Nat.mul_comm, h]⟩
  · rintro ⟨q, rfl⟩
    have hdiv : (b * q + b - 1) / b = q := by
      rw [Nat.add_sub_assoc (by omega), Nat.mul_add_div hb, Nat.div_eq_of_lt (by omega), Nat.add_zero]
    rw [divCeil, hdiv, Nat.mul_comm]

def PAGE_SIZE : ℕ := 4096

/-- The pages in a block of the highest order of the buddy allocator, more than which are never allocated at once. -/
def MAX_BLOCK : ℕ := 2 ^ 18

/-- A run of `count` physical pages and the bytes stored there. -/
structure PhysPage where
  count : ℕ
  bytes : ℕ → UInt8

abbrev Sector := Fin 512 → UInt8

def Sector.byte (s : Sector) (i : ℕ) : UInt8 := if h : i < 512 then s ⟨i, h⟩ else 0

def Sector.zero : Sector := fun _ => 0

/-- `PhysPage::new(1)` followed by `write_data(0, val)` for a 512-byte value. -/
def PhysPage.ofSector (s : Sector) : PhysPage := ⟨1, fun i => s.byte i⟩

def PhysPage.zeroed (count : ℕ) : PhysPage := ⟨count, fun _ => 0⟩

/-- A partition: `sectorCount` sectors of 512 bytes whose byte offsets fit a `u64`. -/
structure Disk where
  sectorCount : ℕ
  fits : sectorCount * 512 < 2 ^ 64
  sectors : ℕ → Sector

namespace Disk

/-- The bytes of `count` sectors from `start`; `none` is any storage error. Byte offsets
are `u64` values, so that only the low 55 bits of a sector number count. -/
def readSectors (d : Disk) (start count : ℕ) : Option (ℕ → UInt8) :=
  if count = 0 then none
  else if d.sectorCount < start % 2 ^ 55 + count then none
  else some fun i => (d.sectors (start % 2 ^ 55 + i / 512)).byte (i % 512)

def writeSectors (d : Disk) (start count : ℕ) (src : PhysPage) : Option Disk :=
  if count = 0 then some d
  else if src.count * PAGE_SIZE < count * 512 then none
  else if d.sectorCount < start % 2 ^ 55 + count then none
  -- the native blocks are found with the low bits, but none of their sectors is in the range to be copied
  else if 2 ^ 55 ≤ start then some d
  else some ⟨d.sectorCount, d.fits, fun a =>
    if start ≤ a ∧ a < start + count then fun b => src.bytes ((a - start) * 512 + b.val)
    else d.sectors a⟩

/-- The chunk loop of `zero_sectors`; it runs at most `rem` times. -/
def zeroLoop (page : PhysPage) : ℕ → ℕ → ℕ → Disk → Bool × Disk
  | 0, _, _, d => (true, d)
  | k + 1, sector, rem, d =>
    if rem = 0 then (true, d)
    else
      let chunk := min rem 0x1000
      match d.writeSectors sector chunk page with
      | none => (false, d)
      | some d' => zeroLoop page k (sector + chunk) (rem - chunk) d'

def zeroSectors (d : Disk) (start count : ℕ) : Bool × Disk :=
  d.zeroLoop (PhysPage.zeroed (divCeil (min count 0x1000) 8)) count start count

/-- More turns than there are sectors: a pointer chase that takes them all has
met some sector twice and goes on forever. -/
def fuel (d : Disk) : ℕ := d.sectorCount + 2

end Disk

def readData (d : Disk) (block : ℕ) : Except Fault Sector :=
  match d.readSectors block 1 with
  | none => .error (.fs .ioError)
  | some page => .ok fun i => page i.val

def Disk.writeData (d : Disk) (block : ℕ) (val : Sector) : Option Disk :=
  d.writeSectors block 1 (PhysPage.ofSector val)

end MaramOS
