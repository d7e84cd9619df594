import MaramOS.Spec.Mmio

/-! The configuration space of PCI functions, `drivers/pci/config.rs`. A segment maps its
functions into memory, one page each, and all accesses are to 32-bit registers. -/

namespace MaramOS.Pci

inductive PCIError
  | invalidMCFGEntry
  deriving DecidableEq, Repr

structure Segment where
  baseAddress : ℕ
  startBus : ℕ
  endBus : ℕ
  region : Option MMIORegion
  deriving DecidableEq, Repr

/-- `init_segments`, with the segments that it stores. -/
def initSegments [Mapper] : List Segment → VMem (Except PCIError (List Segment))
  | [] => pure (.ok [])
  | segment :: rest => do
    if segment.startBus > segment.endBus then pure (.error .invalidMCFGEntry)
    else
      let bytes := (segment.endBus - segment.startBus + 1) <<< 20
      let pages := divCeil bytes PAGE_SIZE
      let region ← MMIORegion.new segment.baseAddress pages
      match ← initSegments rest with
      | .error e => pure (.error e)
      | .ok segments => pure (.ok ({ segment with region := region } :: segments))

/-- The registers by their physical addresses, and the bits of each that a write changes. -/
structure ConfigSpace where
  registers : ℕ → BitVec 32
  writable : ℕ → BitVec 32

/-- What is in a register after a write: the bits that are not writable stay. -/
def merge {w : ℕ} (writable old val : BitVec w) : BitVec w := (old &&& ~~~writable) ||| (val &&& writable)

def ConfigSpace.write (c : ConfigSpace) (addr : ℕ) (val : BitVec 32) : ConfigSpace :=
  { c with registers := Function.update c.registers addr (merge (c.writable addr) (c.registers addr) val) }

/-- The ways a call can end without a value: it returns `None`, or a loop never ends. -/
inductive Stop
  | none
  | diverge
  deriving DecidableEq, Repr

abbrev Config (α : Type) : Type := Prog Stop ConfigSpace α

/-- The physical address of the register at an offset of the region, which begins at the page of the base address. -/
def Segment.register (entry : Segment) (offset : ℕ) : Option ℕ :=
  match entry.region with
  | none => none
  | some m =>
    if m.region.size < wadd offset 4 then none
    else if ¬4 ∣ offset then none
    else some (entry.baseAddress / PAGE_SIZE * PAGE_SIZE + offset)

def ecamOffset (entry : Segment) (bus device function offset : ℕ) : Option ℕ :=
  if bus < entry.startBus ∨ bus > entry.endBus then none
  else
    let busOffset := (bus - entry.startBus) <<< 20
    let devOffset := device <<< 15
    let funcOffset := function <<< 12
    let regOffset := offset &&& 0xFC
    some (busOffset ||| devOffset ||| funcOffset ||| regOffset)

/-- The register that `read32` and `write32` access. -/
def locate (entry : Segment) (bus device function offset : ℕ) : Option ℕ :=
  match ecamOffset entry bus device function offset with
  | none => none
  | some offset => entry.register offset

section Accessors

variable (entry : Segment) (bus device function offset : ℕ)

def read32 : Config (BitVec 32) := Prog.reads fun c =>
  match locate entry bus device function offset with
  | none => .error .none
  | some addr => .ok (c.registers addr)

def write32 (val : BitVec 32) : Config Unit := fun c =>
  match locate entry bus device function offset with
  | none => (.error .none, c)
  | some addr => (.ok (), c.write addr val)

def read16 : Config (BitVec 16) := do
  let aligned := offset &&& 0xFFFE
  let shift := (offset &&& 2) * 8
  let dword ← read32 entry bus device function aligned
  pure ((dword >>> shift).setWidth 16)

def write16 (val : BitVec 16) : Config Unit := do
  let aligned := offset &&& 0xFFFE
  let shift := (offset &&& 2) * 8
  let old ← read32 entry bus device function aligned
  let mask := 0xFFFF#32 <<< shift
  write32 entry bus device function aligned ((old &&& ~~~mask) ||| (val.setWidth 32 <<< shift))

def read8 : Config (BitVec 8) := do
  let aligned := offset &&& 0xFFFC
  let shift := (offset &&& 3) * 8
  let dword ← read32 entry bus device function aligned
  pure ((dword >>> shift).setWidth 8)

def write8 (val : BitVec 8) : Config Unit := do
  let aligned := offset &&& 0xFFFC
  let shift := (offset &&& 3) * 8
  let old ← read32 entry bus device function aligned
  let mask := 0xFF#32 <<< shift
  write32 entry bus device function aligned ((old &&& ~~~mask) ||| (val.setWidth 32 <<< shift))

end Accessors

def findEntry (segments : List Segment) (bus : ℕ) : Option Segment :=
  segments.find? fun s => s.startBus ≤ bus && bus ≤ s.endBus

end MaramOS.Pci
