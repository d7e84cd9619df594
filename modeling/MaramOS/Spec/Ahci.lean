import MaramOS.Spec.Storage

/-! The AHCI driver of `drivers/storage/ahci`. What the registers show is left to the
drive: which slots are busy, whether the port gets ready, and how a command ends, each
after the commands issued so far. A pointer into the command tables is an offset. -/

namespace MaramOS

def PRD_MAX_BYTES : ℕ := 2 ^ 21

def PRDS_PER_TABLE : ℕ := 16

def PRD_STRIDE : ℕ := 0x80 + PRDS_PER_TABLE * 16

def MAX_SECTORS_PER_CMD : ℕ := 2 ^ 16 - 1

/-- The register frame from host to device, without its reserved bytes. -/
structure FISRegisterH2D where
  portMultiplierCommand : UInt8
  command : UInt8
  featureLow : UInt8
  lba0 : UInt8
  lba1 : UInt8
  lba2 : UInt8
  device : UInt8
  lba3 : UInt8
  lba4 : UInt8
  lba5 : UInt8
  featureHigh : UInt8
  count : UInt16
  icc : UInt8
  control : UInt8
  deriving DecidableEq, Repr

def FISRegisterH2D.new (portMult command : UInt8) (feature lba count : ℕ) (icc control : UInt8) : FISRegisterH2D where
  portMultiplierCommand := portMult
  command := command
  featureLow := .ofNat feature
  featureHigh := .ofNat (feature >>> 8)
  lba0 := .ofNat lba
  lba1 := .ofNat (lba >>> 8)
  lba2 := .ofNat (lba >>> 16)
  lba3 := .ofNat (lba >>> 24)
  lba4 := .ofNat (lba >>> 32)
  lba5 := .ofNat (lba >>> 40)
  device := 0x40
  count := .ofNat count
  icc := icc
  control := control

/-- A descriptor, with its offset in the command tables. -/
structure PhysRegionDescTableEntry where
  offset : ℕ
  dataBaseAddr : ℕ
  dbc : ℕ
  deriving DecidableEq, Repr

/-- What the controller is given with one bit of the CI register. -/
structure Command where
  slot : ℕ
  fis : FISRegisterH2D
  isWrite : Bool
  cmdTableBaseAddr : ℕ
  prdTableLen : ℕ
  prds : List PhysRegionDescTableEntry
  deriving DecidableEq, Repr

structure AHCIDrive where
  blockSize : ℕ
  blockCount : ℕ
  /-- Five bits of the capabilities: the last slot. -/
  ncs : Fin 32
  /-- The physical address of the three pages of command tables. -/
  commandTables : ℕ
  /-- The region of the device reaches to the registers of the port. -/
  mapped : Bool
  /-- The bits of `sact | ci`. -/
  slots : List Command → ℕ
  ready : List Command → Bool
  outcome : List Command → Option StorageError

inductive AhciFault
  | storage (e : StorageError)
  | outOfMemory
  | panic
  | diverge
  deriving DecidableEq, Repr

/-- The `dbc` words in the command tables, and the commands issued so far. -/
structure AhciState where
  dbc : ℕ → ℕ
  issued : List Command

abbrev AhciProg := Prog AhciFault AhciState

/-- `set_descriptor_byte_count`; `none` is the failed assertion. -/
def setDescriptorByteCount (old byteCount : ℕ) : Option ℕ :=
  if 0 < byteCount ∧ byteCount ≤ 2 ^ 22 then some ((old &&& 0xFFC00000) ||| (byteCount - 1)) else none

def findSlot (slots ncs : ℕ) : Option ℕ := (List.range (ncs + 1)).find? fun i => slots &&& (1 <<< i) = 0

/-- The variables of the loop over the descriptors. -/
structure PrdState where
  rem : ℕ
  physOffset : ℕ
  dbc : ℕ → ℕ
  prds : List PhysRegionDescTableEntry

def setPrd (slot i : ℕ) (st : PrdState) : Option PrdState :=
  let chunk := min st.rem PRD_MAX_BYTES
  let offset := slot * PRD_STRIDE + 0x80 + i * 16
  (setDescriptorByteCount (st.dbc offset) chunk).map fun dbc =>
    { rem := wsub st.rem chunk
      physOffset := wadd st.physOffset chunk
      dbc := Function.update st.dbc offset dbc
      prds := st.prds ++ [⟨offset, st.physOffset, dbc⟩] }

/-- The turns of `for i in 0..num_prds` from `i` on. -/
def prdLoop (slot : ℕ) : ℕ → ℕ → PrdState → Option PrdState
  | 0, _, st => some st
  | n + 1, i, st => (setPrd slot i st).bind (prdLoop slot n (i + 1))

namespace AHCIDrive

variable (drive : AHCIDrive)

def sendCommand (fis : FISRegisterH2D) (data dataBytes : ℕ) (isWrite : Bool) : AhciProg Unit := fun s =>
  if drive.mapped = false then (.error (.storage .commandFailed), s)
  else
    match findSlot (drive.slots s.issued) drive.ncs with
    | none => (.error (.storage .commandFailed), s)
    | some slot =>
      -- `write_data` of the command table header
      if 3 * PAGE_SIZE < slot * PRD_STRIDE + 0x80 then (.error (.storage .commandFailed), s)
      else
        let numPrds := divCeil dataBytes PRD_MAX_BYTES
        match prdLoop slot numPrds 0 ⟨dataBytes, data, s.dbc, []⟩ with
        | none => (.error .panic, s)
        | some st =>
          -- `write_data` of the command header
          if PAGE_SIZE < 32 * slot + 32 ∨ drive.ready s.issued = false then
            (.error (.storage .commandFailed), ⟨st.dbc, s.issued⟩)
          else
            let issued := s.issued ++
              [⟨slot, fis, isWrite, wadd drive.commandTables (slot * PRD_STRIDE), numPrds % 2 ^ 16, st.prds⟩]
            match drive.outcome issued with
            | some e => (.error (.storage e), ⟨st.dbc, issued⟩)
            | none => (.ok (), ⟨st.dbc, issued⟩)

/-- `PhysAddr + u64`, which panics when it leaves the 52 bits of a physical address. -/
def physAdd (phys offset : ℕ) : AhciProg ℕ := if phys + offset < 2 ^ 52 then pure (phys + offset) else Prog.fail .panic

/-- The loop of `read_blocks` and `write_blocks` from `offset` on, within `fuel` turns. -/
def transferLoop (command : UInt8) (isWrite : Bool) (start count phys : ℕ) : ℕ → ℕ → AhciProg Unit
  | 0, offset => if offset < count then Prog.fail .diverge else pure ()
  | fuel + 1, offset =>
    if offset < count then do
      let max := PRDS_PER_TABLE * PRD_MAX_BYTES / drive.blockSize
      let chunks := min (min (count - offset) MAX_SECTORS_PER_CMD) max
      let fis := FISRegisterH2D.new 0x80 command 0 (wadd start offset) chunks 0 0
      let addr ← physAdd phys (wmul offset drive.blockSize)
      drive.sendCommand fis addr (wmul chunks drive.blockSize) isWrite
      transferLoop command isWrite start count phys fuel (wadd offset chunks)
    else pure ()

/-- The size check of a buffer of `pages` pages. -/
def refuses (count pages : ℕ) : Bool := wmul pages PAGE_SIZE < wmul count drive.blockSize

def transferBlocks (command : UInt8) (isWrite : Bool) (start count phys pages fuel : ℕ) : AhciProg Unit :=
  if drive.blockSize = 0 then Prog.fail .panic
  else if wadd start count > drive.blockCount then Prog.fail (.storage .blockOutOfBounds)
  else if drive.refuses count pages then Prog.fail (.storage .commandFailed)
  else drive.transferLoop command isWrite start count phys fuel 0

def readBlocks (start count phys pages fuel : ℕ) : AhciProg Unit :=
  drive.transferBlocks 0x25 false start count phys pages fuel

def writeBlocks (start count phys pages fuel : ℕ) : AhciProg Unit :=
  drive.transferBlocks 0x35 true start count phys pages fuel

/-- The pages that `read_smart` allocates. -/
def smartPages (count : ℕ) : ℕ := divCeil count (divCeil PAGE_SIZE drive.blockSize)

/-- `read_smart`, when the allocator answers with the physical address of so many pages. -/
def readSmart (alloc : ℕ → Option ℕ) (start count fuel : ℕ) : AhciProg ℕ :=
  if drive.blockSize = 0 then Prog.fail .panic
  else
    match alloc (drive.smartPages count) with
    | none => Prog.fail .outOfMemory
    | some phys => do
      drive.readBlocks start count phys (drive.smartPages count) fuel
      return phys

end AHCIDrive

end MaramOS
