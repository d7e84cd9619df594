import MaramOS.Spec.Format
import MaramOS.Spec.Hpet

/-! The interrupt controllers: the parser of `acpi/apic/mod.rs` for the MADT, with the
checksum of `acpi/mod.rs`, and the I/O APICs of `acpi/apic/ioapic.rs`. -/

namespace MaramOS

inductive AcpiFault
  | acpi (e : ACPIError)
  | panic
  | diverge
  deriving DecidableEq, Repr

structure IOApic where
  apicId : ℕ
  address : ℕ
  gsiBase : ℕ
  deriving DecidableEq, Repr

structure InterruptOverride where
  source : ℕ
  gsi : ℕ
  flags : ℕ
  deriving DecidableEq, Repr

namespace Madt

/-- `verify_checksum` for the table that begins at the first byte of `mem`. -/
def verifyChecksum (mem : ℕ → UInt8) : Bool := ((List.range (leNumber mem 4 4)).map mem).foldl (· + ·) 0 == 0

/-- The offsets of the bytes that were read, counted from the beginning of the table. -/
abbrev Reader (α : Type) : Type := Prog AcpiFault (List ℕ) α

/-- A read of `size` bytes through a pointer. -/
def readAt (mem : ℕ → UInt8) (offset size : ℕ) : Reader ℕ := fun log =>
  (.ok (leNumber mem offset size), log ++ List.range' offset size)

def readIOApic (mem : ℕ → UInt8) (addr : ℕ) : Reader IOApic := do
  let apicId ← readAt mem (addr + 2) 1
  let address ← readAt mem (addr + 4) 4
  let gsiBase ← readAt mem (addr + 8) 4
  pure ⟨apicId, address, gsiBase⟩

def readOverride (mem : ℕ → UInt8) (addr : ℕ) : Reader InterruptOverride := do
  let source ← readAt mem (addr + 3) 1
  let gsi ← readAt mem (addr + 4) 4
  let flags ← readAt mem (addr + 8) 2
  pure ⟨source, gsi, flags⟩

/-- The loop of `init_apic`; the first argument bounds its turns. -/
def initApicLoop (mem : ℕ → UInt8) (length : ℕ) :
    ℕ → ℕ → List IOApic → List InterruptOverride → Reader (List IOApic × List InterruptOverride)
  | 0, _, _, _ => Prog.fail .diverge
  | turns + 1, offset, ioapicVec, overrideVec =>
    if offset < length then do
      let entryType ← readAt mem offset 1
      let entryLength ← readAt mem (offset + 1) 1
      if entryLength = 0 then Prog.fail (.acpi .madtEntryLengthZero)
      else if entryType = 0x01 then do
        let ioapic ← readIOApic mem offset
        initApicLoop mem length turns (offset + entryLength) (ioapicVec ++ [ioapic]) overrideVec
      else if entryType = 0x02 then do
        let override ← readOverride mem offset
        initApicLoop mem length turns (offset + entryLength) ioapicVec (overrideVec ++ [override])
      else initApicLoop mem length turns (offset + entryLength) ioapicVec overrideVec
    else pure (ioapicVec, overrideVec)

/-- `init_apic`, with the two lists that it stores. The entries start after the header of 44 bytes. -/
def initApic (mem : ℕ → UInt8) : Reader (List IOApic × List InterruptOverride) := do
  let length ← readAt mem 4 4
  initApicLoop mem length (length + 1) 44 [] []

end Madt

/-- The statics of `ioapic.rs`, the registers of the controller at each address, and the pairs of controller
and register number that were accessed. -/
structure IOApicState where
  ioapics : Option (List IOApic)
  regions : Option (List ℕ)
  registers : ℕ → UInt8 → UInt32
  accesses : List (ℕ × UInt8)

namespace IOApic

abbrev Access (α : Type) : Type := Prog AcpiFault IOApicState α

def RTE_BASE : UInt8 := 0x10

/-- The loop of `ioapic_index` from the `i`th controller on. -/
def indexLoop (gsi : ℕ) : List IOApic → ℕ → Option ℕ
  | [], _ => none
  | ioapic :: rest, i =>
    let nextBase := (rest.head?.map IOApic.gsiBase).getD (2 ^ 32 - 1)
    if ioapic.gsiBase ≤ gsi ∧ gsi < nextBase then some i else indexLoop gsi rest (i + 1)

def ioapicIndex (ioapics : Option (List IOApic)) (gsi : ℕ) : Except ACPIError ℕ :=
  match ioapics with
  | none => .error .ioapicNotInitialized
  | some ioapics =>
    match indexLoop gsi ioapics 0 with
    | none => .error .gsiUnderflow
    | some i => .ok i

def index (gsi : ℕ) : Access ℕ :=
  Prog.reads fun s => (ioapicIndex s.ioapics gsi).mapError .acpi

def gsiToEntry (gsi : ℕ) : Access UInt8 := do
  let index ← index gsi
  let ioapic ← Prog.reads fun s =>
    match s.ioapics with
    | none => .error (.acpi .ioapicNotInitialized)
    | some ioapics =>
      match ioapics[index]? with
      | none => .error .panic
      | some ioapic => .ok ioapic
  if gsi < ioapic.gsiBase then Prog.fail (.acpi .gsiUnderflow)
  else pure (UInt8.ofNat (gsi - ioapic.gsiBase))

def region (index : ℕ) : Access ℕ := Prog.reads fun s =>
  match s.regions with
  | none => .error (.acpi .ioapicNotInitialized)
  | some regions =>
    match regions[index]? with
    | none => .error .panic
    | some region => .ok region

def ioapicRead (index : ℕ) (reg : UInt8) : Access UInt32 := do
  let region ← region index
  Prog.modify fun s => { s with accesses := s.accesses ++ [(index, reg)] }
  Prog.reads fun s => .ok (s.registers region reg)

def ioapicWrite (index : ℕ) (reg : UInt8) (val : UInt32) : Access Unit := do
  let region ← region index
  Prog.modify fun s => { s with
    accesses := s.accesses ++ [(index, reg)]
    registers := Function.update s.registers region (Function.update (s.registers region) reg val) }

def redirect (gsi : ℕ) (vector cpu : UInt8) (flags : UInt16) : Access Unit := do
  let index ← index gsi
  let entry ← gsiToEntry gsi
  let polarity := ((flags >>> 1) &&& 1).toUInt32
  let trigger := ((flags >>> 3) &&& 1).toUInt32
  let regLow := RTE_BASE + 2 * entry
  let regHigh := RTE_BASE + 2 * entry + 1
  let oldLow ← ioapicRead index regLow
  let newLow := (oldLow &&& ~~~((0xFF : UInt32) ||| ((0b10101 : UInt32) <<< 11))) ||| vector.toUInt32 |||
    (polarity <<< 13) ||| (trigger <<< 15)
  ioapicWrite index regLow newLow
  ioapicWrite index regHigh (cpu.toUInt32 <<< 24)

def unmask (gsi : ℕ) : Access Unit := do
  let index ← index gsi
  let entry ← gsiToEntry gsi
  let regLow := RTE_BASE + 2 * entry
  let val ← ioapicRead index regLow
  ioapicWrite index regLow (val &&& ~~~((1 : UInt32) <<< 16))

def mask (gsi : ℕ) : Access Unit := do
  let index ← index gsi
  let entry ← gsiToEntry gsi
  let regLow := RTE_BASE + 2 * entry
  let val ← ioapicRead index regLow
  ioapicWrite index regLow (val ||| ((1 : UInt32) <<< 16))

end IOApic

end MaramOS
