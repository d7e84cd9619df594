import MaramOS.Spec.PciConfig

/-! PCI functions: what `drivers/pci/device.rs` reads of one, and the enumeration of
`drivers/pci/mod.rs`. -/

namespace MaramOS.Pci

structure BarInfo where
  address : BitVec 64
  size : BitVec 64
  isMmio : Bool
  is64Bit : Bool
  deriving DecidableEq, Repr

def BarInfo.empty : BarInfo := ⟨0, 0, false, false⟩

structure CapHeader where
  id : BitVec 8
  offset : BitVec 8
  deriving DecidableEq, Repr

structure PCIFunction where
  bus : ℕ
  device : ℕ
  function : ℕ
  vendorId : BitVec 16
  deviceId : BitVec 16
  revision : BitVec 8
  classCode : BitVec 8
  subclass : BitVec 8
  progIf : BitVec 8
  bars : List BarInfo
  caps : List CapHeader
  deriving DecidableEq, Repr

section Parsing

variable (segment : Segment) (bus device function : ℕ)

/-- The branch of `parse_bars` for a 32-bit memory BAR. -/
def parseBar32 (offset : ℕ) (original : BitVec 32) : Config BarInfo := do
  write32 segment bus device function offset (BitVec.allOnes 32)
  let mask ← read32 segment bus device function offset
  write32 segment bus device function offset original
  let x := 0xFFFFFFF0#32
  pure ⟨(original &&& x).setWidth 64, (~~~(mask &&& x) + 1).setWidth 64, true, false⟩

/-- The branch for a 64-bit memory BAR. -/
def parseBar64 (offset : ℕ) (original : BitVec 32) : Config BarInfo := do
  let originalHigh ← read32 segment bus device function (offset + 4)
  write32 segment bus device function offset (BitVec.allOnes 32)
  write32 segment bus device function (offset + 4) (BitVec.allOnes 32)
  let maskHigh ← read32 segment bus device function (offset + 4)
  let maskLow ← read32 segment bus device function offset
  write32 segment bus device function (offset + 4) originalHigh
  write32 segment bus device function offset original
  let mask := (maskHigh.setWidth 64 <<< 32) ||| maskLow.setWidth 64
  let addr := (originalHigh.setWidth 64 <<< 32) ||| original.setWidth 64
  let size := ~~~(mask &&& ~~~0xF#64) + 1
  pure ⟨addr &&& ~~~0xF#64, size, true, true⟩

def parseBarIo (offset : ℕ) (original : BitVec 32) : Config BarInfo := do
  write32 segment bus device function offset (BitVec.allOnes 32)
  let mask ← read32 segment bus device function offset
  write32 segment bus device function offset original
  pure ⟨(original &&& 0xFFFC#32).setWidth 64, (~~~(mask &&& 0xFFFC#32) + 1).setWidth 64, false, false⟩

/-- The loop of `parse_bars`, by the slots that the iterator has left. -/
def parseBarsLoop : ℕ → Config (List BarInfo)
  | 0 => pure []
  | len + 1 => do
    let i := 5 - len
    let offset := 0x10 + i * 4
    let original ← read32 segment bus device function offset
    if original = 0 then return .empty :: (← parseBarsLoop len)
    else
      let isMmio := original &&& 1 = 0
      let barType := (original >>> 1) &&& 3
      if barType = 0 ∧ isMmio then do
        let bar ← parseBar32 segment bus device function offset original
        return bar :: (← parseBarsLoop len)
      else if barType = 2 ∧ isMmio then
        match len with
        -- the last BAR cannot be 64 bits wide
        | 0 => return [.empty]
        | len + 1 => do
          let bar ← parseBar64 segment bus device function offset original
          return bar :: .empty :: (← parseBarsLoop len)
      else if ¬isMmio then do
        let bar ← parseBarIo segment bus device function offset original
        return bar :: (← parseBarsLoop len)
      else return .empty :: (← parseBarsLoop len)

def parseBars : Config (List BarInfo) := parseBarsLoop segment bus device function 6

/-- The loop of `parse_caps`, by the turns that are left. -/
def parseCapsLoop : ℕ → BitVec 8 → List CapHeader → Config (List CapHeader)
  | 0, _, caps => pure caps
  | turns + 1, offset, caps => do
    let id ← read8 segment bus device function offset.toNat
    let next ← read8 segment bus device function (offset.toNat + 1)
    let caps := caps ++ [⟨id, offset⟩]
    if next = 0 ∨ next < 0x40 ∨ next = offset then pure caps
    else parseCapsLoop turns next caps

def parseCaps : Config (List CapHeader) := do
  let capsPtr ← read8 segment bus device function 0x34
  if capsPtr = 0 then Prog.fail .none
  else parseCapsLoop segment bus device function 48 capsPtr []

/-- `unwrap_or`: a value in place of `None`. -/
def unwrapOr {α : Type} (x : Config α) (default : α) : Config α := fun c =>
  match x c with
  | (.error .none, c') => (.ok default, c')
  | (.error .diverge, c') => (.error .diverge, c')
  | (.ok a, c') => (.ok a, c')

/-- `PCIFunction::new` after it has found the segment of the bus. -/
def PCIFunction.newIn : Config PCIFunction := do
  let vendorData ← read32 segment bus device function 0
  let vendorId := vendorData.setWidth 16
  if vendorId = 0xFFFF then Prog.fail .none
  else
    let deviceId := (vendorData >>> 16).setWidth 16
    let classData ← read32 segment bus device function 8
    let revision := (classData &&& 0xFF).setWidth 8
    let progIf := ((classData >>> 8) &&& 0xFF).setWidth 8
    let subclass := ((classData >>> 16) &&& 0xFF).setWidth 8
    let classCode := ((classData >>> 24) &&& 0xFF).setWidth 8
    let bars ← parseBars segment bus device function
    let caps ← unwrapOr (parseCaps segment bus device function) []
    pure ⟨bus, device, function, vendorId, deviceId, revision, classCode, subclass, progIf, bars, caps⟩

end Parsing

def PCIFunction.new (segments : List Segment) (bus device function : ℕ) : Config PCIFunction :=
  match findEntry segments bus with
  | none => Prog.fail .none
  | some segment => PCIFunction.newIn segment bus device function

/-- The local variables of `scan`; the last element of `to_scan` comes first. -/
structure ScanState where
  devices : List PCIFunction
  toScan : List (Segment × ℕ)
  scannedBuses : List (ℕ × ℕ)

namespace ScanState

def busScanned (st : ScanState) (segment : Segment) (bus : ℕ) : Bool :=
  st.scannedBuses.any fun p => p.1 = segment.baseAddress && p.2 = bus

/-- The loops over buses of `scan` and `visit_function`: those that were not marked are marked and pushed. -/
def pushBuses (segment : Segment) (st : ScanState) (buses : List ℕ) : ScanState :=
  buses.foldl (fun st bus =>
    if st.busScanned segment bus then st
    else { st with scannedBuses := st.scannedBuses ++ [(segment.baseAddress, bus)],
                   toScan := (segment, bus) :: st.toScan }) st

end ScanState

def visitFunction (segments : List Segment) (segment : Segment) (bus device function : ℕ) (st : ScanState) :
    Config ScanState := do
  match ← unwrapOr (some <$> PCIFunction.new segments bus device function) none with
  | none => pure st
  | some func => do
    let st := { st with devices := st.devices ++ [func] }
    let header ← unwrapOr (read32 segment bus device function 0xC) 0
    if (header >>> 16) &&& 0x7F = 1 then do
      let reg ← unwrapOr (read32 segment bus device function 0x18) 0
      let secBus := ((reg >>> 8) &&& 0xFF).toNat
      let subBus := ((reg >>> 16) &&& 0xFF).toNat
      -- empty when `sec_bus` is the greater one
      pure (st.pushBuses segment (List.range' secBus (subBus + 1 - secBus)))
    else pure st

/-- The test for a function, which answers all ones when there is none. -/
def absent (segment : Segment) (bus device function : ℕ) : Config Bool := do
  let vendor ← unwrapOr (read16 segment bus device function 0) 0xFFFF
  pure (vendor = 0xFFFF)

/-- The body of the loop of `scan` over the devices of a bus. -/
def visitDevice (segments : List Segment) (segment : Segment) (bus : ℕ) (st : ScanState) (device : ℕ) :
    Config ScanState := do
  if ← absent segment bus device 0 then pure st
  else
    let header ← unwrapOr (read32 segment bus device 0 0xC) 0
    let headerType := (header >>> 16) &&& 0xFF
    let st ← visitFunction segments segment bus device 0 st
    if headerType &&& 0x80 ≠ 0 then
      (List.range' 1 7).foldlM (fun st function => do
        if ← absent segment bus device function then pure st
        else visitFunction segments segment bus device function st) st
    else pure st

/-- The loop of `scan` over `to_scan`; the first argument bounds its turns. -/
def scanLoop (segments : List Segment) : ℕ → ScanState → Config (List PCIFunction)
  | 0, _ => Prog.fail .diverge
  | turns + 1, st =>
    match st.toScan with
    | [] => pure st.devices
    | (segment, bus) :: rest => do
      let st ← (List.range 32).foldlM (visitDevice segments segment bus) { st with toScan := rest }
      scanLoop segments turns st

def seedBuses (segments : List Segment) : ScanState :=
  segments.foldl (fun st segment =>
    st.pushBuses segment (List.range' segment.startBus (segment.endBus + 1 - segment.startBus))) ⟨[], [], []⟩

/-- No pair of base address and bus is pushed twice, so that 256 turns for each segment and one more are enough. -/
def scan (segments : List Segment) : Config (List PCIFunction) :=
  scanLoop segments (segments.length * 256 + 1) (seedBuses segments)

end MaramOS.Pci
