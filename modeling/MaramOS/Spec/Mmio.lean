import MaramOS.Spec.Hhdm

/-! Memory-mapped I/O: `MMIORegion` and `MMIORegister` of `memory/wrappers.rs`. A volatile
access is modelled by the physical addresses of its bytes. -/

namespace MaramOS

def PageTableFlags.WRITE_THROUGH : PageTableFlags := 0x8

def PageTableFlags.NO_CACHE : PageTableFlags := 0x10

/-- `size_of` and `align_of` of the type of a register. -/
structure RegisterType where
  sizeOf : ℕ
  alignOf : ℕ
  pos : 0 < alignOf
  dvd : alignOf ∣ sizeOf

/-- Where the bytes of a volatile access lie; `none` is a byte that is not mapped. -/
def volatileAccess (T : RegisterType) (ptr : ℕ) : VMem (List (Option ℕ)) := fun s =>
  (.ok ((List.range T.sizeOf).map fun i => s.pageTable.translate (ptr + i)), s)

structure MMIORegion where
  region : VirtualRegion
  deriving DecidableEq, Repr

structure MMIORegister where
  ptr : ℕ

namespace MMIORegister

def read (r : MMIORegister) (T : RegisterType) : VMem (List (Option ℕ)) := volatileAccess T r.ptr

def write (r : MMIORegister) (T : RegisterType) : VMem (List (Option ℕ)) := volatileAccess T r.ptr

end MMIORegister

namespace MMIORegion

def mmioFlags : PageTableFlags :=
  PageTableFlags.NO_CACHE ||| PageTableFlags.NO_EXECUTE ||| PageTableFlags.GLOBAL ||| PageTableFlags.WRITABLE |||
    PageTableFlags.WRITE_THROUGH

def new [Mapper] (phys pages : ℕ) : VMem (Option MMIORegion) := do
  match ← VMemAllocator.alloc pages with
  | none => pure none
  | some region =>
    match ← VMemAllocator.attempt (VMemAllocator.map region phys mmioFlags) with
    | .ok () => pure (some ⟨region⟩)
    | .error _ => do
      let _ ← VMemAllocator.attempt (VMemAllocator.free region)
      pure none

/-- The body of `read` and `write`, which differ in the access only. -/
def access (m : MMIORegion) (T : RegisterType) (offset : ℕ) : VMem (Option (List (Option ℕ))) :=
  if m.region.size < wadd offset T.sizeOf then pure none
  else if ¬T.alignOf ∣ offset then pure none
  else do
    let ptr ← virtAddr (m.region.start + offset)
    let bytes ← volatileAccess T ptr
    pure (some bytes)

def read (m : MMIORegion) (T : RegisterType) (offset : ℕ) : VMem (Option (List (Option ℕ))) := m.access T offset

/-- `none` stands for the answer `false`. -/
def write (m : MMIORegion) (T : RegisterType) (offset : ℕ) : VMem (Option (List (Option ℕ))) := m.access T offset

def register (m : MMIORegion) (T : RegisterType) (offset : ℕ) : VMem (Option MMIORegister) :=
  if ¬T.alignOf ∣ offset then pure none
  else if m.region.size < wadd offset T.sizeOf then pure none
  else do
    let ptr ← virtAddr (m.region.start + offset)
    pure (some ⟨ptr⟩)

end MMIORegion

end MaramOS
