import MaramOS.Spec.Buddy
import MaramOS.Spec.RangeAllocator

/-! The start of the physical memory allocator in `memory/physical.rs`: the usable
entries of the memory map are cut into blocks, largest first. -/

namespace MaramOS

/-- An entry of the memory map; other fields of it are not read. -/
structure MemmapEntry where
  base : ℕ
  length : ℕ
  type : ℕ
  deriving DecidableEq, Repr

def MEMMAP_USABLE : ℕ := 0

namespace Physical

open BuddyAllocator RangeAllocator

abbrev Buddy := BuddyAllocator 12 19 64 true

/-- The inner loop, which goes down from `order` to a block that is aligned and fits. -/
def pickOrder (addr rem : ℕ) : ℕ → ℕ
  | 0 => 0
  | order + 1 =>
    if blockSize 12 (order + 1) ≤ rem ∧ blockSize 12 (order + 1) ∣ addr then order + 1 else pickOrder addr rem order

/-- The loop over the pages of an entry. -/
def pushEntry (stop : ℕ) : ℕ → ℕ → Buddy → Except Fault Buddy
  | 0, _, _ => .error .diverge
  | fuel + 1, addr, alloc =>
    if wadd addr PAGE_SIZE ≤ stop then
      let order := pickOrder addr (wsub stop addr) (maxOrder 19)
      pushEntry stop fuel (wadd addr (blockSize 12 order)) (alloc.push addr order)
    else .ok alloc

/-- The body of the loop over the memory map. -/
def initEntry (alloc : Buddy) (entry : MemmapEntry) : Except Fault Buddy :=
  if entry.type ≠ MEMMAP_USABLE then .ok alloc
  else
    let stop := wadd entry.length entry.base
    pushEntry stop (stop + 1) (nextMultipleOf entry.base PAGE_SIZE) alloc

/-- `mem` is the memory behind the direct map. -/
def init (mmap : List MemmapEntry) (mem : Memory) : Except Fault Buddy := mmap.foldlM initEntry (new 12 19 64 true mem)

end Physical

end MaramOS
