import MaramOS.Spec.Buddy

/-! The kernel heap of `memory/heap.rs`: layouts are served in units of 16 bytes by a
buddy allocator with a slab. -/

namespace MaramOS

structure Layout where
  size : ℕ
  align : ℕ
  power : ∃ k < 64, align = 2 ^ k
  bounded : size < 2 ^ 64

namespace Heap

abbrev Buddy := BuddyAllocator 4 17 64 true

def HEAP_SIZE : ℕ := 1024 * 1024

/-- `addr` is the address of the pages that were allocated for the heap. -/
def init (addr : ℕ) (mem : Memory) : Buddy :=
  let count := divCeil HEAP_SIZE PAGE_SIZE
  let order := trailingZeros (nextPowerOfTwo (count * PAGE_SIZE)) - 4
  (BuddyAllocator.new 4 17 64 true mem).push addr order

def layoutToSize (layout : Layout) : ℕ :=
  let alignUnits := divCeil layout.align 16
  let units := divCeil (max layout.size 16) 16
  if alignUnits = 1 then units else nextPowerOfTwo (max units alignUnits)

/-- `unwrap_or(0)` makes the null pointer. -/
def alloc (h : Buddy) (layout : Layout) : Except Fault (ℕ × Buddy) := do
  let (addr, h) ← h.allocRange (layoutToSize layout)
  .ok (addr.getD 0, h)

def dealloc (h : Buddy) (ptr : ℕ) (layout : Layout) : Except Fault Buddy := h.freeRange ptr (layoutToSize layout)

end Heap

end MaramOS
