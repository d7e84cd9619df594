import Mathlib.Data.Nat.Log
import MaramOS.Spec.Slab

/-! The buddy allocator of `allocators/buddy.rs`: one list of free blocks for each
order, threaded through the free memory, and a slab for counts that are no power
of two. The const parameters are parameters of the type. -/

namespace MaramOS

/-- `usize::next_power_of_two`, which wraps to zero. -/
def nextPowerOfTwo (n : ℕ) : ℕ := 2 ^ Nat.clog 2 n % 2 ^ 64

def trailingZeros (n : ℕ) : ℕ := ((List.range 64).find? fun i => n.testBit i).getD 64

/-- The order of a block of `count` units, rounded up. -/
def orderOf (count : ℕ) : ℕ := trailingZeros (nextPowerOfTwo count)

structure BuddyAllocator (minOrder orderCount slabBlocks : ℕ) (hasSlab : Bool) where
  heads : ℕ → ℕ
  slab : PageSlab slabBlocks
  mem : Memory

namespace BuddyAllocator

variable {minOrder orderCount slabBlocks : ℕ} {hasSlab : Bool}

/-- The allocator before any block is pushed, over memory with any content. -/
def new (minOrder orderCount slabBlocks : ℕ) (hasSlab : Bool) (mem : Memory) :
    BuddyAllocator minOrder orderCount slabBlocks hasSlab :=
  ⟨fun _ => 0, PageSlab.new slabBlocks (2 ^ minOrder), mem⟩

def blockSize (minOrder order : ℕ) : ℕ := 2 ^ (order + minOrder)

def maxOrder (orderCount : ℕ) : ℕ := orderCount - 1

def buddyOf (minOrder addr order : ℕ) : ℕ := addr ^^^ blockSize minOrder order

def push (h : BuddyAllocator minOrder orderCount slabBlocks hasSlab) (addr order : ℕ) :
    BuddyAllocator minOrder orderCount slabBlocks hasSlab :=
  { h with mem := Function.update h.mem addr (h.heads order), heads := Function.update h.heads order addr }

def pop (h : BuddyAllocator minOrder orderCount slabBlocks hasSlab) (order : ℕ) :
    Option ℕ × BuddyAllocator minOrder orderCount slabBlocks hasSlab :=
  let head := h.heads order
  if head = 0 then (none, h)
  else (some head, { h with heads := Function.update h.heads order (h.mem head) })

/-- Writing through `prev_ptr`: it points to the head of the list or to a block. -/
def setLink (h : BuddyAllocator minOrder orderCount slabBlocks hasSlab) (order : ℕ) (prev : Option ℕ) (target : ℕ) :
    BuddyAllocator minOrder orderCount slabBlocks hasSlab :=
  match prev with
  | none => { h with heads := Function.update h.heads order target }
  | some a => { h with mem := Function.update h.mem a target }

def removeLoop (addr order : ℕ) : ℕ → Option ℕ → ℕ → BuddyAllocator minOrder orderCount slabBlocks hasSlab →
    Except Fault (Bool × BuddyAllocator minOrder orderCount slabBlocks hasSlab)
  | 0, _, _, _ => .error .diverge
  | fuel + 1, prev, current, h =>
    if current = 0 then .ok (false, h)
    else if current = addr then .ok (true, h.setLink order prev (h.mem current))
    else removeLoop addr order fuel (some current) (h.mem current) h

def remove (h : BuddyAllocator minOrder orderCount slabBlocks hasSlab) (addr order : ℕ) :
    Except Fault (Bool × BuddyAllocator minOrder orderCount slabBlocks hasSlab) :=
  removeLoop addr order walkFuel none (h.heads order) h

/-- The loop of `alloc` that pushes the upper halves: `found` is `order + n`. -/
def splitLoop (block order : ℕ) : ℕ → BuddyAllocator minOrder orderCount slabBlocks hasSlab →
    BuddyAllocator minOrder orderCount slabBlocks hasSlab
  | 0, h => h
  | n + 1, h => splitLoop block order n (h.push (wadd block (blockSize minOrder (order + n))) (order + n))

def alloc (h : BuddyAllocator minOrder orderCount slabBlocks hasSlab) (order : ℕ) :
    Option ℕ × BuddyAllocator minOrder orderCount slabBlocks hasSlab :=
  if maxOrder orderCount < order then (none, h)
  else
    match (List.range' order (maxOrder orderCount + 1 - order)).find? fun found => h.heads found != 0 with
    | none => (none, h)
    | some found =>
      match h.pop found with
      | (none, h') => (none, h')
      | (some block, h') => (some block, splitLoop block order (found - order) h')

/-- The loop of `free_with`; the highest order is `n` above `order`. -/
def freeLoop (canMerge : ℕ → ℕ → Bool) : ℕ → ℕ → ℕ → BuddyAllocator minOrder orderCount slabBlocks hasSlab →
    Except Fault (BuddyAllocator minOrder orderCount slabBlocks hasSlab)
  | 0, addr, order, h => .ok (h.push addr order)
  | n + 1, addr, order, h => do
    let buddy := buddyOf minOrder addr order
    if !canMerge buddy order then .ok (h.push addr order)
    else
      let (removed, h') ← h.remove buddy order
      if removed then freeLoop canMerge n (min addr buddy) (order + 1) h'
      else .ok (h'.push addr order)

def freeWith (h : BuddyAllocator minOrder orderCount slabBlocks hasSlab) (addr order : ℕ) (canMerge : ℕ → ℕ → Bool) :
    Except Fault (BuddyAllocator minOrder orderCount slabBlocks hasSlab) :=
  if maxOrder orderCount < order then .ok h
  else freeLoop canMerge (maxOrder orderCount - order) addr order h

def free (h : BuddyAllocator minOrder orderCount slabBlocks hasSlab) (addr order : ℕ) :
    Except Fault (BuddyAllocator minOrder orderCount slabBlocks hasSlab) :=
  h.freeWith addr order fun _ _ => true

def slabAllocate (h : BuddyAllocator minOrder orderCount slabBlocks hasSlab) (count : ℕ) :
    Except Fault (Option ℕ × BuddyAllocator minOrder orderCount slabBlocks hasSlab) := do
  match ← h.slab.allocate count h.mem with
  | some (addr, slab, mem) => .ok (some addr, { h with slab := slab, mem := mem })
  | none => .ok (none, h)

def allocRange (h : BuddyAllocator minOrder orderCount slabBlocks hasSlab) (count : ℕ) :
    Except Fault (Option ℕ × BuddyAllocator minOrder orderCount slabBlocks hasSlab) :=
  if hasSlab && !decide count.isPowerOfTwo then do
    match ← h.slabAllocate count with
    | (some addr, h1) => .ok (some addr, h1)
    | (none, h1) =>
      match h1.alloc (orderOf count) with
      | (none, h2) => .ok (none, h2)
      | (some block, h2) =>
        match h2.slab.addBlock block (2 ^ orderOf count % 2 ^ 32) h2.mem with
        | (true, slab, mem) => slabAllocate { h2 with slab := slab, mem := mem } count
        | (false, slab, mem) => .ok (some block, { h2 with slab := slab, mem := mem })
  else .ok (h.alloc (orderOf count))

def freeRange (h : BuddyAllocator minOrder orderCount slabBlocks hasSlab) (addr count : ℕ) :
    Except Fault (BuddyAllocator minOrder orderCount slabBlocks hasSlab) :=
  if count = 0 then .ok h
  else if hasSlab && h.slab.owns addr then
    match h.slab.free addr count h.mem with
    | (some (base, total), slab, mem) => free { h with slab := slab, mem := mem } base (trailingZeros total)
    | (none, slab, mem) => .ok { h with slab := slab, mem := mem }
  else h.free addr (orderOf count)

end BuddyAllocator

end MaramOS
