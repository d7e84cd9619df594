import Mathlib.Logic.Function.Basic
import MaramOS.Spec.Basic

/-! The page slab of `allocators/slab.rs`, which cuts ranges of any length out of
blocks. The free ranges of a block are listed in the memory they lie in. Memory
is addressed as the allocator does it: `offset` shifts every access alike and is
left out. -/

namespace MaramOS

abbrev Memory : Type := ℕ → ℕ

structure FreeRange where
  next : ℕ
  count : ℕ
  deriving DecidableEq, Repr

namespace FreeRange

def read (mem : Memory) (addr : ℕ) : FreeRange := ⟨mem addr, mem (addr + 8) % 2 ^ 32⟩

def write (mem : Memory) (addr : ℕ) (r : FreeRange) : Memory :=
  Function.update (Function.update mem addr r.next) (addr + 8) r.count

end FreeRange

structure BlockInfo where
  physBase : ℕ
  totalBlocks : ℕ
  allocatedBlocks : ℕ
  freeList : ℕ
  used : Bool
  deriving DecidableEq, Repr

/-- The slots up to `block_count`; those behind are never read. -/
structure PageSlab (maxBlocks : ℕ) where
  blocks : List BlockInfo
  blockSize : ℕ
  deriving DecidableEq, Repr

/-- More steps than a walk over distinct addresses can make. -/
def walkFuel : ℕ := 2 ^ 64

namespace BlockInfo

/-- Writing through `prev_field`: it points to `free_list` or to the `next` of a range. -/
def setLink (b : BlockInfo) (prev : Option ℕ) (target : ℕ) (mem : Memory) : BlockInfo × Memory :=
  match prev with
  | none => ({ b with freeList := target }, mem)
  | some a => (b, Function.update mem a target)

/-- The range at `current` is large enough: it is taken out of the list, or cut in two. -/
def carve (b : BlockInfo) (blockSize count : ℕ) (prev : Option ℕ) (current : ℕ) (mem : Memory) : BlockInfo × Memory :=
  let range := FreeRange.read mem current
  let (b', mem') :=
    if range.count = count then b.setLink prev range.next mem
    else
      let split := wadd current (wmul count blockSize)
      b.setLink prev split (FreeRange.write mem split ⟨range.next, range.count - count % 2 ^ 32⟩)
  ({ b' with allocatedBlocks := (b'.allocatedBlocks + count % 2 ^ 32) % 2 ^ 32 }, mem')

/-- The loop of `alloc_in_block`. -/
def allocLoop (b : BlockInfo) (blockSize count : ℕ) (mem : Memory) : ℕ → Option ℕ → ℕ →
    Except Fault (Option (ℕ × BlockInfo × Memory))
  | 0, _, _ => .error .diverge
  | fuel + 1, prev, current =>
    if current = 0 then .ok none
    else if count ≤ (FreeRange.read mem current).count then
      .ok (some (current, b.carve blockSize count prev current mem))
    else allocLoop b blockSize count mem fuel (some current) (FreeRange.read mem current).next

def allocInBlock (b : BlockInfo) (blockSize count : ℕ) (mem : Memory) :
    Except Fault (Option (ℕ × BlockInfo × Memory)) :=
  b.allocLoop blockSize count mem walkFuel none b.freeList

/-- The test of `find_block`. -/
def holds (b : BlockInfo) (blockSize addr : ℕ) : Bool :=
  b.used && decide (b.physBase ≤ addr) && decide (addr < wadd b.physBase (wmul b.totalBlocks blockSize))

end BlockInfo

namespace PageSlab

variable {maxBlocks : ℕ}

def new (maxBlocks blockSize : ℕ) : PageSlab maxBlocks := ⟨[], blockSize⟩

/-- The loop of `allocate` over the slots. -/
def allocateFrom (blockSize count : ℕ) : List BlockInfo → Memory → Except Fault (Option (ℕ × List BlockInfo × Memory))
  | [], _ => .ok none
  | b :: rest, mem => do
    let here ← if b.used then b.allocInBlock blockSize count mem else .ok none
    match here with
    | some (addr, b', mem') => .ok (some (addr, b' :: rest, mem'))
    | none =>
      match ← allocateFrom blockSize count rest mem with
      | some (addr, rest', mem') => .ok (some (addr, b :: rest', mem'))
      | none => .ok none

def allocate (s : PageSlab maxBlocks) (count : ℕ) (mem : Memory) :
    Except Fault (Option (ℕ × PageSlab maxBlocks × Memory)) := do
  match ← allocateFrom s.blockSize count s.blocks mem with
  | some (addr, blocks, mem') => .ok (some (addr, { s with blocks := blocks }, mem'))
  | none => .ok none

def findBlock (s : PageSlab maxBlocks) (addr : ℕ) : Option ℕ := s.blocks.findIdx? fun b => b.holds s.blockSize addr

def owns (s : PageSlab maxBlocks) (addr : ℕ) : Bool := (s.findBlock addr).isSome

/-- The block that became empty, if one did. -/
def free (s : PageSlab maxBlocks) (addr count : ℕ) (mem : Memory) : Option (ℕ × ℕ) × PageSlab maxBlocks × Memory :=
  match s.findBlock addr with
  | none => (none, s, mem)
  | some idx =>
    match s.blocks[idx]? with
    | none => (none, s, mem)
    | some b =>
      let mem := FreeRange.write mem addr ⟨b.freeList, count % 2 ^ 32⟩
      let b := { b with freeList := addr }
      if b.allocatedBlocks < count % 2 ^ 32 then (none, { s with blocks := s.blocks.set idx b }, mem)
      else
        let rem := b.allocatedBlocks - count % 2 ^ 32
        let b := { b with allocatedBlocks := rem }
        if rem ≠ 0 then (none, { s with blocks := s.blocks.set idx b }, mem)
        else
          (some (b.physBase, b.totalBlocks), { s with blocks := s.blocks.set idx { b with used := false } }, mem)

def addBlock (s : PageSlab maxBlocks) (physBase totalBlocks : ℕ) (mem : Memory) :
    Bool × PageSlab maxBlocks × Memory :=
  let b : BlockInfo := ⟨physBase, totalBlocks, 0, physBase, true⟩
  let mem' := FreeRange.write mem physBase ⟨0, totalBlocks⟩
  match s.blocks.findIdx? fun b => !b.used with
  | some i => (true, { s with blocks := s.blocks.set i b }, mem')
  | none =>
    if s.blocks.length < maxBlocks then (true, { s with blocks := s.blocks ++ [b] }, mem')
    else (false, s, mem)

end PageSlab

end MaramOS
