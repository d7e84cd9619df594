import MaramOS.Spec.Basic

/-! The block allocator of LemonFS: one bit for each sector of the data area,
4096 bits to a bitmap sector, with uniform sectors collapsed. -/

namespace MaramOS

def BITS_PER_BLOCK : ℕ := 4096

abbrev BitmapBlock := Sector

namespace BitmapBlock

def get (b : BitmapBlock) (bit : ℕ) : Bool :=
  (b.byte (bit / 8) >>> UInt8.ofNat (bit % 8)) &&& 1 == 1

def set (b : BitmapBlock) (bit : ℕ) : BitmapBlock := fun i =>
  if i.val = bit / 8 then b i ||| (1 <<< UInt8.ofNat (bit % 8)) else b i

def clear (b : BitmapBlock) (bit : ℕ) : BitmapBlock := fun i =>
  if i.val = bit / 8 then b i &&& ~~~(1 <<< UInt8.ofNat (bit % 8)) else b i

/-- `block.0.iter().all(|&x| x == c)` -/
@[irreducible] def all (b : BitmapBlock) (c : UInt8) : Bool := (List.ofFn b).all (· == c)

end BitmapBlock

inductive BlockState
  | free
  | full
  | mixed (b : BitmapBlock)

namespace BlockState

def isFree : BlockState → Bool
  | .free => true
  | _ => false

def isFull : BlockState → Bool
  | .full => true
  | _ => false

def isMixed : BlockState → Bool
  | .mixed _ => true
  | _ => false

/-- A mixed block whose bytes are all `0` or all `0xFF` becomes uniform. -/
def collapse : BlockState → BlockState
  | .mixed b =>
    if b.all 0 then .free
    else if b.all 0xFF then .full
    else .mixed b
  | s => s

def mapMixed (f : BitmapBlock → BitmapBlock) : BlockState → BlockState
  | .mixed b => .mixed (f b)
  | s => s

end BlockState

structure BitmapAllocator where
  blocks : List BlockState
  dataStart : ℕ

namespace BitmapAllocator

def new (dataStart : ℕ) : BitmapAllocator := ⟨[], dataStart⟩

def blockOf (bit : ℕ) : ℕ := bit / BITS_PER_BLOCK

def bitIn (bit : ℕ) : ℕ := bit % BITS_PER_BLOCK

def collapse (b : BitmapAllocator) (blockIdx : ℕ) : BitmapAllocator :=
  { b with blocks := b.blocks.modify blockIdx BlockState.collapse }

def addBlock (b : BitmapAllocator) (block : BitmapBlock) : BitmapAllocator :=
  collapse { b with blocks := b.blocks ++ [.mixed block] } b.blocks.length

/-- `&self.blocks[block]`, which panics past the end. -/
def index (b : BitmapAllocator) (block : ℕ) : Except Fault BlockState :=
  match b.blocks[block]? with
  | some s => .ok s
  | none => .error .panic

/-- The `unreachable!` on a mixed block is a panic like any other. -/
def materialize (b : BitmapAllocator) (block : ℕ) : Except Fault BitmapAllocator := do
  match ← b.index block with
  | .free => return { b with blocks := b.blocks.set block (.mixed fun _ => 0) }
  | .full => return { b with blocks := b.blocks.set block (.mixed fun _ => 0xFF) }
  | .mixed _ => throw .panic

/-- The common shape of `set_bit` and `clear_bit`: nothing to do on one uniform
state, else change one bit of the materialized block and collapse it again. -/
def changeBit (nothingToDo : BlockState → Bool) (change : BitmapBlock → ℕ → BitmapBlock)
    (b : BitmapAllocator) (bit : ℕ) : Except Fault BitmapAllocator := do
  let block := blockOf bit
  let s ← b.index block
  if nothingToDo s then return b
  let b ← if s.isMixed then pure b else b.materialize block
  return collapse { b with
    blocks := b.blocks.modify block (BlockState.mapMixed fun m => change m (bitIn bit)) } block

def setBit : BitmapAllocator → ℕ → Except Fault BitmapAllocator :=
  changeBit BlockState.isFull BitmapBlock.set

def clearBit : BitmapAllocator → ℕ → Except Fault BitmapAllocator :=
  changeBit BlockState.isFree BitmapBlock.clear

/-- One turn of the inner loop of `find_first_fit`: a used bit ends the run. -/
def scanBit (b : BitmapBlock) (base : ℕ) (acc : Option ℕ × ℕ) (bit : ℕ) : Option ℕ × ℕ :=
  if b.get bit then (none, 0) else (some (acc.1.getD (base + bit)), acc.2 + 1)

def scanBlock (block : ℕ) (acc : Option ℕ × ℕ) : BlockState → Option ℕ × ℕ
  | .free => (some (acc.1.getD (block * BITS_PER_BLOCK)), acc.2 + BITS_PER_BLOCK)
  | .full => (none, 0)
  | .mixed b => (List.range BITS_PER_BLOCK).foldl (scanBit b (block * BITS_PER_BLOCK)) acc

/-- The run is compared with `count` only at the end of each block. -/
def scanBlocks (count : ℕ) : ℕ → Option ℕ × ℕ → List BlockState → Option ℕ
  | _, _, [] => none
  | block, acc, s :: rest =>
    let acc' := scanBlock block acc s
    if count ≤ acc'.2 then acc'.1 else scanBlocks count (block + 1) acc' rest

def findFirstFit (b : BitmapAllocator) (count : ℕ) : Option ℕ :=
  if count = 0 then none else scanBlocks count 0 (none, 0) b.blocks

def alloc (b : BitmapAllocator) (count : ℕ) : Except Fault (Option ℕ × BitmapAllocator) :=
  match b.findFirstFit count with
  | none => .ok (none, b)
  | some start => do
    let b' ← (List.range count).foldlM (fun b x => b.setBit (x + start)) b
    return (some (wadd start b.dataStart), b')

def free (b : BitmapAllocator) (start count : ℕ) : Except Fault BitmapAllocator :=
  let base := wsub start b.dataStart
  (List.range count).foldlM (fun b x => b.clearBit (x + base)) b

/-- Both ends of the range are in `usize` arithmetic. -/
def reserveFrom (b : BitmapAllocator) (lba : ℕ) : Except Fault BitmapAllocator :=
  if lba < b.dataStart then .ok b
  else
    let startBit := lba - b.dataStart
    (List.range' (wadd startBit 1) (wmul b.blocks.length BITS_PER_BLOCK - wadd startBit 1)).foldlM
      (fun b bit => b.setBit bit) b

end BitmapAllocator

/-- The drive and the allocator, which most operations take together. -/
structure Volume where
  disk : Disk
  bitmap : BitmapAllocator

abbrev FsProg := Prog Fault Volume

namespace Volume

def alloc (count : ℕ) : FsProg (Option ℕ) := fun v =>
  match v.bitmap.alloc count with
  | .ok (r, b) => (.ok r, { v with bitmap := b })
  | .error e => (.error e, v)

/-- `bitmap.alloc(1).ok_or(FSError::NoSpace)?` -/
def allocSector : FsProg ℕ := do
  match ← alloc 1 with
  | some lba => pure lba
  | none => Prog.fail (.fs .noSpace)

def free (start count : ℕ) : FsProg Unit := fun v =>
  match v.bitmap.free start count with
  | .ok b => (.ok (), { v with bitmap := b })
  | .error e => (.error e, v)

def zeroSectors (start count : ℕ) : FsProg Unit := fun v =>
  let r := v.disk.zeroSectors start count
  (if r.1 then .ok () else .error (.fs .ioError), { v with disk := r.2 })

def writeSectors (start count : ℕ) (src : PhysPage) : FsProg Unit := fun v =>
  match v.disk.writeSectors start count src with
  | some d => (.ok (), { v with disk := d })
  | none => (.error (.fs .ioError), v)

def writeData (block : ℕ) (val : Sector) : FsProg Unit := writeSectors block 1 (PhysPage.ofSector val)

end Volume

/-- The bitmap sector that `sync` stores for a block. -/
def BlockState.raw : BlockState → BitmapBlock
  | .free => fun _ => 0
  | .full => fun _ => 0xFF
  | .mixed b => b

def BitmapAllocator.sync (b : BitmapAllocator) (bitmapStart : ℕ) : FsProg Unit :=
  b.blocks.zipIdx.forM fun (block, i) => Volume.writeData (wadd i bitmapStart) block.raw

end MaramOS
