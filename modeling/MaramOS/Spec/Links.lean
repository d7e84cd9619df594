import MaramOS.Spec.Bitmap
import MaramOS.Spec.Format

/-! Link chains and files. A file's head is either one extent or the first of a
chain of link blocks, each with up to 31 extents and a pointer to the next. -/

namespace MaramOS

namespace LinkBlock

/-- The extents among the first 31 slots; holes and stray indirect pointers are skipped. -/
def direct (b : LinkBlock) : List LinkPointer :=
  ((List.ofFn b).take 31).filter fun l => l.isValid && l.isDirect

def last (b : LinkBlock) : LinkPointer := b 31

end LinkBlock

def resolveLink (d : Disk) (link : LinkPointer) : Except Fault (List LinkPointer) :=
  if !link.isValid then .ok []
  else if link.isDirect then .ok [link]
  else do
    let block := LinkBlock.decode (← link.read d)
    return block.direct ++ if block.last.isValid then [block.last] else []

/-- The `while let Some(link) = stack.pop()` loop; the top of the stack is the last element. -/
def resolveLinksLoop (d : Disk) : ℕ → List LinkPointer → Except Fault (List LinkPointer)
  | 0, _ => .error .diverge
  | k + 1, stack =>
    match stack.getLast? with
    | none => .ok []
    | some link =>
      if !link.isValid then .ok stack.dropLast
      else if link.isDirect then .ok stack
      else do resolveLinksLoop d k (stack.dropLast ++ (← resolveLink d link))

def resolveLinks (d : Disk) (start : LinkPointer) : Except Fault (List LinkPointer) :=
  resolveLinksLoop d d.fuel [start]

def traceLoop (d : Disk) : ℕ → LinkPointer → Except Fault (List LinkPointer × List LinkPointer)
  | 0, _ => .error .diverge
  | k + 1, ptr =>
    if !ptr.isValid then .ok ([], [])
    else if ptr.isDirect then .ok ([ptr], [])
    else do
      let block := LinkBlock.decode (← ptr.read d)
      let (direct, indirect) ← traceLoop d k block.last
      return (block.direct ++ direct, ptr :: indirect)

/-- The extents and the link blocks of a chain, in that order. -/
def trace (d : Disk) (start : LinkPointer) : Except Fault (List LinkPointer × List LinkPointer) :=
  traceLoop d d.fuel start

structure File where
  name : Filename
  size : ℕ
  head : LinkPointer
  links : List LinkPointer

/-- Give sectors back to the allocator and wipe them. -/
def Volume.discard (sector count : ℕ) : FsProg Unit := do
  Volume.free sector count
  Volume.zeroSectors sector count

namespace File

def new (name : Str) (start : ℕ) : File := ⟨Filename.fromStr name, 0, ⟨start, 1⟩, []⟩

def fromDirEntry (d : Disk) (dentry : DirEntry) : Except Fault File :=
  if dentry.flags.contains .isDir || dentry.flags.contains .isSymlink then
    .error (.fs .badFileType)
  else do
    let links ← resolveLinks d dentry.link
    return ⟨dentry.name, wsum (links.map (·.size)), dentry.link, links⟩

def delete (f : File) : FsProg Unit := do
  let (direct, indirect) ← Prog.reads fun v => trace v.disk f.head
  direct.forM fun link => Volume.discard link.start (divCeil link.size 512)
  indirect.forM fun link => Volume.discard link.start 1

end File

end MaramOS
