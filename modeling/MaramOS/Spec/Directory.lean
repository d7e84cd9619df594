import MaramOS.Spec.Links

/-! Directories: a chain of directory blocks, each with eight slots and a
pointer to the next. A slot whose name is all zero is unused. -/

namespace MaramOS

inductive FileType
  | file
  | directory
  | symlink
  deriving DecidableEq, Repr

def FileType.fromDirflags (flags : DirEntryFlags) : FileType :=
  if flags.contains .isDir then .directory
  else if flags.contains .isSymlink then .symlink
  else .file

inductive DirectoryEntry
  | file (f : File)
  | directory (name : Filename) (link : LinkPointer)
  | symLink (name : Filename) (dest : LinkPointer)

namespace DirectoryEntry

def new (name : Filename) (start : ℕ) : FileType → DirectoryEntry
  | .directory => .directory name ⟨start, 512⟩
  | .file => .file (File.new name.toStr start)
  | .symlink => .symLink name ⟨0, 0⟩

def filename : DirectoryEntry → Filename
  | .file f => f.name
  | .directory name _ => name
  | .symLink name _ => name

def name (e : DirectoryEntry) : Str := e.filename.toStr

def toDentry : DirectoryEntry → DirEntry
  | .file f => ⟨f.name, 0, f.head⟩
  | .directory name link => ⟨name, .isDir, link⟩
  | .symLink name dest => ⟨name, .isSymlink, dest⟩

def fromDirEntry (d : Disk) (dentry : DirEntry) : Except Fault DirectoryEntry :=
  if dentry.flags.contains .isSymlink then .ok (.symLink dentry.name dentry.link)
  else if dentry.flags.contains .isDir then .ok (.directory dentry.name dentry.link)
  else .file <$> File.fromDirEntry d dentry

end DirectoryEntry

structure Directory where
  name : Filename
  parent : ℕ
  children : List DirectoryEntry
  head : LinkPointer

/-- The `filter_map(..).flatten()` over one block's slots: an entry whose parse
returns `Err` is silently left out. -/
def parseEntries (d : Disk) : List DirEntry → Except Fault (List DirectoryEntry)
  | [] => .ok []
  | e :: es =>
    if e.name.isEmpty then parseEntries d es
    else match DirectoryEntry.fromDirEntry d e with
      | .ok child => (child :: ·) <$> parseEntries d es
      | .error (.fs _) => parseEntries d es
      | .error fault => .error fault

/-- The loop asks only for a direct pointer, not for a valid one. -/
def addChildrenFromLink (d : Disk) : ℕ → LinkPointer → Except Fault (List DirectoryEntry)
  | 0, _ => .error .diverge
  | k + 1, ptr =>
    if !ptr.isDirect then .ok []
    else do
      let block := DirBlock.decode (← ptr.read d)
      let here ← parseEntries d (List.ofFn block.entries)
      return here ++ (← addChildrenFromLink d k block.next)

/-- The sectors of a chain as `Directory::sync` collects them. -/
def collectChain (d : Disk) : ℕ → LinkPointer → Except Fault (List ℕ)
  | 0, _ => .error .diverge
  | k + 1, ptr =>
    if ptr.isDirect && ptr.isValid then do
      let block := DirBlock.decode (← ptr.read d)
      return ptr.start :: (← collectChain d k block.next)
    else .ok []

/-- The last loop of `Directory::delete`. -/
def deleteChain : ℕ → LinkPointer → FsProg Unit
  | 0, _ => Prog.fail .diverge
  | k + 1, ptr =>
    if ptr.isValid && ptr.isDirect then do
      let sector ← Prog.reads fun v => ptr.read v.disk
      Volume.discard ptr.start 1
      deleteChain k (DirBlock.decode sector).next
    else pure ()

namespace Directory

def findChildIdx (dir : Directory) (name : Str) : Option ℕ :=
  dir.children.findIdx? fun e => e.name == name

def getChild (dir : Directory) (name : Str) : Option DirectoryEntry :=
  dir.children.find? fun e => e.name == name

def fromDirBlock (d : Disk) (block : DirBlock) (name : Filename) (head : LinkPointer) :
    Except Fault Directory := do
  return ⟨name, block.parent, ← addChildrenFromLink d d.fuel head, head⟩

/-- `from_directory_entry`, and what the walk does at a symlink: read the head
block, then parse the chain from it. -/
def openAt (d : Disk) (name : Filename) (head : LinkPointer) : Except Fault Directory := do
  fromDirBlock d (DirBlock.decode (← head.read d)) name head

def blocksNeeded (dir : Directory) : ℕ := max (divCeil dir.children.length ENTRIES_PER_DIRENTRY) 1

/-- The block that `sync` stores at position `i` of `chain`. -/
def blockAt (dir : Directory) (chain : List ℕ) (i : ℕ) : DirBlock where
  parent := dir.parent
  entries := fun k =>
    (((dir.children.drop (i * ENTRIES_PER_DIRENTRY)).take ENTRIES_PER_DIRENTRY).map
      DirectoryEntry.toDentry).getD k.val DirEntry.zero
  next := match chain[i + 1]? with
    | some lba => ⟨lba, 512⟩
    | none => ⟨0, 0⟩

def writeBlock (dir : Directory) (chain : List ℕ) (i : ℕ) : FsProg Unit :=
  match chain[i]? with
  | some lba => Volume.writeData lba (dir.blockAt chain i).encode
  | none => Prog.fail .panic

def sync (dir : Directory) : FsProg Unit := do
  let needed := dir.blocksNeeded
  let collected ← Prog.reads fun v => collectChain v.disk v.disk.fuel dir.head
  -- the slice of an in-range index is empty unless there is a surplus
  (collected.drop needed).forM fun lba => Volume.free lba 1
  let rest ← (List.range' 1 (needed - 1)).mapM fun i =>
    match collected[i]? with
    | some lba => pure lba
    | none => Volume.allocSector
  let chain := dir.head.start :: rest
  (List.range (divCeil dir.children.length ENTRIES_PER_DIRENTRY)).forM (dir.writeBlock chain)
  if dir.children.isEmpty then
    Volume.writeData dir.head.start (DirBlock.encode ⟨dir.parent, fun _ => DirEntry.zero, ⟨0, 0⟩⟩)

def giveChild (dir : Directory) (child : DirectoryEntry) : FsProg Unit :=
  sync { dir with children := dir.children ++ [child] }

/-- Delete the children, then the chain. The first argument bounds the nesting. -/
def delete : ℕ → Directory → FsProg Unit
  | 0, _ => Prog.fail .diverge
  | k + 1, dir => do
    dir.children.forM fun child =>
      match child with
      | .file f => f.delete
      | .directory _ link => do
        let sub ← Prog.reads fun v => openAt v.disk (Filename.fromStr []) link
        delete k sub
      | .symLink _ _ => pure ()
    let fuel ← Prog.reads fun v => .ok v.disk.fuel
    deleteChain fuel dir.head

end Directory

/-- A bound on the nesting of `Directory::delete`: between two visits of one
block some sector has to be wiped, or the recursion never ends. -/
def Disk.depth (d : Disk) : ℕ := d.fuel * d.fuel

end MaramOS
