import MaramOS.Spec.Directory
import MaramOS.Spec.Path
import MaramOS.Spec.Superblock

/-! The mounted file system: its cached superblock, allocator and root
directory, and the operations of the `FileSystem` trait. -/

namespace MaramOS

structure LemonFS extends Volume where
  superblock : SuperBlock
  root : List DirectoryEntry

abbrev FsCall := Prog Fault LemonFS

/-- `Vec::swap_remove` -/
def swapRemove {α : Type} (l : List α) (i : ℕ) : List α :=
  match l.getLast? with
  | none => l
  | some x => (l.set i x).dropLast

/-- Runs of adjacent sectors become one extent. -/
def coalesceStep (extents : List LinkPointer) (block : ℕ) : List LinkPointer :=
  match extents.getLast? with
  | some p =>
    if wadd p.start (p.size / 512) = block then extents.dropLast ++ [⟨p.start, wadd p.size 512⟩]
    else extents ++ [⟨block, 512⟩]
  | none => extents ++ [⟨block, 512⟩]

def coalesce (blocks : List ℕ) : List LinkPointer := blocks.foldl coalesceStep []

/-- Link block `i` of a chain over `extents` stored at `lbas`. -/
def linkBlockAt (extents : List LinkPointer) (lbas : List ℕ) (i : ℕ) : LinkBlock := fun k =>
  if k.val < 31 then ((extents.drop (i * 31)).take 31).getD k.val ⟨0, 0⟩
  else match lbas[i + 1]? with
    | some lba => ⟨lba, 0⟩
    | none => ⟨0, 0⟩

def writeLinkBlock (extents : List LinkPointer) (lbas : List ℕ) (i : ℕ) : FsProg Unit :=
  match lbas[i]? with
  | some lba => Volume.writeData lba (linkBlockAt extents lbas i).encode
  | none => Prog.fail .panic

def buildFileChain (blocks : List ℕ) : FsProg LinkPointer :=
  match coalesce blocks with
  | [extent] => pure extent
  | extents => do
    let needed := divCeil extents.length 31
    let lbas ← (List.range needed).mapM fun _ => Volume.allocSector
    (List.range needed).forM (writeLinkBlock extents lbas)
    match lbas with
    | lba :: _ => pure ⟨lba, 0⟩
    | [] => Prog.fail .panic

def LinkPointer.sectors (l : LinkPointer) : List ℕ :=
  (List.range (divCeil l.size 512)).map fun i => wadd l.start i

/-- Reuse the old blocks and allocate the rest. -/
def chooseChain (blocks : List ℕ) (sectors : ℕ) : FsProg (List ℕ) :=
  (List.range sectors).mapM fun i =>
    match blocks[i]? with
    | some b => pure b
    | none => Volume.allocSector

/-- Copy the source extent by extent, from byte `offset` on. -/
def writeExtents (src : PhysPage) (pages : ℕ) : ℕ → List LinkPointer → FsProg Unit
  | _, [] => pure ()
  | offset, link :: rest => do
    let page : PhysPage := ⟨pages, fun i => if i < link.size then src.bytes (offset + i) else 0⟩
    Volume.writeSectors link.start (divCeil link.size 512) page
    writeExtents src pages (offset + link.size) rest

/-- The part of `LemonFS::write` that works on the file alone: its new head and size. -/
def File.rewrite (f : File) (src : PhysPage) : FsProg File := do
  let (direct, indirect) ← Prog.reads fun v => trace v.disk f.head
  indirect.forM fun link => Volume.discard link.start 1
  let blocks := direct.flatMap LinkPointer.sectors
  let sectors := divCeil (src.count * PAGE_SIZE) 512
  let chain ← chooseChain blocks sectors
  (blocks.drop sectors).forM fun block => Volume.discard block 1
  let head ← buildFileChain chain
  let links ← Prog.reads fun v => resolveLinks v.disk head
  match (links.map (·.size)).max? with
  | none => Prog.fail .panic
  | some maxSize =>
    writeExtents src (divCeil maxSize PAGE_SIZE) 0 links
    -- the links of the old file stay in the record
    return { f with head := head, size := wsum (links.map (·.size)) }

/-- The loop of `LemonFS::read` over the remaining links. -/
def readLinks (d : Disk) (readSize : ℕ) : ℕ → List LinkPointer → PhysPage → Except Fault PhysPage
  | _, [], dest => .ok dest
  | offset, link :: rest, dest =>
    if readSize ≤ offset then .ok dest
    else match d.readSectors link.start (divCeil link.size 512) with
      | none => .error (.fs .ioError)
      | some page =>
        let n := min (readSize - offset) link.size
        readLinks d readSize (offset + n) rest
          ⟨dest.count, fun i => if offset ≤ i ∧ i < offset + n then page (i - offset) else dest.bytes i⟩

namespace LemonFS

def onVolume {α : Type} (x : FsProg α) : FsCall α :=
  Prog.zoom LemonFS.toVolume (fun s v => { s with toVolume := v }) x

def rootPtr (fs : LemonFS) : LinkPointer := ⟨fs.superblock.dataEnd, 512⟩

def rootDir (fs : LemonFS) : Directory := ⟨Filename.fromStr [0x2F], 0, fs.root, fs.rootPtr⟩

/-- One step of the walk in `get_parent`; a symlink is taken for a directory. -/
def enter (d : Disk) (dir : Directory) (component : Str) : Except Fault Directory :=
  match dir.getChild component with
  | none => .error (.fs .fileNotFound)
  | some (.file _) => .error (.fs .badFileType)
  | some (.symLink _ dest) => Directory.openAt d (Filename.fromStr component) dest
  | some (.directory name link) => Directory.openAt d name link

def getParent (fs : LemonFS) (path : Path) : Except Fault Directory :=
  path.parent.components.foldlM (enter fs.disk) fs.rootDir

def fsError {α : Type} (e : FSError) : FsCall α := Prog.fail (.fs e)

def create (path : Path) (flags : ℕ) : FsCall Unit := do
  if path.isRoot then fsError .isRoot else
  let parent ← Prog.reads (getParent · path)
  if (parent.findChildIdx path.name).isSome then fsError .fileExists else
  match DirEntryFlags.fromBits (UInt8.ofNat flags) with
  | none => fsError .badFlags
  | some bits => do
    let filetype := FileType.fromDirflags bits
    let start ← match filetype with
      | .symlink => pure 0
      | _ => onVolume Volume.allocSector
    let dirEntry := DirectoryEntry.new (Filename.fromStr path.name) start filetype
    onVolume (parent.giveChild dirEntry)
    if path.parent.isRoot then Prog.modify fun fs => { fs with root := fs.root ++ [dirEntry] }

def deleteEntry (entry : DirectoryEntry) : FsProg Unit :=
  match entry with
  | .file f => f.delete
  | .directory name link => do
    let dir ← Prog.reads fun v => Directory.openAt v.disk name link
    let depth ← Prog.reads fun v => .ok v.disk.depth
    dir.delete depth
  | .symLink _ _ => pure ()

def delete (path : Path) : FsCall Unit := do
  if path.isRoot then fsError .isRoot else
  let parent ← Prog.reads (getParent · path)
  match parent.findChildIdx path.name with
  | none => fsError .fileNotFound
  | some idx =>
    match parent.children[idx]? with
    | none => Prog.fail .panic
    | some entry => do
      onVolume (deleteEntry entry)
      onVolume { parent with children := swapRemove parent.children idx }.sync
      if path.parent.isRoot then
        let root ← Prog.reads fun fs => .ok fs.root
        match root.findIdx? fun e => e.name == path.name with
        | none => fsError .fileNotFound
        | some i => Prog.modify fun fs => { fs with root := swapRemove fs.root i }

def fileSize (fs : LemonFS) (path : Path) : Except Fault ℕ :=
  if path.isRoot then .error (.fs .isRoot)
  else do
    let parent ← fs.getParent path
    match parent.getChild path.name with
    | none => .error (.fs .fileNotFound)
    | some (.file f) => .ok f.size
    | some _ => .error (.fs .badFileType)

def list (fs : LemonFS) (path : Path) : Except Fault (List Str) :=
  if path.isRoot then .ok (fs.root.map DirectoryEntry.name)
  else do
    let parent ← fs.getParent path
    match parent.getChild path.name with
    | none => .error (.fs .fileNotFound)
    | some (.file _) => .error (.fs .badFileType)
    | some (.symLink name dest) => do
      return (← Directory.openAt fs.disk name dest).children.map DirectoryEntry.name
    | some (.directory name link) => do
      return (← Directory.openAt fs.disk name link).children.map DirectoryEntry.name

/-- The number of bytes read, and the destination with them in it. -/
def read (fs : LemonFS) (path : Path) (dest : PhysPage) : Except Fault (ℕ × PhysPage) :=
  if path.isRoot then .error (.fs .isRoot)
  else do
    let parent ← fs.getParent path
    let links ← match parent.getChild path.name with
      | none => .error (.fs .fileNotFound)
      | some (.directory _ _) => .error (.fs .badFileType)
      | some (.file f) => .ok f.links
      | some (.symLink _ target) => resolveLinks fs.disk target
    let readSize := min (wsum (links.map (·.size))) (dest.count * PAGE_SIZE)
    return (readSize, ← readLinks fs.disk readSize 0 links dest)

/-- Replace the cached root entry of that name, if there is one. -/
def refreshRoot (name : Str) (entry : DirectoryEntry) (fs : LemonFS) : LemonFS :=
  match fs.root.findIdx? fun e => e.name == name with
  | some i => { fs with root := fs.root.set i entry }
  | none => fs

def write (path : Path) (src : PhysPage) : FsCall Unit := do
  if path.isRoot then fsError .isRoot else
  let parent ← Prog.reads (getParent · path)
  match parent.findChildIdx path.name with
  | none => fsError .fileNotFound
  | some idx =>
    match parent.children[idx]? with
    | none => Prog.fail .panic
    | some (.file f) => do
      let f' ← onVolume (f.rewrite src)
      onVolume { parent with children := parent.children.set idx (.file f') }.sync
      if path.parent.isRoot then Prog.modify (refreshRoot path.name (.file f'))
    | some _ => fsError .badFileType

/-- The pointer a symlink to `dest` gets. -/
def routeTarget (fs : LemonFS) (dest : Path) : Except Fault LinkPointer := do
  let parent ← fs.getParent dest
  match parent.getChild dest.name with
  | none => .error (.fs .fileNotFound)
  | some (.file f) => .ok f.head
  | some (.directory _ link) => .ok link
  | some (.symLink _ target) => .ok target

/-- The entry is looked up in the parent of the parent of `symlink`. -/
def routeSymlink (symlink dest : Path) : FsCall Unit := do
  if symlink.isRoot then fsError .isRoot else
  let parent ← Prog.reads (getParent · symlink.parent)
  match parent.findChildIdx symlink.name with
  | none => fsError .fileNotFound
  | some idx =>
    match parent.children[idx]? with
    | none => Prog.fail .panic
    | some (.symLink name _) => do
      let target ← Prog.reads (routeTarget · dest)
      let entry := DirectoryEntry.symLink name target
      onVolume { parent with children := parent.children.set idx entry }.sync
      if symlink.parent.isRoot then Prog.modify (refreshRoot symlink.name entry)
    | some _ => fsError .badFileType

def sync : FsCall Unit := do
  let fs ← Prog.reads .ok
  onVolume (writeSb fs.superblock)
  onVolume (fs.bitmap.sync fs.superblock.bitmapStart)

end LemonFS

def format : FsProg SuperBlock := do
  let count ← Prog.reads fun v => .ok v.disk.sectorCount
  match SuperBlock.new count with
  | none => Prog.fail (.fs .noSpace)
  | some sb => do
    writeSb sb
    Volume.zeroSectors sb.bitmapStart (sb.dataStart - sb.bitmapStart)
    Volume.zeroSectors sb.dataEnd 1
    return sb

/-- The allocator as `init` builds it from the bitmap sectors. -/
def loadBitmap (sb : SuperBlock) (blocks : List BitmapBlock) : Except Fault BitmapAllocator :=
  (blocks.foldl BitmapAllocator.addBlock (BitmapAllocator.new sb.dataStart)).reserveFrom
    (wsub sb.dataEnd 1)

def mount (d : Disk) (sb : SuperBlock) : Except Fault LemonFS := do
  let blocks ← (List.range' sb.bitmapStart (sb.dataStart - sb.bitmapStart)).mapM (readData d)
  let bitmap ← loadBitmap sb blocks
  let root ← Directory.openAt d (Filename.fromStr [0x2F]) ⟨sb.dataEnd, 512⟩
  return { disk := d, superblock := sb, bitmap := bitmap, root := root.children }

/-- Mount a partition, formatting it first when neither superblock is good. -/
def init (d : Disk) : Except Fault LemonFS :=
  match getSuperblock d with
  | .ok (sb, _) => mount d sb
  | .error (.fs .badSuperblock) =>
    match format ⟨d, BitmapAllocator.new 0⟩ with
    | (.ok sb, v) => mount v.disk sb
    | (.error e, _) => .error e
  | .error e => .error e

end MaramOS
