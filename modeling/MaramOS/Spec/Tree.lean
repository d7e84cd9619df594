import MaramOS.Sanity.Volume

/-! What the sectors of a partition mean. A file is a chain of link blocks and
its extents, a directory is a chain of directory blocks and its used slots, and
`Owns` collects every sector below a list of slots. These are relations between
a disk and what it holds, independent of the code that reads and writes it. -/

namespace MaramOS

/-- A used slot of a directory block: what an entry says on disk. -/
structure Slot where
  name : Filename
  kind : FileType
  link : LinkPointer

/-- On disk the symlink bit is looked at first. -/
def DirEntry.slot (e : DirEntry) : Slot where
  name := e.name
  kind := if e.flags.contains .isSymlink then .symlink
    else if e.flags.contains .isDir then .directory
    else .file
  link := e.link

def DirectoryEntry.slot : DirectoryEntry → Slot
  | .file f => ⟨f.name, .file, f.head⟩
  | .directory name link => ⟨name, .directory, link⟩
  | .symLink name dest => ⟨name, .symlink, dest⟩

/-- Slots with an all-zero name are not seen by the parser. -/
def visible (l : List Slot) : List Slot := l.filter fun e => !e.name.isEmpty

def Sector.slots (sec : Sector) : List Slot :=
  visible ((List.ofFn (DirBlock.decode sec).entries).map DirEntry.slot)

def LinkPointer.blocks (l : LinkPointer) : List ℕ := List.range' l.start (divCeil l.size 512)

def fileBlocks (ext : List LinkPointer) : List ℕ := ext.flatMap LinkPointer.blocks

/-- Sector `x` exists and holds `sec`. -/
def Disk.At (d : Disk) (x : ℕ) (sec : Sector) : Prop := x < d.sectorCount ∧ d.sectors x = sec

/-- From `ptr` the link blocks `ind` are met, and in them the extents `ext`. -/
inductive LinkChain (d : Disk) : LinkPointer → List ℕ → List LinkPointer → Prop
  | none {ptr : LinkPointer} : ptr.isValid = false → LinkChain d ptr [] []
  | extent {ptr : LinkPointer} : ptr.isValid = true → ptr.isDirect = true → LinkChain d ptr [] [ptr]
  | block {ptr : LinkPointer} {sec : Sector} {ind : List ℕ} {ext : List LinkPointer} :
      ptr.isValid = true → ptr.isDirect = false → d.At ptr.start sec →
      LinkChain d (LinkBlock.decode sec).last ind ext →
      LinkChain d ptr (ptr.start :: ind) ((LinkBlock.decode sec).direct ++ ext)

/-- From `ptr` the directory blocks `chain` are met, and in them the slots `es`. -/
inductive DirChain (d : Disk) : LinkPointer → List ℕ → List Slot → Prop
  | done {ptr : LinkPointer} : ptr.isDirect = false → DirChain d ptr [] []
  | block {ptr : LinkPointer} {sec : Sector} {chain : List ℕ} {es : List Slot} :
      ptr.isDirect = true → d.At ptr.start sec →
      DirChain d (DirBlock.decode sec).next chain es → DirChain d ptr (ptr.start :: chain) (sec.slots ++ es)

/-- The slots `es` and everything below them form a finite forest, and the
sectors it refers to are those of `owned`, in the order of a walk. -/
inductive Owns (d : Disk) : List Slot → List ℕ → Prop
  | nil : Owns d [] []
  | symlink {e : Slot} {es : List Slot} {owned : List ℕ} :
      e.kind = .symlink → Owns d es owned → Owns d (e :: es) owned
  | file {e : Slot} {es : List Slot} {ind owned : List ℕ} {ext : List LinkPointer} :
      e.kind = .file → LinkChain d e.link ind ext → Owns d es owned →
      Owns d (e :: es) ((ind ++ fileBlocks ext) ++ owned)
  | directory {e : Slot} {es sub : List Slot} {chain inner owned : List ℕ} :
      e.kind = .directory → e.link.isDirect = true → DirChain d e.link chain sub → Owns d sub inner →
      Owns d es owned → Owns d (e :: es) ((chain ++ inner) ++ owned)

/-- The same name, kind and head; the target of a symlink is not compared. -/
def Slot.Alike (e e' : Slot) : Prop :=
  e.name = e'.name ∧ e.kind = e'.kind ∧ (e.kind ≠ .symlink → e.link = e'.link)

def Agree : List Slot → List Slot → Prop := List.Forall₂ Slot.Alike

/-- `e` is one of the slots `es` or a slot of a directory below them. -/
inductive SlotIn (d : Disk) : List Slot → Slot → Prop
  | here {es : List Slot} {e : Slot} : e ∈ es → SlotIn d es e
  | inside {es sub : List Slot} {dir e : Slot} {chain : List ℕ} :
      dir ∈ es → dir.kind = .directory → DirChain d dir.link chain sub → SlotIn d sub e → SlotIn d es e

/-- A directory of the tree below the root starts at `ptr`. -/
def LiveDir (d : Disk) (es : List Slot) (ptr : LinkPointer) : Prop :=
  ∃ e, SlotIn d es e ∧ e.kind = .directory ∧ e.link = ptr

def lookup (es : List Slot) (name : Str) : Option Slot := es.find? fun e => e.name.toStr == name

/-- From the directory at `ptr` with slots `es` the names `comps` lead through
directories to the one at `ptr'` with slots `es'`. -/
inductive Leads (d : Disk) : LinkPointer → List Slot → List Str → LinkPointer → List Slot → Prop
  | here {ptr : LinkPointer} {es : List Slot} : Leads d ptr es [] ptr es
  | step {ptr ptr' : LinkPointer} {es sub es' : List Slot} {c : Str} {cs : List Str} {e : Slot} {chain : List ℕ} :
      lookup es c = some e → e.kind = .directory → DirChain d e.link chain sub →
      Leads d e.link sub cs ptr' es' → Leads d ptr es (c :: cs) ptr' es'

/-- The entry is what the parser makes of its slot. -/
def Parsed (d : Disk) : DirectoryEntry → Prop
  | .file f => resolveLinks d f.head = .ok f.links ∧ f.size = wsum (f.links.map (·.size))
  | _ => True

/-- Where the bytes of a list of extents lie: sector and offset of each. -/
def addrs (ext : List LinkPointer) : List (ℕ × ℕ) :=
  ext.flatMap fun l => (List.range l.size).map fun i => (l.start + i / 512, i % 512)

namespace LemonFS

/-- The superblock on disk describes the mounted layout, which is a sound one,
and the allocator has the shape that mounting gives it. -/
structure Mounted (s : LemonFS) : Prop where
  bitmapStart_pos : 0 < s.superblock.bitmapStart
  bitmapStart_le : s.superblock.bitmapStart ≤ s.superblock.dataStart
  dataStart_le : s.superblock.dataStart ≤ s.superblock.dataEnd
  dataEnd_lt : s.superblock.dataEnd + 1 < s.disk.sectorCount
  area : s.toVolume.Area s.superblock.dataStart s.superblock.dataEnd
  stored : ∃ sb backup, getSuperblock s.disk = .ok (sb, backup) ∧
    sb.bitmapStart = s.superblock.bitmapStart ∧ sb.dataStart = s.superblock.dataStart ∧
    sb.dataEnd = s.superblock.dataEnd

/-- The tree on disk: the root directory has the blocks `chain` and the slots
`es`, the sectors below are `owned`. Each of them is referred to once, is marked
used and, the first block of the root excepted, lies in the data area. -/
structure Holds (s : LemonFS) (chain : List ℕ) (es : List Slot) (owned : List ℕ) : Prop where
  listing : DirChain s.disk s.rootPtr chain es
  owns : Owns s.disk es owned
  nodup : (chain ++ owned).Nodup
  placed : ∀ x ∈ chain.tail ++ owned, s.superblock.dataStart ≤ x ∧ x < s.superblock.dataEnd
  used : ∀ x ∈ chain ++ owned, ¬ s.toVolume.Free x

/-- A symlink-free tree whose root is cached with the right names, kinds and heads. -/
structure Consistent (s : LemonFS) : Prop where
  mounted : s.Mounted
  tree : ∃ chain es owned, s.Holds chain es owned ∧ s.root.map DirectoryEntry.slot = es ∧
    ∀ e, SlotIn s.disk es e → e.kind ≠ .symlink

end LemonFS

end MaramOS
