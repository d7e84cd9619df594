import MaramOS.Proofs.Mount
import MaramOS.Proofs.Names
import MaramOS.Proofs.Updates

/-! Calls and what a run of them keeps. The conditions on a call say which
directory it works on, what the sector of a new directory holds, and that a
file with link blocks can be rewritten; under them every call keeps the
invariant, whether it succeeds or not. -/

namespace MaramOS

inductive Call
  | create (path : Path) (flags : ℕ)
  | write (path : Path) (src : PhysPage)
  | delete (path : Path)
  | routeSymlink (symlink dest : Path)

namespace Call

def run : Call → FsCall Unit
  | .create path flags => LemonFS.create path flags
  | .write path src => LemonFS.write path src
  | .delete path => LemonFS.delete path
  | .routeSymlink symlink dest => LemonFS.routeSymlink symlink dest

/-- The path whose parent is the directory the call works on. -/
def path : Call → Path
  | .create path _ => path
  | .write path _ => path
  | .delete path => path
  | .routeSymlink symlink _ => symlink.parent

/-- The directory the call works on, if there is one, is the root or a directory of the tree. -/
def Live (s : LemonFS) (c : Call) : Prop :=
  c.path.parent.isRoot = true ∨ ∀ dir chain es, s.getParent c.path = .ok dir →
    DirChain s.disk s.rootPtr chain es → LiveDir s.disk es dir.head

/-- The parent of the path is reached through directories alone. -/
def Plain (s : LemonFS) (c : Call) : Prop :=
  ∀ dir chain es, s.getParent c.path = .ok dir → DirChain s.disk s.rootPtr chain es →
    ∃ es', Leads s.disk s.rootPtr es c.path.parent.components dir.head es'

/-- A new directory gets a sector that reads as an empty directory block. -/
def Blank (s : LemonFS) : Call → Prop
  | .create _ flags => ∀ bits x, DirEntryFlags.fromBits (UInt8.ofNat flags) = some bits →
      FileType.fromDirflags bits = .directory → (s.bitmap.available []).head? = some x →
      DirChain s.disk ⟨x, 512⟩ [x] []
  | _ => True

def Roomy (s : LemonFS) : Call → Prop
  | .write path src => ∀ dir f ind ext, s.getParent path = .ok dir →
      dir.getChild path.name = some (.file f) → LinkChain s.disk f.head ind ext → ind ≠ [] →
      HasRoom s.bitmap ind ext (8 * src.count)
  | _ => True

def Returns : Except Fault Unit → Prop
  | .ok _ => True
  | .error (.fs _) => True
  | .error _ => False

end Call

open Prog Volume LemonFS

variable {s s' : LemonFS} {c : Call} {dir : Directory} {v v1 v' : Volume} {r : Except Fault Unit}
  {ext : List LinkPointer} {n : ℕ} {ind w taken : List ℕ}

theorem Call.Plain.live (h : c.Plain s) : c.Live s := by
  cases hroot : c.path.parent.isRoot with
  | true => exact Or.inl hroot
  | false =>
    refine Or.inr fun dir chain es hpar hchain => ?_
    obtain ⟨es', hleads⟩ := h dir chain es hpar hchain
    refine hleads.live fun hnil => ?_
    rw [Path.components_parent] at hnil
    rw [(Path.isRoot_parent _).2 hnil] at hroot
    cases hroot

/-- The directory a call works on, cut out of the tree. -/
structure Located (s : LemonFS) (path : Path) (dir : Directory) (chain0 : List ℕ) (es : List Slot)
    (owned0 before chain : List ℕ) (slots : List Slot) (inner after : List ℕ) : Prop where
  parent : s.getParent path = .ok dir
  at_dir : At s dir chain0 es owned0 before chain slots inner after
  head_iff : path.parent.isRoot = true ↔ dir.head = s.rootPtr
  root_eq : dir.head = s.rootPtr → dir = s.rootDir

theorem LemonFS.Inv.located (hi : s.Inv) (hlive : c.Live s) (hpar : s.getParent c.path = .ok dir) :
    ∃ chain0 es owned0 before chain slots inner after,
      Located s c.path dir chain0 es owned0 before chain slots inner after := by
  obtain ⟨chain0, es, owned0, hh, hagree, hroom⟩ := hi.tree
  cases hroot : c.path.parent.isRoot with
  | true =>
    obtain rfl := rootDir_of_getParent hpar hroot
    obtain ⟨before, chain, slots, inner, after, hf⟩ := hh.focus hi hagree hroom .root
    exact ⟨chain0, es, owned0, before, chain, slots, inner, after, hpar, ⟨hi, hh, hagree, hroom, hf⟩,
      ⟨fun _ => rfl, fun _ => hroot⟩, fun _ => rfl⟩
  | false =>
    have hl := hlive.resolve_left (by rw [hroot]; exact Bool.false_ne_true) dir chain0 es hpar hh.listing
    obtain ⟨name, ptr, hopen⟩ := getParent_sub hroot hpar
    have hhead := (openAt_ok hopen).1
    rw [hhead] at hl
    have hne := hh.live_ne_root hl
    obtain ⟨before, chain, slots, inner, after, hf⟩ := hh.focus hi hagree hroom (hh.opened hopen hl)
    refine ⟨chain0, es, owned0, before, chain, slots, inner, after, hpar, ⟨hi, hh, hagree, hroom, hf⟩, ?_, ?_⟩
    · rw [hroot, hhead]
      exact ⟨fun h => absurd h Bool.false_ne_true, fun h => absurd h hne⟩
    · rw [hhead]
      exact fun h => absurd h hne

/-- Everything a call on the root or on a live directory can do. -/
inductive Outcome (s : LemonFS) : Call → Except Fault Unit → LemonFS → Prop
  | refused {c : Call} {e : Fault} : Outcome s c (.error e) s
  | panicked {path : Path} {src : PhysPage} {s' : LemonFS} : src.count = 0 →
      Outcome s (.write path src) (.error .panic) s'
  | leaked {path : Path} {flags : ℕ} {s' : LemonFS} : Leaked s s' →
      Outcome s (.create path flags) (.error (.fs .noSpace)) s'
  | outOfSpace {path : Path} {src : PhysPage} {dir : Directory} {chain0 owned0 before chain inner after : List ℕ}
      {es slots : List Slot} {l1 l2 : List DirectoryEntry} {f : File} {i1 ind i2 w taken : List ℕ}
      {ext : List LinkPointer} {v1 : Volume} {s' : LemonFS} :
      Located s path dir chain0 es owned0 before chain slots inner after →
      Child s dir inner path l1 (.file f) l2 i1 (ind ++ fileBlocks ext) i2 →
      LinkChain s.disk f.head ind ext → 0 < src.count →
      OutOfSpace ind ext (8 * src.count) w taken s.toVolume v1 s'.toVolume →
      s'.superblock = s.superblock → s'.root = s.root →
      Outcome s (.write path src) (.error (.fs .noSpace)) s'
  | created {path : Path} {flags : ℕ} {bits : DirEntryFlags} {dir : Directory}
      {chain0 owned0 before chain inner after chain' : List ℕ} {es slots : List Slot} {start : ℕ} {v1 : Volume}
      {s' : LemonFS} : Located s path dir chain0 es owned0 before chain slots inner after →
      DirEntryFlags.fromBits (UInt8.ofNat flags) = some bits →
      Created s dir chain path (FileType.fromDirflags bits) start v1 chain' s' →
      Outcome s (.create path flags) (.ok ()) s'
  | written {path : Path} {src : PhysPage} {dir : Directory}
      {chain0 owned0 before chain inner after chain' : List ℕ} {es slots : List Slot} {l1 l2 : List DirectoryEntry}
      {f f' : File} {i1 ind i2 lbas : List ℕ} {ext : List LinkPointer} {v1 : Volume} {s' : LemonFS} :
      Located s path dir chain0 es owned0 before chain slots inner after →
      Written s dir chain inner path src l1 f l2 i1 ind ext i2 f' lbas v1 chain' s' →
      Outcome s (.write path src) (.ok ()) s'
  | deleted {path : Path} {dir : Directory} {chain0 owned0 before chain inner after chain' : List ℕ}
      {es slots : List Slot} {l1 l2 : List DirectoryEntry} {c : DirectoryEntry} {i1 own i2 : List ℕ} {v1 : Volume}
      {s' : LemonFS} : Located s path dir chain0 es owned0 before chain slots inner after →
      Deleted s dir chain inner path l1 c l2 i1 own i2 v1 chain' s' → Outcome s (.delete path) (.ok ()) s'
  | routed {symlink dest : Path} {dir : Directory} {chain0 owned0 before chain inner after chain' : List ℕ}
      {es slots : List Slot} {l1 l2 : List DirectoryEntry} {name : Filename} {old target : LinkPointer}
      {i1 own i2 : List ℕ} {s' : LemonFS} :
      Located s symlink.parent dir chain0 es owned0 before chain slots inner after →
      Routed s dir chain inner symlink dest l1 name old target l2 i1 own i2 chain' s' →
      Outcome s (.routeSymlink symlink dest) (.ok ()) s'

/-- What that means for the tree, when new directories are empty. -/
inductive Step (s : LemonFS) (c : Call) : Except Fault Unit → LemonFS → Prop
  | same {r : Except Fault Unit} : Step s c r s
  | panicked {s' : LemonFS} : Step s c (.error .panic) s'
  | leaked {s' : LemonFS} : Leaked s s' → Step s c (.error (.fs .noSpace)) s'
  | updated {dir : Directory} {chain0 owned0 before chain inner after chain' inner' : List ℕ} {es slots : List Slot}
      {v1 : Volume} {children' : List DirectoryEntry} {s' : LemonFS} :
      Located s c.path dir chain0 es owned0 before chain slots inner after →
      Update s dir chain inner v1 children' chain' inner' s' → Step s c (.ok ()) s'
  | outOfSpace {src : PhysPage} {dir : Directory} {chain0 owned0 before chain inner after : List ℕ}
      {es slots : List Slot} {l1 l2 : List DirectoryEntry} {f : File} {i1 ind i2 w taken : List ℕ}
      {ext : List LinkPointer} {v1 : Volume} {s' : LemonFS} : c = .write c.path src →
      Located s c.path dir chain0 es owned0 before chain slots inner after →
      Child s dir inner c.path l1 (.file f) l2 i1 (ind ++ fileBlocks ext) i2 →
      LinkChain s.disk f.head ind ext → 0 < src.count →
      OutOfSpace ind ext (8 * src.count) w taken s.toVolume v1 s'.toVolume →
      s'.superblock = s.superblock → s'.root = s.root → Step s c (.error (.fs .noSpace)) s'

theorem wp_run_error {e : Fault} (h : s.getParent c.path = .error e) :
    wp c.run s (fun _ _ => False) (fun _ s' => s' = s) := by
  have hreads : ∀ {path path' : Path} {f : Directory → FsCall Unit}, s.getParent path = .error e →
      wp (if path'.isRoot then fsError .isRoot else Prog.reads (getParent · path) >>= f) s (fun _ _ => False)
        (fun _ s' => s' = s) := by
    intro path path' f herr
    split_ifs
    · rw [fsError, wp_fail]
    · rw [wp_bind, wp_reads]
      exact ⟨fun a ha => by simp [herr] at ha, fun _ _ => rfl⟩
  cases c with
  | create path flags => exact hreads h
  | write path src => exact hreads h
  | delete path => exact hreads h
  | routeSymlink symlink dest => exact hreads h

theorem head_of_takes {start : ℕ} (h : Takes [start] v v1) :
    (v.bitmap.available []).head? = some start := by
  rw [h.available]
  rfl

theorem outcome_of_run (hi : s.Inv) (hlive : c.Live s) (hrun : c.run s = (r, s')) :
    Outcome s c r s' := by
  cases hpar : s.getParent c.path with
  | error e =>
    have hspec := wp_run_error hpar
    cases r with
    | ok _ => exact (wp_ok hspec hrun).elim
    | error e' =>
      obtain rfl := wp_error hspec hrun
      exact .refused
  | ok dir =>
  obtain ⟨chain0, es, owned0, before, chain, slots, inner, after, hloc⟩ := hi.located hlive hpar
  have hat := hloc.at_dir
  cases c with
  | create path flags =>
    have hspec := create_spec hat.ready hpar flags
    cases r with
    | ok _ =>
      obtain ⟨bits, start, v1, chain', hbits, hc⟩ := wp_ok hspec hrun
      exact .created hloc hbits hc
    | error e =>
      cases wp_error hspec hrun with
      | isRoot => exact .refused
      | fileExists => exact .refused
      | badFlags => exact .refused
      | noSpace hleak => exact .leaked hleak
  | write path src =>
    have hspec := write_spec hat.ready hpar src
    cases r with
    | ok _ =>
      obtain ⟨l1, f, l2, i1, ind, ext, i2, f', lbas, v1, chain', hw⟩ := wp_ok hspec hrun
      exact .written hloc hw
    | error e =>
      cases wp_error hspec hrun with
      | isRoot => exact .refused
      | fileNotFound => exact .refused
      | badFileType => exact .refused
      | noPages hzero => exact .panicked hzero
      | noSpace hc hlink hpos hout hsb hroot => exact .outOfSpace hloc hc hlink hpos hout hsb hroot
  | delete path =>
    have hspec := delete_spec hat.ready hpar
    cases r with
    | ok _ =>
      obtain ⟨l1, c, l2, i1, own, i2, v1, chain', hd⟩ := wp_ok hspec hrun
      exact .deleted hloc hd
    | error e =>
      obtain ⟨rfl, -⟩ := wp_error hspec hrun
      exact .refused
  | routeSymlink symlink dest =>
    have hspec := @routeSymlink_spec _ _ _ _ _ symlink dest hat.ready hpar
    cases r with
    | ok _ =>
      obtain ⟨l1, name, old, target, l2, i1, own, i2, chain', hr⟩ := wp_ok hspec hrun
      exact .routed hloc hr
    | error e =>
      obtain ⟨rfl, -⟩ := wp_error hspec hrun
      exact .refused

section Update

variable {path : Path} {dir : Directory} {chain0 owned0 before chain inner after chain' : List ℕ} {es slots : List Slot}
  {v1 : Volume}

theorem Located.created (hloc : Located s path dir chain0 es owned0 before chain slots inner after) {flags start : ℕ}
    {bits : DirEntryFlags} (hbits : DirEntryFlags.fromBits (UInt8.ofNat flags) = some bits)
    (hc : Created s dir chain path (FileType.fromDirflags bits) start v1 chain' s')
    (hblank : Call.Blank s (.create path flags)) :
    ∃ inner', Update s dir chain inner v1
      (dir.children ++ [DirectoryEntry.new (Filename.fromStr path.name) start (FileType.fromDirflags bits)])
      chain' inner' s' := by
  refine hc.update hloc.at_dir hloc.head_iff (fun h => hloc.root_eq (hloc.head_iff.1 h)) fun hkind => ?_
  rcases hc.taken with ⟨hsym, -, -⟩ | ⟨-, ht⟩
  · rw [hkind] at hsym
    cases hsym
  · exact hblank bits start hbits hkind (head_of_takes ht)

theorem Located.routed {symlink dest : Path} {l1 l2 : List DirectoryEntry} {name : Filename}
    {old target : LinkPointer} {i1 own i2 : List ℕ}
    (hloc : Located s symlink.parent dir chain0 es owned0 before chain slots inner after)
    (hr : Routed s dir chain inner symlink dest l1 name old target l2 i1 own i2 chain' s') :
    Update s dir chain inner s.toVolume (l1 ++ .symLink name target :: l2) chain' inner s' := by
  refine hr.update hloc.at_dir hloc.root_eq fun hroot => hloc.head_iff.1 ?_
  rw [Path.isRoot_parent, Path.components_parent, (Path.isRoot_parent _).1 hroot]
  rfl

end Update

theorem Outcome.step {r : Except Fault Unit} (h : Outcome s c r s') (hblank : c.Blank s) : Step s c r s' := by
  cases h with
  | refused => exact .same
  | panicked => exact .panicked
  | leaked hleak => exact .leaked hleak
  | outOfSpace hloc hc hlink hpos hout hsb hroot => exact .outOfSpace rfl hloc hc hlink hpos hout hsb hroot
  | created hloc hbits hc =>
    obtain ⟨inner', hu⟩ := hloc.created hbits hc hblank
    exact .updated hloc hu
  | written hloc hw => exact .updated hloc (hw.update hloc.at_dir hloc.head_iff)
  | deleted hloc hd =>
    obtain ⟨inner', hu⟩ := hd.update hloc.at_dir hloc.head_iff
    exact .updated hloc hu
  | routed hloc hr => exact .updated hloc (hloc.routed hr)

theorem step_of_run (hi : s.Inv) (hlive : c.Live s) (hblank : c.Blank s) (hrun : c.run s = (r, s')) : Step s c r s' :=
  (outcome_of_run hi hlive hrun).step hblank

theorem LinkChain.direct_inv {d : Disk} {ptr : LinkPointer} (h : LinkChain d ptr [] ext) :
    ext = [] ∨ ext = [ptr] := by
  cases h with
  | none => exact Or.inl rfl
  | extent => exact Or.inr rfl

theorem take_range' (a k n : ℕ) : (List.range' a k).take n = List.range' a (min n k) := by
  induction n generalizing a k with
  | zero => simp
  | succ n ih =>
    cases k with
    | zero => simp
    | succ k => rw [List.range'_succ, List.take_succ_cons, ih, Nat.add_min_add_right, List.range'_succ]

/-- A file without link blocks is one run of sectors and needs none for a part of it,
so that nothing of it is wiped before the space runs out. -/
theorem OutOfSpace.surplus_nil {head : LinkPointer} (hn : 0 < n) (hlink : LinkChain v.disk head [] ext)
    (hfits : ∀ x ∈ fileBlocks ext, x < v.disk.sectorCount) (h : OutOfSpace ind ext n w taken v v1 v') : w = [] := by
  rcases h.surplus with hw | ⟨hw, hcoalesce⟩
  · exact hw
  rcases hlink.direct_inv with rfl | rfl
  · simpa [fileBlocks] using hw
  · rw [fileBlocks_singleton, LinkPointer.blocks] at hw hcoalesce hfits
    generalize divCeil head.size 512 = k at *
    rcases Nat.eq_zero_or_pos k with rfl | hk
    · simpa using hw
    · have hlast := hfits (head.start + (k - 1)) (List.mem_range'_1.2 ⟨by omega, by omega⟩)
      rw [take_range', coalesce_range' v.disk.fits _ _ (by omega) (by omega)] at hcoalesce
      exact absurd rfl hcoalesce

theorem OutOfSpace.touches (h : OutOfSpace ind ext n w taken v v1 v') : Touches (ind ++ w) v v' :=
  (h.wipes.touches (List.Subset.refl _)).trans h.takes.touches

theorem OutOfSpace.touches_nil (hi : s.Inv) {path : Path} {src : PhysPage}
    {chain0 owned0 before chain inner after : List ℕ} {es slots : List Slot} {l1 l2 : List DirectoryEntry} {f : File}
    {i1 i2 : List ℕ} (h : OutOfSpace ind ext (8 * src.count) w taken s.toVolume v1 v')
    (hloc : Located s path dir chain0 es owned0 before chain slots inner after)
    (hc : Child s dir inner path l1 (.file f) l2 i1 (ind ++ fileBlocks ext) i2)
    (hlink : LinkChain s.disk f.head ind ext) (hpos : 0 < src.count) (hroom : Call.Roomy s (.write path src)) :
    s.toVolume.Touches [] v' := by
  have hnil : ind = [] := by
    by_contra hne
    exact h.noRoom (hroom _ _ _ _ hloc.parent hc.getChild hlink hne)
  subst hnil
  have hw := h.surplus_nil (by omega) hlink fun x hx => by
    have hplaced := hloc.at_dir.inner_placed x (hc.own_subset (by simpa using hx))
    have := hi.mounted.area.inside
    omega
  subst hw
  exact h.touches

/-- A call that returns keeps the invariant, if it does not run out of space on a file with
link blocks. -/
theorem inv_of_step (hi : s.Inv) (hroom : c.Roomy s) (hret : Call.Returns r) (h : Step s c r s') : s'.Inv := by
  cases h with
  | same => exact hi
  | panicked => exact hret.elim
  | leaked hleak => exact hleak.inv hi
  | updated hloc hu => exact hu.inv hloc.at_dir
  | @outOfSpace src _ _ _ _ _ _ _ _ _ _ _ f _ ind _ _ _ ext _ _ hcall hloc hc hlink hpos hout hsb hroot =>
    rw [hcall] at hroom
    exact hi.of_touches_nil (hout.touches_nil hi hloc hc hlink hpos hroom) hsb hroot

end MaramOS
