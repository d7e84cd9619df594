import MaramOS.Proofs.Links
import MaramOS.Proofs.Sample

/-! What a `create` that fails leaves behind, in any state. Only running out of space
can change something: the sector of the new entry and new blocks of the directory are
taken one after the other, and none is given back when the next one is missing. -/

namespace MaramOS

open Prog Volume
open DirectoryEntry (new)
open Filename (fromStr)
open FileType (fromDirflags)

theorem collectChain_error {d : Disk} {k : ℕ} {ptr : LinkPointer} {e : Fault} (h : collectChain d k ptr = .error e) :
    e = .diverge ∨ e = .fs .ioError := by
  induction k generalizing ptr with
  | zero => exact .inl (Except.error.inj h).symm
  | succ k ih =>
    rw [collectChain, LinkPointer.read] at h
    split_ifs at h with hgo
    cases hread : readData d ptr.start with
    | error e' =>
      rw [hread, error_bind] at h
      exact .inr ((Except.error.inj h).symm.trans (readData_error hread))
    | ok sec =>
      rw [hread, ok_bind] at h
      simp only at h
      cases hrest : collectChain d k (DirBlock.decode sec).next with
      | error e' =>
        rw [hrest, error_bind] at h
        exact ih (hrest.trans (congrArg _ (Except.error.inj h)))
      | ok rest =>
        rw [hrest, ok_bind] at h
        cases h

/-- Not an error of the file system, or an I/O error. -/
def Fault.Hard (e : Fault) : Prop := ∀ fe, e = .fs fe → fe = .ioError

theorem Fault.hard_panic : Fault.Hard .panic := fun fe h => by cases h

theorem Fault.hard_ioError : Fault.Hard (.fs .ioError) := fun fe h => by
  cases h
  rfl

def Volume.FailsHard {α : Type} (x : FsProg α) : Prop := ∀ v, wp x v (fun _ _ => True) fun e _ => e.Hard

theorem clearBit_hard {b : BitmapAllocator} {bit : ℕ} {e : Fault} (h : b.clearBit bit = .error e) : e = .panic := by
  by_cases hlt : bit < 4096 * b.blocks.length
  · obtain ⟨b', hb', -⟩ := BitmapAllocator.clearBit_spec b bit hlt
    rw [hb'] at h
    cases h
  · have hout : b.blocks.length ≤ BitmapAllocator.blockOf bit := by
      unfold BitmapAllocator.blockOf BITS_PER_BLOCK
      omega
    simp only [BitmapAllocator.clearBit, BitmapAllocator.changeBit, BitmapAllocator.index,
      List.getElem?_eq_none hout, bind, Except.bind] at h
    exact (Except.error.inj h).symm

theorem free_hard (x : ℕ) : FailsHard (Volume.free x 1) := by
  intro v
  have hone : v.bitmap.free x 1 = v.bitmap.clearBit (0 + wsub x v.bitmap.dataStart) := by
    simp [BitmapAllocator.free, List.range_succ]
  cases hrun : v.bitmap.free x 1 with
  | ok b =>
    have hfree : Volume.free x 1 v = (.ok (), { v with bitmap := b }) := by rw [Volume.free, hrun]
    simp only [wp, hfree]
  | error e =>
    have hfree : Volume.free x 1 v = (.error e, v) := by rw [Volume.free, hrun]
    rw [hone] at hrun
    simp only [wp, hfree, clearBit_hard hrun]
    exact Fault.hard_panic

theorem writeData_hard (x : ℕ) (sec : Sector) : FailsHard (Volume.writeData x sec) := by
  intro v
  cases hwrite : v.disk.writeSectors x 1 (PhysPage.ofSector sec) with
  | some d =>
    have hrun : Volume.writeData x sec v = (.ok (), { v with disk := d }) := by rw [writeData, writeSectors, hwrite]
    simp only [wp, hrun]
  | none =>
    have hrun : Volume.writeData x sec v = (.error (.fs .ioError), v) := by rw [writeData, writeSectors, hwrite]
    simp only [wp, hrun]
    exact Fault.hard_ioError

theorem writeChain_hard (dir : Directory) (chain : List ℕ) :
    FailsHard (do
        (List.range (divCeil dir.children.length ENTRIES_PER_DIRENTRY)).forM (dir.writeBlock chain)
        if dir.children.isEmpty then
          Volume.writeData dir.head.start (DirBlock.encode ⟨dir.parent, fun _ => DirEntry.zero, ⟨0, 0⟩⟩)) := by
  intro v
  have hblock : ∀ i, FailsHard (dir.writeBlock chain i) := by
    intro i v'
    unfold Directory.writeBlock
    split
    · exact writeData_hard _ _ v'
    · exact wp_fail.2 Fault.hard_panic
  refine wp_seq (wp_forM _ (fun _ _ => True) (fun _ i _ v' _ _ => hblock i v') trivial) (fun _ v1 _ => ?_) fun _ _ h => h
  split_ifs
  · exact writeData_hard _ _ v1
  · exact wp_pure.2 trivial

/-- The blocks that `sync` has to allocate when it has found the blocks `chain`. -/
def Directory.missing (dir : Directory) (chain : List ℕ) : ℕ := dir.blocksNeeded - 1 - (chain.length - 1)

def Directory.Enough (dir : Directory) (v : Volume) : Prop :=
  ∀ chain, collectChain v.disk v.disk.fuel dir.head = .ok chain → dir.missing chain ≤ (v.bitmap.available []).length

/-- `sync` runs out of space exactly if there are fewer sectors than it has to allocate, and then it has taken them all
and done nothing else. -/
theorem sync_attempt (dir : Directory) (v : Volume) :
    wp dir.sync v (fun _ _ => dir.Enough v)
      (fun e v' => e.Hard ∧ dir.Enough v ∨
        e = .fs .noSpace ∧ v'.bitmap.available [] = [] ∧ (v.bitmap.available [] = [] → v' = v) ∧
          ∃ chain, collectChain v.disk v.disk.fuel dir.head = .ok chain ∧
            (v.bitmap.available []).length < dir.missing chain) := by
  unfold Directory.sync
  rw [wp_bind, wp_reads]
  refine ⟨fun chain hchain => ?_, fun e he => .inl ⟨?_, fun chain hchain => ?_⟩⟩
  · have honly : dir.missing chain ≤ (v.bitmap.available []).length → dir.Enough v := by
      intro hn chain' hchain'
      rw [hchain] at hchain'
      cases hchain'
      exact hn
    by_cases hlong : dir.blocksNeeded ≤ chain.length
    · -- nothing is missing
      have hnone : dir.missing chain = 0 := by
        unfold Directory.missing
        omega
      have henough := honly (by omega)
      refine wp_seq (wp_forM _ (fun _ _ => True) (fun _ x _ v' _ _ => free_hard x v') trivial) (fun _ v1 _ => ?_)
        fun e _ he => .inl ⟨he, henough⟩
      refine wp_seq (reuse_takes chain (dir.blocksNeeded - 1) 1 v1) (fun rest v2 _ => ?_) ?_
      · exact wp_mono (writeChain_hard dir _ v2) (fun _ _ _ => henough) fun e _ he => .inl ⟨he, henough⟩
      · rintro e v2 ⟨-, fresh, hlen, -⟩
        unfold Directory.missing at hnone
        omega
    · have hdrop : chain.drop dir.blocksNeeded = [] := List.drop_eq_nil_of_le (by omega)
      rw [hdrop, List.forM, pure_bind]
      refine wp_seq (reuse_takes chain (dir.blocksNeeded - 1) 1 v) ?_ ?_
      · rintro _ v2 ⟨fresh, rfl, hlen, ht⟩
        have henough := honly (by
          rw [ht.available, List.length_append, hlen]
          exact Nat.le_add_right _ _)
        exact wp_mono (writeChain_hard dir _ v2) (fun _ _ _ => henough) fun e _ he => .inl ⟨he, henough⟩
      · rintro e v2 ⟨rfl, fresh, hlen, ht, hnone, hsame⟩
        have hall : v.bitmap.available [] = fresh := by rw [ht.available, hnone, List.append_nil]
        exact .inr ⟨rfl, hnone, fun h => hsame (hall.symm.trans h), chain, hchain, by rw [hall]; exact hlen⟩
  · rcases collectChain_error he with rfl | rfl
    · exact fun fe h => by cases h
    · exact Fault.hard_ioError
  · rw [he] at hchain
    cases hchain

namespace LemonFS

variable {s s' : LemonFS} {path : Path} {flags : ℕ}

/-- A `create` that is not refused: its directory `dir` with the blocks `chain`, where the name is not taken, and
the flags of the new entry. -/
structure Attempt (s : LemonFS) (path : Path) (flags : ℕ) (dir : Directory) (bits : DirEntryFlags) (chain : List ℕ) :
    Prop where
  notRoot : path.isRoot = false
  parent : s.getParent path = .ok dir
  absent : dir.findChildIdx path.name = none
  fromBits : DirEntryFlags.fromBits (UInt8.ofNat flags) = some bits
  collected : collectChain s.disk s.disk.fuel dir.head = .ok chain

/-- The sectors that it needs: one for the new entry, unless it is a symlink, and the blocks that the directory with
one more child is short of. -/
def createNeeds (dir : Directory) (bits : DirEntryFlags) (chain : List ℕ) : ℕ :=
  (if fromDirflags bits = .symlink then 0 else 1) +
    (max (divCeil (dir.children.length + 1) 8) 1 - 1 - (chain.length - 1))

/-- There are enough sectors for whatever `create` attempts. -/
def Enough (s : LemonFS) (path : Path) (flags n : ℕ) : Prop :=
  ∀ dir bits chain, s.Attempt path flags dir bits chain → createNeeds dir bits chain ≤ n

def CreateFailure (s : LemonFS) (path : Path) (flags : ℕ) (e : Fault) (s' : LemonFS) : Prop :=
  (s.Enough path flags (s.bitmap.available []).length ∧ (e.Hard ∨ s' = s)) ∨
  e = .fs .noSpace ∧ s'.bitmap.available [] = [] ∧ (s.bitmap.available [] = [] → s' = s) ∧
    ∃ dir bits chain, s.Attempt path flags dir bits chain ∧
      (s.bitmap.available []).length < createNeeds dir bits chain

theorem needs_of_attempt {dir : Directory} {bits : DirEntryFlags} {n : ℕ} (hpar : s.getParent path = .ok dir)
    (hbits : DirEntryFlags.fromBits (UInt8.ofNat flags) = some bits)
    (h : ∀ chain, collectChain s.disk s.disk.fuel dir.head = .ok chain → createNeeds dir bits chain ≤ n) :
    s.Enough path flags n := by
  intro dir' bits' chain ha
  have hdir := ha.parent
  have hbits' := ha.fromBits
  rw [hpar] at hdir
  rw [hbits] at hbits'
  cases hdir
  cases hbits'
  exact h chain ha.collected

theorem give_attempt {dir : Directory} {bits : DirEntryFlags} {start : ℕ} {v1 : Volume} {l : List ℕ}
    (hroot : path.isRoot = false) (hpar : s.getParent path = .ok dir) (habsent : dir.findChildIdx path.name = none)
    (hbits : DirEntryFlags.fromBits (UInt8.ofNat flags) = some bits)
    (hlen : l.length = if fromDirflags bits = .symlink then 0 else 1) (ht : Takes l s.toVolume v1)
    (hnil : l = [] → v1 = s.toVolume) :
    wp (do
        onVolume (dir.giveChild (new (fromStr path.name) start (fromDirflags bits)))
        if path.parent.isRoot then
          Prog.modify fun fs => { fs with root := fs.root ++
            [new (fromStr path.name) start (fromDirflags bits)] })
      { s with toVolume := v1 } (fun _ _ => s.Enough path flags (s.bitmap.available []).length)
      (s.CreateFailure path flags) := by
  have hcount : (s.bitmap.available []).length = l.length + (v1.bitmap.available []).length := by
    rw [ht.available, List.length_append]
  have hneeds : ∀ chain, createNeeds dir bits chain = l.length + Directory.missing { dir with children := dir.children ++
      [new (fromStr path.name) start (fromDirflags bits)] } chain := by
    intro chain
    rw [createNeeds, Directory.missing, Directory.blocksNeeded, List.length_append, hlen]
    rfl
  have hsync := sync_attempt { dir with children := dir.children ++
    [new (fromStr path.name) start (fromDirflags bits)] } v1
  rw [Directory.Enough, ht.disk] at hsync
  have henough : (∀ chain, collectChain s.disk s.disk.fuel dir.head = .ok chain → Directory.missing { dir with children :=
      dir.children ++ [new (fromStr path.name) start (fromDirflags bits)] } chain ≤
        (v1.bitmap.available []).length) → s.Enough path flags (s.bitmap.available []).length := by
    intro h
    refine needs_of_attempt hpar hbits fun chain hchain => ?_
    rw [hneeds, hcount]
    exact Nat.add_le_add_left (h chain hchain) _
  refine wp_onVolume_seq hsync (fun _ v2 h => ?_) fun e v2 h => ?_
  · split_ifs
    · exact wp_modify.2 (henough h)
    · exact wp_pure.2 (henough h)
  · rcases h with ⟨hhard, h⟩ | ⟨rfl, hnone, hsame, chain, hchain, hshort⟩
    · exact .inl ⟨henough h, .inl hhard⟩
    · refine .inr ⟨rfl, hnone, fun hempty => ?_, dir, bits, chain, ⟨hroot, hpar, habsent, hbits, hchain⟩, ?_⟩
      · rw [ht.available, List.append_eq_nil_iff] at hempty
        rw [hsame hempty.2, hnil hempty.1]
      · rw [hneeds, hcount]
        exact Nat.add_lt_add_left hshort _

theorem create_attempt (s : LemonFS) (path : Path) (flags : ℕ) :
    wp (create path flags) s (fun _ _ => s.Enough path flags (s.bitmap.available []).length)
      (s.CreateFailure path flags) := by
  unfold create
  cases hroot : path.isRoot with
  | true =>
    rw [if_pos rfl, fsError, wp_fail]
    exact .inl ⟨fun _ _ _ ha => by simp [ha.notRoot] at hroot, .inr rfl⟩
  | false =>
  rw [if_neg Bool.false_ne_true, wp_bind, wp_reads]
  refine ⟨fun dir hpar => ?_, fun e he => .inl ⟨fun _ _ _ ha => by simp [ha.parent] at he, .inr rfl⟩⟩
  cases hfind : dir.findChildIdx path.name with
  | some idx =>
    rw [Option.isSome_some, if_pos rfl, fsError, wp_fail]
    refine .inl ⟨fun dir' _ _ ha => ?_, .inr rfl⟩
    have hdir := ha.parent
    rw [hpar] at hdir
    cases hdir
    simp [ha.absent] at hfind
  | none =>
  rw [Option.isSome_none, if_neg Bool.false_ne_true]
  cases hbits : DirEntryFlags.fromBits (UInt8.ofNat flags) with
  | none =>
    rw [fsError, wp_fail]
    exact .inl ⟨fun _ _ _ ha => by simp [ha.fromBits] at hbits, .inr rfl⟩
  | some bits =>
  by_cases hkind : fromDirflags bits = .symlink
  · have hgive := @give_attempt s path flags dir bits 0 s.toVolume [] hroot hpar hfind hbits (by rw [if_pos hkind]; rfl)
      (Takes.nil _) fun _ => rfl
    simp only [hkind, pure_bind] at hgive ⊢
    exact hgive
  · -- a file and a directory get a sector first
    have halloc : wp (do
        let start ← onVolume Volume.allocSector
        onVolume (dir.giveChild (new (fromStr path.name) start (fromDirflags bits)))
        if path.parent.isRoot then
          Prog.modify fun fs => { fs with root := fs.root ++
            [new (fromStr path.name) start (fromDirflags bits)] }) s
        (fun _ _ => s.Enough path flags (s.bitmap.available []).length) (s.CreateFailure path flags) := by
      refine wp_onVolume_seq (allocSector_takes s.toVolume) (fun start v1 h => ?_) fun e v1 h => ?_
      · obtain ⟨_, _, ht⟩ := h
        exact give_attempt hroot hpar hfind hbits (by rw [if_neg hkind]; rfl) ht fun h => by cases h
      · obtain ⟨rfl, rfl, hnone⟩ := h
        cases hchain : collectChain s.disk s.disk.fuel dir.head with
        | error e =>
          refine .inl ⟨needs_of_attempt hpar hbits fun chain h => ?_, .inr rfl⟩
          rw [hchain] at h
          cases h
        | ok chain =>
          refine .inr ⟨rfl, hnone, fun _ => rfl, dir, bits, chain, ⟨hroot, hpar, hfind, hbits, hchain⟩, ?_⟩
          rw [hnone, createNeeds, if_neg hkind]
          exact Nat.lt_of_lt_of_le Nat.zero_lt_one (Nat.le_add_right _ _)
    cases hk : fromDirflags bits with
    | symlink => exact absurd hk hkind
    | file =>
      simp only [hk] at halloc ⊢
      exact halloc
    | directory =>
      simp only [hk] at halloc ⊢
      exact halloc

end LemonFS

open LemonFS

/-- A `create` that fails without an I/O error leaves everything as it was, exactly if there is no sector to be
allocated at all or there are enough for everything it needs. -/
theorem failed_create_iff (s : LemonFS) (path : Path) (flags : ℕ) :
    (∀ e s', create path flags s = (.error (.fs e), s') → e ≠ .ioError → s' = s) ↔
      ∀ dir bits chain, s.Attempt path flags dir bits chain →
        s.bitmap.available [] = [] ∨ createNeeds dir bits chain ≤ (s.bitmap.available []).length := by
  have hspec := create_attempt s path flags
  constructor
  · intro hsame dir bits chain ha
    by_contra hcond
    rw [not_or, not_le] at hcond
    rcases hrun : create path flags s with ⟨e | _, s'⟩
    · rcases wp_error hspec hrun with ⟨henough, -⟩ | ⟨rfl, hnone, -, -⟩
      · exact absurd (henough dir bits chain ha) (not_le.2 hcond.2)
      · rw [hsame _ _ hrun (by decide)] at hnone
        exact hcond.1 hnone
    · exact absurd (wp_ok hspec hrun dir bits chain ha) (not_le.2 hcond.2)
  · intro hcond e s' hrun hne
    rcases wp_error hspec hrun with ⟨-, hhard | hsame⟩ | ⟨-, -, hsame, dir, bits, chain, ha, hshort⟩
    · exact absurd (hhard e rfl) hne
    · exact hsame
    · exact hsame ((hcond dir bits chain ha).resolve_right (not_le.2 hshort))

/-- The root at sector 4099 with eight symlinks, which fill its block, and one free sector, 4098. -/
def fullRoot : Directory :=
  ⟨fromStr [], 0, (List.range 8).map fun k => .symLink (fromStr [0x61 + UInt8.ofNat k]) ⟨0, 0⟩,
    ⟨4099, 512⟩⟩

def almostFull : LemonFS where
  disk := disk4101 fun x => if x = 4099 then (fullRoot.blockAt [4099] 0).encode else Sector.zero
  bitmap := ⟨[.mixed fun i => if i.val = 511 then 0x7F else 0xFF, .full], 3⟩
  superblock := { SuperBlock.decode Sector.zero with bitmapStart := 1, dataStart := 3, dataEnd := 4099 }
  root := fullRoot.children

theorem almostFull_holds : almostFull.Holds [4099] (fullRoot.children.map DirectoryEntry.slot) [] := by
  have hlisting := @Directory.dirChain_of_stored fullRoot [4099] almostFull.disk (by decide) (by
    intro c hc
    obtain ⟨k, -, rfl⟩ := List.mem_map.1 hc
    exact ⟨show 0 < 2 ^ 64 by norm_num, show 0 < 2 ^ 64 by norm_num⟩) (by decide) (by
    intro i x hx
    cases i with
    | zero =>
      obtain rfl : 4099 = x := Option.some.inj hx
      rfl
    | succ i => cases hx) 0 0 ⟨4099, 512⟩ rfl rfl rfl
  refine ⟨?_, ?_, by decide, by decide, fun x hx hfree => ?_⟩
  · exact hlisting
  · exact .symlink rfl (.symlink rfl (.symlink rfl (.symlink rfl
      (.symlink rfl (.symlink rfl (.symlink rfl (.symlink rfl .nil)))))))
  · obtain rfl : x = 4099 := by simpa using hx
    exact absurd hfree.2 (by decide)

/-- A ninth entry needs a sector for itself and a block for the directory. The first is found, the second is not,
and the sector of the entry stays marked used. -/
theorem failed_create_leaks :
    ∃ chain es owned s', almostFull.Holds chain es owned ∧
      create ⟨[0x2F, 0x69]⟩ 0 almostFull = (.error (.fs .noSpace), s') ∧ s' ≠ almostFull := by
  have hrun : create ⟨[0x2F, 0x69]⟩ 0 almostFull = (.error (.fs .noSpace), (create ⟨[0x2F, 0x69]⟩ 0 almostFull).2) :=
    run_of_result (by decide +kernel)
  refine ⟨_, _, _, _, almostFull_holds, hrun, fun hsame => ?_⟩
  have hbefore : almostFull.bitmap.bit 4095 = false := by decide +kernel
  have hafter : (create ⟨[0x2F, 0x69]⟩ 0 almostFull).2.bitmap.bit 4095 = true := by decide +kernel
  rw [hsame, hbefore] at hafter
  cases hafter

end MaramOS
