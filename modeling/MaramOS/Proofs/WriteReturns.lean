import MaramOS.Proofs.Effects
import MaramOS.Proofs.Sample

/-! When `write` returns. The walk to the parent either ends in a directory of the tree
or is refused, and from there only a source without pages makes it panic. -/

namespace MaramOS

open Prog LemonFS

variable {s : LemonFS} {path : Path} {dir : Directory} {es : List Slot} {chain₀ owned₀ : List ℕ}

namespace LemonFS

/-- A symlink on the way to the parent of the path leads to a directory of the tree, or to no extent: a new symlink,
and one to a file with link blocks, is walked as an empty directory. -/
def SoundWalk (s : LemonFS) (path : Path) : Prop :=
  ∀ chain es before c after dir name dest, DirChain s.disk s.rootPtr chain es →
    path.parent.components = before ++ c :: after → before.foldlM (enter s.disk) s.rootDir = .ok dir →
    dir.getChild c = some (.symLink name dest) → LiveDir s.disk es dest ∨ dest.isDirect = false

def NamesFile (s : LemonFS) (path : Path) : Prop :=
  path.isRoot = false ∧ ∃ dir f, s.getParent path = .ok dir ∧ dir.getChild path.name = some (.file f)

theorem Opened.child_live (hi : s.Inv) (hh : s.Holds chain₀ es owned₀)
    (hcache : Agree es (visible (s.root.map DirectoryEntry.slot))) (hroom : s.root.length ≤ 8 * chain₀.length)
    (ho : Opened s es dir) {c : Str} (hc : c ≠ []) {name : Filename} {link : LinkPointer}
    (hget : dir.getChild c = some (.directory name link)) : LiveDir s.disk es link := by
  obtain ⟨before, chain, slots, inner, after, hf⟩ := hh.focus hi hcache hroom ho
  have hfound : lookup (dir.children.map DirectoryEntry.slot) c = some (DirectoryEntry.directory name link).slot := by
    rw [← getChild_slot, hget]
    rfl
  have hmem : (DirectoryEntry.directory name link).slot ∈ slots := by
    rw [← lookup_visible hc] at hfound
    exact Agree.mem hf.shown (List.mem_of_find?_eq_some hfound) fun hk => by cases hk
  cases ho with
  | root =>
    obtain ⟨-, rfl⟩ := hf.listing.unique hh.listing
    exact ⟨_, .here hmem, rfl, rfl⟩
  | sub hlive hlisting _ _ =>
    obtain ⟨e, hin, hk, hlink⟩ := hlive
    obtain ⟨-, rfl⟩ := hf.listing.unique hlisting
    rw [← hlink] at hlisting
    exact ⟨_, hin.trans hk hlisting (.here hmem), rfl, rfl⟩

theorem openAt_indirect (d : Disk) (name : Filename) {dest : LinkPointer} (h : dest.isDirect = false) :
    (∃ dir, Directory.openAt d name dest = .ok dir ∧ dir.children = []) ∨
      ∃ e, Directory.openAt d name dest = .error (.fs e) := by
  have hnone : addChildrenFromLink d d.fuel dest = .ok [] := by
    rw [Disk.fuel, addChildrenFromLink, h]
    rfl
  rw [Directory.openAt, LinkPointer.read, readData]
  cases d.readSectors dest.start 1 with
  | none => exact .inr ⟨_, rfl⟩
  | some page =>
    refine .inl ⟨⟨name, (DirBlock.decode fun i => page i.val).parent, [], dest⟩, ?_, rfl⟩
    simp only [ok_bind, Directory.fromDirBlock, hnone]
    rfl

/-- Where the walk can be: in a directory of the tree, or in one without entries. -/
def WalkEnd (s : LemonFS) (es : List Slot) (dir : Directory) : Prop := Opened s es dir ∨ dir.children = []

theorem WalkEnd.enter (hi : s.Inv) (hh : s.Holds chain₀ es owned₀)
    (hcache : Agree es (visible (s.root.map DirectoryEntry.slot))) (hroom : s.root.length ≤ 8 * chain₀.length)
    (hr : WalkEnd s es dir) {c : Str} (hc : c ≠ [])
    (hsym : ∀ name dest, dir.getChild c = some (.symLink name dest) → LiveDir s.disk es dest ∨ dest.isDirect = false) :
    (∃ dir', enter s.disk dir c = .ok dir' ∧ WalkEnd s es dir') ∨ ∃ e, enter s.disk dir c = .error (.fs e) := by
  have hlive : ∀ name {ptr}, LiveDir s.disk es ptr →
      ∃ dir', Directory.openAt s.disk name ptr = .ok dir' ∧ WalkEnd s es dir' := by
    intro name ptr hptr
    obtain ⟨dir', hopen, ho⟩ := hh.openAt_live hptr name
    exact ⟨dir', hopen, .inl ho⟩
  rw [LemonFS.enter]
  cases hget : dir.getChild c with
  | none => exact .inr ⟨_, rfl⟩
  | some child =>
    cases child with
    | file f => exact .inr ⟨_, rfl⟩
    | symLink name dest =>
      rcases hsym name dest hget with hptr | hptr
      · exact .inl (hlive _ hptr)
      · exact (openAt_indirect s.disk _ hptr).imp_left fun ⟨dir', hopen, hnil⟩ => ⟨dir', hopen, .inr hnil⟩
    | directory name link =>
      rcases hr with ho | hnil
      · exact .inl (hlive _ (ho.child_live hi hh hcache hroom hc hget))
      · rw [Directory.getChild, hnil] at hget
        cases hget

theorem Inv.getParent_returns (hi : s.Inv) (hsound : s.SoundWalk path) :
    (∃ dir, s.getParent path = .ok dir ∧ ∀ chain es, DirChain s.disk s.rootPtr chain es → WalkEnd s es dir) ∨
      ∃ e, s.getParent path = .error (.fs e) := by
  obtain ⟨chain₀, es, owned₀, hh, hcache, hroom⟩ := hi.tree
  have hwalk : ∀ comps, (∃ after, path.parent.components = comps ++ after) →
      (∃ dir, comps.foldlM (LemonFS.enter s.disk) s.rootDir = .ok dir ∧ WalkEnd s es dir) ∨
        ∃ e, comps.foldlM (LemonFS.enter s.disk) s.rootDir = .error (.fs e) := by
    intro comps
    -- on the last component, so that what comes before it is a walk from the root
    induction comps using List.reverseRecOn with
    | nil => exact fun _ => .inl ⟨_, rfl, .inl .root⟩
    | append_singleton comps c ih =>
      rintro ⟨after, hsplit⟩
      rw [List.append_assoc] at hsplit
      rw [List.foldlM_append]
      rcases ih ⟨_, hsplit⟩ with ⟨dir, hdir, hr⟩ | ⟨e, he⟩
      · have hc : c ≠ [] := Path.component_ne_nil (p := path.parent) (by rw [hsplit]; simp)
        rw [hdir, ok_bind, List.foldlM_cons]
        rcases hr.enter hi hh hcache hroom hc (hsound chain₀ es comps c after dir · · hh.listing hsplit hdir) with
          ⟨dir', hdir', hr'⟩ | ⟨e, he⟩
        · rw [hdir', ok_bind]
          exact .inl ⟨dir', rfl, hr'⟩
        · rw [he, error_bind]
          exact .inr ⟨e, rfl⟩
      · rw [he, error_bind]
        exact .inr ⟨e, rfl⟩
  rcases hwalk _ ⟨[], (List.append_nil _).symm⟩ with ⟨dir, hdir, hr⟩ | herr
  · refine .inl ⟨dir, hdir, fun chain es' hlisting => ?_⟩
    obtain ⟨-, rfl⟩ := hlisting.unique hh.listing
    exact hr
  · exact .inr herr

theorem getChild_of_findChildIdx_some {name : Str} {idx : ℕ} (hfind : dir.findChildIdx name = some idx) :
    ∃ c, dir.children[idx]? = some c ∧ dir.getChild name = some c := by
  obtain ⟨l1, c, l2, hsplit, rfl, hname, hfirst⟩ := findIdx?_split hfind
  refine ⟨c, by rw [hsplit, List.getElem?_append_right le_rfl, Nat.sub_self]; rfl, ?_⟩
  rw [Directory.getChild, hsplit]
  exact find?_split (by simpa using hname) fun x hx => by simpa using hfirst x hx

theorem write_returns_of_noFile (src : PhysPage)
    (hwalk : (∃ dir, s.getParent path = .ok dir) ∨ ∃ e, s.getParent path = .error (.fs e))
    (hno : ¬s.NamesFile path) : Call.Returns (write path src s).1 := by
  have hwp : wp (write path src) s (fun _ _ => True) (fun e _ => Call.Returns (.error e)) := by
    unfold write
    cases hroot : path.isRoot with
    | true =>
      rw [if_pos rfl, fsError, wp_fail]
      trivial
    | false =>
    rw [if_neg Bool.false_ne_true]
    rcases hwalk with ⟨dir, hpar⟩ | ⟨e, he⟩
    · refine wp_reads_seq ?_ hpar
      cases hfind : dir.findChildIdx path.name with
      | none =>
        rw [fsError, wp_fail]
        trivial
      | some idx =>
        obtain ⟨c, hc, hget⟩ := getChild_of_findChildIdx_some hfind
        simp only [hc]
        cases c with
        | file f => exact absurd ⟨hroot, dir, f, hpar, hget⟩ hno
        | directory name link =>
          rw [fsError, wp_fail]
          trivial
        | symLink name dest =>
          rw [fsError, wp_fail]
          trivial
    · rw [wp_bind, wp_reads]
      refine ⟨fun dir hpar => ?_, fun e' he' => ?_⟩
      · rw [he] at hpar
        cases hpar
      · rw [he] at he'
        cases he'
        trivial
  rcases hrun : write path src s with ⟨e | _, s'⟩
  · have hret := wp_error hwp hrun
    exact hret
  · trivial

theorem write_file_result (src : PhysPage) {before chain inner after : List ℕ} {slots : List Slot} {f : File}
    (hat : At s dir chain₀ es owned₀ before chain slots inner after) (hroot : path.isRoot = false)
    (hpar : s.getParent path = .ok dir) (hget : dir.getChild path.name = some (.file f)) :
    src.count = 0 ∧ (write path src s).1 = .error .panic ∨ src.count ≠ 0 ∧ Call.Returns (write path src s).1 := by
  have hspec := write_spec hat.ready hpar src
  rcases hrun : write path src s with ⟨e | _, s'⟩
  · cases wp_error hspec hrun with
    | isRoot h => simp [hroot] at h
    | fileNotFound h => simp [hget] at h
    | badFileType h hf =>
      rw [hget] at h
      exact absurd (Option.some.inj h).symm (hf f)
    | noPages h => exact .inl ⟨h, rfl⟩
    | noSpace _ _ hpos => exact .inr ⟨hpos.ne', trivial⟩
  · obtain ⟨_, _, _, _, _, _, _, _, _, _, _, hw⟩ := wp_ok hspec hrun
    exact .inr ⟨hw.pages.ne', trivial⟩

end LemonFS

theorem OneFile.namesFile (h : OneFile s) : s.NamesFile ⟨[0x2F, 0x61]⟩ :=
  ⟨by decide, s.rootDir, _, getParent_root (by decide), h.getChild⟩

/-- A `write` on a sound state returns, unless a source without pages is written to a file: its new chain is
empty, and `build_file_chain` takes the first of no link blocks. -/
theorem write_returns_iff (s : LemonFS) (path : Path) (src : PhysPage) (hi : s.Inv) (hsound : s.SoundWalk path) :
    Call.Returns (write path src s).1 ↔ ¬(src.count = 0 ∧ s.NamesFile path) := by
  have hwalk := hi.getParent_returns hsound
  by_cases hfile : s.NamesFile path
  swap
  · refine iff_of_true (write_returns_of_noFile src ?_ hfile) fun h => hfile h.2
    exact hwalk.imp_left fun ⟨dir, hpar, _⟩ => ⟨dir, hpar⟩
  obtain ⟨hroot, dir, f, hpar, hget⟩ := id hfile
  -- a directory without entries has no file, so the walk ended in the tree
  have hopened : ∀ chain es, DirChain s.disk s.rootPtr chain es → Opened s es dir := by
    intro chain es hlisting
    rcases hwalk with ⟨dir', hpar', hreach⟩ | ⟨e, he⟩
    · rw [hpar] at hpar'
      cases hpar'
      refine (hreach chain es hlisting).resolve_right fun hnil => ?_
      rw [Directory.getChild, hnil] at hget
      cases hget
    · rw [hpar] at he
      cases he
  obtain ⟨chain₀, es, owned₀, before, chain, slots, inner, after, hat⟩ := hi.at hopened
  rw [and_iff_left hfile]
  rcases write_file_result src hat hroot hpar hget with ⟨hzero, hpanic⟩ | ⟨hpages, hret⟩
  · rw [hpanic]
    exact iff_of_false id (not_not_intro hzero)
  · exact iff_of_true hret hpages

theorem write_returns_onePage : ∃ s : LemonFS, s.Inv ∧ s.SoundWalk ⟨[0x2F, 0x61]⟩ ∧ s.NamesFile ⟨[0x2F, 0x61]⟩ ∧
    Call.Returns (write ⟨[0x2F, 0x61]⟩ (PhysPage.zeroed 1) s).1 := by
  obtain ⟨s, hs⟩ := exists_oneFile
  have hsound : s.SoundWalk ⟨[0x2F, 0x61]⟩ := by
    intro _ _ before c after _ _ _ _ hsplit
    have hnil : Path.components (Path.parent ⟨[0x2F, 0x61]⟩) = [] := by decide
    rw [hnil] at hsplit
    simp at hsplit
  exact ⟨s, hs.small.inv, hsound, hs.namesFile,
    (write_returns_iff s _ _ hs.small.inv hsound).2 fun h => absurd h.1 (by decide)⟩

/-- The file `a` and a source without pages. -/
theorem write_noPages_panics : ∃ s : LemonFS, s.Consistent ∧ s.NamesFile ⟨[0x2F, 0x61]⟩ ∧
    (write ⟨[0x2F, 0x61]⟩ (PhysPage.zeroed 0) s).1 = .error .panic := by
  obtain ⟨s, hs⟩ := exists_oneFile
  refine ⟨s, hs.consistent, hs.namesFile, ?_⟩
  obtain ⟨hroot, dir, f, hpar, hget⟩ := hs.namesFile
  obtain rfl := rootDir_of_getParent hpar (by decide)
  obtain ⟨chain₀, es, owned₀, before, chain, slots, inner, after, hat⟩ := hs.small.inv.at fun _ _ _ => .root
  rcases write_file_result (PhysPage.zeroed 0) hat hroot hpar hget with ⟨-, hpanic⟩ | ⟨hpages, -⟩
  · exact hpanic
  · exact absurd rfl hpages

end MaramOS
