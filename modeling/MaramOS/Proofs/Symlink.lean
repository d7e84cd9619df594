import MaramOS.Proofs.Creation
import MaramOS.Proofs.Elsewhere
import MaramOS.Proofs.ReadWrite

/-! A symlink in the root that was routed to a file below the root. It holds a copy
of the head of the file, so the two read the same as long as the head stays where
it is, and a `write` to the file keeps it only if the file is one extent of the
size that is written. -/

namespace MaramOS

open List Prog Volume LemonFS
open DirectoryEntry renaming slot → slotOf
open Filename (fromStr)
open PhysPage (zeroed)

section Read

variable {s : LemonFS} {path symlink : Path} {e : Slot}

theorem LemonFS.HasFile.routeTarget (hq : s.HasFile path e) (hi : s.Inv) (hsub : path.parent.isRoot = false) :
    s.routeTarget path = .ok e.link := by
  obtain ⟨dir, f, hdir, hget, hhead, -⟩ := hq.open hi hsub
  rw [LemonFS.routeTarget, hdir, ok_bind, hget, ← hhead]

theorem isRoot_of_parent (h : path.parent.isRoot = false) : path.isRoot = false := by
  cases hroot : path.isRoot with
  | false => rfl
  | true =>
    have htext : path.text = [0x2F] := by simpa [Path.isRoot] using hroot
    have hcomps : path.components.dropLast = [] := by
      rw [Path.components, htext]
      rfl
    rw [(Path.isRoot_parent path).2 hcomps] at h
    cases h

theorem read_symlink (hi : s.Inv) (hq : s.HasFile path e) (hsub : path.parent.isRoot = false)
    (hroot : symlink.isRoot = false) (hpar : symlink.parent.isRoot = true) {name : Filename}
    (hlink : s.rootDir.getChild symlink.name = some (.symLink name e.link)) (dest : PhysPage) :
    s.read symlink dest = s.read path dest := by
  obtain ⟨dir, f, hdir, hget, hhead, hparsed⟩ := hq.open hi hsub
  have hresolve : resolveLinks s.disk e.link = .ok f.links := by
    rw [← hhead]
    exact hparsed.1
  unfold LemonFS.read
  rw [hroot, isRoot_of_parent hsub, getParent_root hpar, hdir]
  simp only [Bool.false_eq_true, if_false, ok_bind, hlink, hget, hresolve]

end Read

/-- The cached entry of `symlink` holds the head of the file at `path`. -/
def LemonFS.Follows (s : LemonFS) (symlink path : Path) : Prop :=
  ∃ e name, s.HasFile path e ∧
    lookup (visible (s.root.map slotOf)) symlink.name = some ⟨name, .symlink, e.link⟩

variable {s : LemonFS}

theorem getChild_of_cached {p : Path} {name : Filename} {target : LinkPointer}
    (h : lookup (visible (s.root.map slotOf)) p.name = some ⟨name, .symlink, target⟩) :
    s.rootDir.getChild p.name = some (.symLink name target) := by
  rw [lookup_visible p.name_ne_nil] at h
  have hslot := getChild_slot s.rootDir p.name
  rw [show s.rootDir.children = s.root from rfl, h, Option.map_eq_some_iff] at hslot
  obtain ⟨child, hget, hchild⟩ := hslot
  cases child with
  | file f => cases hchild
  | directory n l => cases hchild
  | symLink n l =>
    cases hchild
    exact hget

theorem LemonFS.Follows.read {symlink path : Path} (h : s.Follows symlink path) (hi : s.Inv)
    (hsub : path.parent.isRoot = false) (hroot : symlink.isRoot = false) (hpar : symlink.parent.isRoot = true)
    (dest : PhysPage) : s.read symlink dest = s.read path dest := by
  obtain ⟨e, name, hq, hl⟩ := h
  exact read_symlink hi hq hsub hroot hpar (getChild_of_cached hl) dest

/-- A rewrite with `n` sectors leaves the head of a file where it is: the file is
one extent of that size, or it is in link blocks, needs link blocks again, and
the first sector that is left for them is the one it starts with. -/
def SameHead (b : BitmapAllocator) (head : LinkPointer) (ind : List ℕ) (ext : List LinkPointer) (n : ℕ) : Prop :=
  head.isValid = true ∧ head.isDirect = true ∧ head.size = 512 * n ∨
    head.isDirect = false ∧ (coalesce (newChain b ind ext n)).length ≠ 1 ∧
      ((b.available (ind ++ (fileBlocks ext).drop n)).drop (n - (fileBlocks ext).length)).head? = some head.start

namespace Call

/-- The call neither deletes the file or a directory above it nor the symlink, and routes nothing. -/
def Spares (symlink path : Path) : Call → Prop
  | .delete p => ¬p.route <+: path.route ∧ p.route ≠ symlink.route
  | .routeSymlink _ _ => False
  | _ => True

/-- A `write` to the file finds it laid out so that its head stays. -/
def KeepsHead (s : LemonFS) (path : Path) : Call → Prop
  | .write p src => p.route = path.route → ∀ e ind ext, s.HasFile path e → LinkChain s.disk e.link ind ext →
      SameHead s.bitmap e.link ind ext (8 * src.count)
  | _ => True

end Call

section Head

variable {s s' : LemonFS} {path : Path} {src : PhysPage} {dir : Directory}
  {chain0 owned0 before chain inner after chain' : List ℕ} {es slots : List Slot} {l1 l2 : List DirectoryEntry}
  {f f' : File} {i1 ind i2 lbas : List ℕ} {ext : List LinkPointer} {v1 : Volume}

theorem Rewritten.head_of_links {v v' : Volume} (hr : Rewritten ind ext src f f' lbas v v') {x : ℕ}
    (hmany : (coalesce (newChain v.bitmap ind ext (8 * src.count))).length ≠ 1) (hpos : 0 < src.count)
    (hx : ((v.bitmap.available (ind ++ (fileBlocks ext).drop (8 * src.count))).drop
      (8 * src.count - (fileBlocks ext).length)).head? = some x) : f'.head = ⟨x, 0⟩ := by
  have hne : coalesce (newChain v.bitmap ind ext (8 * src.count)) ≠ [] := by
    refine coalesce_ne_nil fun hnil => ?_
    have hlen := hr.length
    rw [hnil, length_nil] at hlen
    omega
  have hcount := hr.linkCount
  have hlen := length_pos_iff.2 hne
  rw [linkBlocks, if_neg hmany, divCeil] at hcount
  obtain ⟨y, rest, rfl⟩ := exists_cons_of_length_pos (show 0 < lbas.length by omega)
  obtain ⟨tail, htail⟩ := hr.linked
  rw [← htail, cons_append, List.head?_cons, Option.some.injEq] at hx
  subst hx
  have hl := hr.link
  generalize hhead : f'.head = head at hl
  generalize coalesce (newChain v.bitmap ind ext (8 * src.count)) = extents at hl
  cases hl with
  | block _ hdirect _ _ =>
    have hsize : head.size = 0 := by simpa [LinkPointer.isDirect] using hdirect
    rw [← hsize]

section

variable (h : At s dir chain0 es owned0 before chain slots inner after)
  (hw : Written s dir chain inner path src l1 f l2 i1 ind ext i2 f' lbas v1 chain' s')
include h hw

theorem LemonFS.Written.head_of_extent (hvalid : f.head.isValid = true) (hdirect : f.head.isDirect = true)
    (hsize : f.head.size = 512 * (8 * src.count)) :
    f'.head = f.head := by
  have hpages := hw.pages
  obtain ⟨rfl, rfl⟩ := hw.link.unique (.extent hvalid hdirect)
  have hcount : divCeil f.head.size 512 = 8 * src.count := by
    rw [hsize, divCeil]
    omega
  have hblocks : fileBlocks [f.head] = range' f.head.start (8 * src.count) := by
    rw [fileBlocks_singleton, LinkPointer.blocks, hcount]
  have hchain : newChain s.bitmap [] [f.head] (8 * src.count) = range' f.head.start (8 * src.count) := by
    rw [newChain, hblocks]
    exact take_left' length_range'
  have hend : f.head.start + 8 * src.count ≤ s.disk.sectorCount := by
    have hmem : f.head.start + (8 * src.count - 1) ∈ [] ++ fileBlocks [f.head] := by
      rw [nil_append, hblocks, mem_range'_1]
      omega
    have hplaced := (h.inner_placed _ (hw.child.own_subset hmem)).2
    have hinside := h.inv.mounted.area.inside
    omega
  refine hw.rewritten.head_of_single ?_
  rw [hchain, coalesce_range' s.disk.fits _ _ (by omega) hend]
  cases hf : f.head with
  | mk start size =>
    rw [hf] at hsize
    simp only at hsize
    rw [hsize]

theorem LemonFS.Written.head_same (hsame : SameHead s.bitmap f.head ind ext (8 * src.count)) : f'.head = f.head := by
  rcases hsame with ⟨hvalid, hdirect, hsize⟩ | ⟨hdirect, hmany, hfirst⟩
  · exact hw.head_of_extent h hvalid hdirect hsize
  · rw [hw.rewritten.head_of_links hmany hw.pages hfirst]
    have hsize : f.head.size = 0 := by simpa [LinkPointer.isDirect] using hdirect
    rw [← hsize]

end

end Head

section Step

variable {s s' : LemonFS} {c : Call} {symlink path : Path} {dir : Directory}
  {chain0 owned0 before chain inner after : List ℕ} {es slots : List Slot} {e : Slot} {m : Str}

section

variable (hloc : Located s c.path dir chain0 es owned0 before chain slots inner after)
include hloc

theorem Located.not_on_way (hplain : c.Plain s) (hq : s.HasFile path e)
    (hother : c.path.route = path.route → dir.getChild c.path.name = none)
    (hkind : ∀ n l, dir.getChild c.path.name ≠ some (.directory n l)) : ¬c.path.route <+: path.route := by
  intro hpre
  obtain ⟨chain1, es1, ptr, sub, hchain1, hleads, hl, -⟩ := hq
  obtain ⟨-, rfl⟩ := hchain1.unique hloc.at_dir.holds.listing
  have hshown := hloc.at_dir.focus.shown
  rcases (hloc.leads hplain).on_way hleads hl hpre with ⟨hcomps, hname, rfl⟩ | ⟨e', hl', hk⟩
  · obtain ⟨child, hget, -⟩ := getChild_of_lookup hshown (Path.name_ne_nil _) hl
    rw [← hname, hother (by rw [Path.route, Path.route, hcomps, hname])] at hget
    cases hget
  · obtain ⟨child, hget, hchild⟩ := getChild_of_lookup hshown (Path.name_ne_nil _) hl'
    obtain ⟨n, rfl⟩ := hchild.directory hk
    exact hkind n _ hget

theorem Located.head_of_file {f : File} (hplain : c.Plain s) (hq : s.HasFile path e)
    (hroute : c.path.route = path.route) (hget : dir.getChild c.path.name = some (.file f)) :
    f.head = e.link := by
  obtain ⟨chain1, es1, ptr, sub, hchain1, hleads, hl, hk⟩ := hq
  obtain ⟨-, rfl⟩ := hchain1.unique hloc.at_dir.holds.listing
  obtain ⟨hcomps, hname⟩ := append_inj' hroute rfl
  have hname := singleton_inj.1 hname
  rcases (hloc.leads hplain).on_way hleads hl (show c.path.route <+: path.route by rw [hroute]) with
    ⟨-, -, rfl⟩ | ⟨e', hl', hk'⟩
  · obtain ⟨child, hget', hchild⟩ := getChild_of_lookup hloc.at_dir.focus.shown (Path.name_ne_nil _) hl
    obtain ⟨g, rfl, hhead⟩ := hchild.file hk
    rw [← hname, hget] at hget'
    cases hget'
    exact hhead
  · obtain ⟨child, hget', hchild⟩ := getChild_of_lookup hloc.at_dir.focus.shown (Path.name_ne_nil _) hl'
    obtain ⟨n, rfl⟩ := hchild.directory hk'
    rw [hget] at hget'
    cases hget'

theorem Located.lookup_root {children' : List DirectoryEntry}
    (hroot : s'.root = if c.path.parent.isRoot then children' else s.root)
    (hkeep : c.path.parent.isRoot = true → lookup (visible (dir.children.map slotOf)) m = some e →
      lookup (visible (children'.map slotOf)) m = some e)
    (hl : lookup (visible (s.root.map slotOf)) m = some e) :
    lookup (visible (s'.root.map slotOf)) m = some e := by
  rw [hroot]
  split_ifs with hp
  · refine hkeep hp ?_
    rw [hloc.root_eq (hloc.head_iff.1 hp)]
    exact hl
  · exact hl

end

theorem route_of_root {p : Path} (h : p.parent.isRoot = true) : p.route = [p.name] := by
  rw [Path.route, Path.components_parent, (Path.isRoot_parent p).1 h]
  rfl

theorem LemonFS.Follows.step (hf : s.Follows symlink path) (hi : s.Inv) (hsym : symlink.parent.isRoot = true)
    (hplain : c.Plain s) (hblank : c.Blank s) (horder : c.KeepsOrder s symlink ∧ c.KeepsOrder s path)
      (hspare : c.Spares symlink path)
    (hhead : c.KeepsHead s path) (hrun : c.run s = (.ok (), s')) : s'.Follows symlink path := by
  obtain ⟨e, name, hq, hl⟩ := hf
  cases outcome_of_run hi hplain.live hrun with
  | @created p flags bits dir _ _ _ _ _ _ _ _ _ start _ _ hloc hbits hc =>
    have hnot := hloc.not_on_way (c := .create p flags) hplain hq (fun _ => hc.absent) fun n l h => by
      cases hc.absent.symm.trans h
    refine ⟨e, name, (elsewhere hi hplain hblank horder.2 rfl hrun hq hnot).1, ?_⟩
    rw [hc.root]
    split_ifs
    · rw [map_append, visible_append, lookup, List.find?_append]
      rw [lookup] at hl
      rw [hl]
      rfl
    · exact hl
  | @written p src dir _ _ _ _ _ _ _ _ _ l1 l2 f f' _ _ _ _ _ _ _ hloc hw =>
    have hu := hw.update hloc.at_dir hloc.head_iff
    have hroot : lookup (visible (s'.root.map slotOf)) symlink.name = some ⟨name, .symlink, e.link⟩ := by
      refine hloc.lookup_root (c := .write p src) hw.root (fun _ hold => ?_) hl
      have hne : symlink.name ≠ p.name := by
        intro h
        have hslot := getChild_slot dir p.name
        rw [hw.child.getChild, ← lookup_visible (Path.name_ne_nil _), ← h, hold] at hslot
        cases hslot
      rw [hw.lookup_skip hne, ← hw.child.lookup_skip hne]
      exact hold
    by_cases hroute : p.route = path.route
    · have hlink := hloc.head_of_file (c := .write p src) hplain hq hroute hw.child.getChild
      have hsame := hhead hroute e _ _ hq (by rw [← hlink]; exact hw.link)
      rw [← hlink] at hsame
      have hsame := hw.head_same hloc.at_dir hsame
      obtain ⟨hcomps, hname⟩ := append_inj' hroute rfl
      obtain ⟨chain2, owned2, hh, -⟩ := hloc.new_tree hu
      have hleads := hloc.leads_after (c := .write p src) hplain hu
      rw [show (Call.write p src).path.parent.components = path.parent.components from hcomps] at hleads
      rw [hcomps] at hh
      refine ⟨(DirectoryEntry.file f').slot, name, ⟨chain2, _, _, _, hh.listing, hleads, ?_, rfl⟩, ?_⟩
      · rw [← singleton_inj.1 hname]
        exact hw.lookup
      · rw [hroot, ← hlink, ← hsame]
        rfl
    · have hnot := hloc.not_on_way (c := .write p src) hplain hq (fun h => absurd h hroute) fun n l h => by
        cases hw.child.getChild.symm.trans h
      exact ⟨e, name, (elsewhere hi hplain hblank horder.2 rfl hrun hq hnot).1, hroot⟩
  | @deleted p dir _ _ _ _ _ _ _ _ _ l1 l2 _ _ _ _ _ _ hloc hd =>
    refine ⟨e, name, (elsewhere hi hplain hblank horder.2 rfl hrun hq hspare.1).1, ?_⟩
    have hlast := fun m => horder.1 _ _ _ _ m hloc.parent hd.child.children hd.child.named hd.child.first
    refine hloc.lookup_root (c := .delete p) hd.root (fun hp hold => ?_) hl
    have hne : symlink.name ≠ p.name := by
      intro h
      refine hspare.2 ?_
      rw [show p.route = [p.name] from route_of_root hp, route_of_root hsym, h]
    have hway : p.parent.components ++ [symlink.name] <+: symlink.route := by
      rw [route_of_root hsym, Path.components_parent, (Path.isRoot_parent p).1 hp]
      exact prefix_refl _
    rw [lookup_removed (hlast _ hway), ← hd.child.lookup_skip hne]
    exact hold
  | routed => exact hspare.elim

theorem LemonFS.Routed.others {dest : Path} {l1 l2 : List DirectoryEntry} {name : Filename} {old target : LinkPointer}
    {i1 own i2 chain' inner' : List ℕ} (h : At s dir chain0 es owned0 before chain slots inner after)
    (hr : Routed s dir chain inner symlink dest l1 name old target l2 i1 own i2 chain' s')
    (hu : Update s dir chain inner s.toVolume (l1 ++ .symLink name target :: l2) chain' inner' s') {own' : List ℕ}
    (hk : e.kind ≠ .symlink) (hl : lookup slots m = some e) (hown : Owns s.disk [e] own') :
    lookup (visible ((l1 ++ .symLink name target :: l2).map slotOf)) m = some e ∧
      ∀ x ∈ own', s'.disk.sectors x = s.disk.sectors x := by
  refine ⟨?_, fun x hx => h.same (Touches.refl _ _) hu.synced ?_ not_mem_nil⟩
  · have hrel := (agree_symLink l1 l2 name old target).lookup m
    rw [← hr.child.children, (h.lookup_iff hk).1 hl] at hrel
    cases hl' : lookup (visible ((l1 ++ .symLink name target :: l2).map slotOf)) m with
    | none =>
      rw [hl'] at hrel
      cases hrel
    | some e' =>
      rw [hl'] at hrel
      cases hrel with
      | some halike => rw [halike.eq hk]
  · obtain ⟨own1, hown1, hsub⟩ := h.slots_owns.of_mem (lookup_some hl).1
    obtain rfl := hown.unique hown1
    exact hsub.subset hx

theorem follows_of_route (hi : s.Inv) (hq : s.HasFile path e) (hsub : path.parent.isRoot = false)
    (hsym : symlink.parent.isRoot = true) (hrun : routeSymlink symlink path s = (.ok (), s')) :
    s'.Inv ∧ s'.HasFile path e ∧ ∃ name,
      lookup (visible (s'.root.map slotOf)) symlink.name = some ⟨name, .symlink, e.link⟩ := by
  have hcall : (Call.routeSymlink symlink path).run s = (.ok (), s') := hrun
  have hpar : (Call.routeSymlink symlink path).path.parent.isRoot = true := by
    show symlink.parent.parent.isRoot = true
    rw [Path.isRoot_parent, Path.components_parent, (Path.isRoot_parent symlink).1 hsym]
    rfl
  have hplain : (Call.routeSymlink symlink path).Plain s := plain_of_root hpar
  cases outcome_of_run hi hplain.live hcall with
  | @routed _ _ dir chain0 owned0 before chain inner after chain' es slots l1 l2 name old target _ _ _ _ hloc hr =>
    have hu := hloc.routed hr
    refine ⟨hu.inv hloc.at_dir, ?_, name, ?_⟩
    · refine (hloc.other (c := .routeSymlink symlink path) hplain hu (fun m e own _ _ hk hl hown =>
        hr.others hloc.at_dir hu hk hl hown) hq ?_).1
      -- the first name on the way to the file is a component, which has no slash in it
      rw [route_of_root hpar]
      cases hcomps : path.parent.components with
      | nil =>
        rw [Path.components_parent] at hcomps
        rw [(Path.isRoot_parent path).2 hcomps] at hsub
        cases hsub
      | cons w ws =>
        intro hpre
        rw [Path.route, hcomps] at hpre
        have hw : w ∈ path.parent.components := by rw [hcomps]; exact mem_cons_self
        have hslash : symlink.parent.name = [0x2F] := by
          rw [Path.name, Path.components_parent, (Path.isRoot_parent symlink).1 hsym]
          rfl
        have hname := (cons_prefix_cons.1 hpre).1
        rw [show (Call.routeSymlink symlink path).path.name = [0x2F] from hslash] at hname
        exact (Path.mem_components hw).1 (by rw [← hname]; exact mem_cons_self)
    · have htarget : target = e.link := Except.ok.inj (hr.routed.symm.trans (hq.routeTarget hi hsub))
      rw [hr.root, if_pos hsym, ← htarget, lookup_visible symlink.name_ne_nil]
      have hfound := getChild_slot ⟨fromStr [0x2F], 0, l1 ++ .symLink name target :: l2, ⟨0, 0⟩⟩ symlink.name
      rw [Directory.getChild, find?_split (by exact hr.child.named) hr.child.first] at hfound
      exact hfound.symm

/-- The conditions under which a call keeps a symlink and the head of its file together. -/
def Call.Faithful (symlink path : Path) (s : LemonFS) (c : Call) (r : Except Fault Unit) : Prop :=
  r = .ok () ∧ c.Plain s ∧ c.Blank s ∧ (c.KeepsOrder s symlink ∧ c.KeepsOrder s path) ∧ c.Spares symlink path ∧
    c.KeepsHead s path

end Step

/-- In a sound state a symlink of the root is routed to a file below the root. After every run of
successful calls on plain paths that spare the two and keep the head of the file, the symlink reads
as the file. -/
theorem symlink_follows_file (s₀ s₁ s : LemonFS) (symlink path : Path) (e : Slot) (hi : s₀.Inv)
    (hq : s₀.HasFile path e) (hsub : path.parent.isRoot = false) (hroot : symlink.isRoot = false)
    (hsym : symlink.parent.isRoot = true) (hroute : routeSymlink symlink path s₀ = (.ok (), s₁))
    (hruns : Runs Call.run (Call.Faithful symlink path) s₁ s) (dest : PhysPage) :
    s.read symlink dest = s.read path dest := by
  obtain ⟨hi₁, hq₁, name, hl⟩ := follows_of_route hi hq hsub hsym hroute
  have hkept : s.Inv ∧ s.Follows symlink path := by
    refine hruns.invariant (fun s => s.Inv ∧ s.Follows symlink path) ⟨hi₁, e, name, hq₁, hl⟩ ?_
    rintro s c r s' ⟨hi, hf⟩ hrun ⟨rfl, hplain, hblank, horder, hspare, hhead⟩
    have heffect := @effect_of_run _ _ _ (.ok ()) hi hplain.live hblank (fun h => by cases h) trivial hrun
    exact ⟨heffect.inv hi, hf.step hi hsym hplain hblank horder hspare hhead hrun⟩
  exact hkept.2.read hkept.1 hsub hroot hsym dest

section Sample

structure LinkAndDir (s : LemonFS) : Prop extends OneDir s where
  root : s.root = [.symLink (fromStr [0x73]) ⟨0, 0⟩, .directory (fromStr [0x64]) ⟨3, 512⟩]
  stored : s.disk.sectors 4099 = (s.rootDir.blockAt [4099] 0).encode

theorem exists_linkAndDir :
    ∃ s₀ s, Fresh (disk4101 fun _ => Sector.zero) s₀ ∧ Runs Call.run (fun _ _ r => r = .ok ()) s₀ s ∧ LinkAndDir s := by
  obtain ⟨s₀, h₀⟩ := exists_blank
  obtain ⟨s₁, hrun1, hmade1⟩ := @create_first _ ⟨[0x2F, 0x73]⟩ 2 2 .symlink s₀ h₀ rfl rfl rfl (by decide)
  have hsmall1 : Small 3 s₁ := hmade1.small h₀.small fun h => by cases h
  have hroot₁ : s₁.root = [.symLink (fromStr [0x73]) ⟨0, 0⟩] := by
    rw [hmade1.root, h₀.facts.root]
    rfl
  have hzero1 : s₁.disk.sectors 3 = Sector.zero := by
    rw [hmade1.rest 3 (by norm_num)]
    exact h₀.sector le_rfl (by norm_num)
  have hn1 := hsmall1.filled.sectorCount
  have habsent1 : s₁.rootDir.getChild (Path.name ⟨[0x2F, 0x64]⟩) = none := getChild_rootDir hroot₁ rfl
  obtain ⟨s, hrun, hmade⟩ := @Small.create 3 s₁ ⟨[0x2F, 0x64]⟩ 1 1 .directory hsmall1 rfl rfl habsent1 rfl (by decide)
    (by norm_num) (by rw [hroot₁]; norm_num)
  have hsmall : Small 4 s := hmade.small hsmall1 fun _ => dirChain_zero (by omega) hzero1
  have hroot : s.root = [.symLink (fromStr [0x73]) ⟨0, 0⟩, .directory (fromStr [0x64]) ⟨3, 512⟩] := by
    rw [hmade.root, hroot₁]
    rfl
  have hn := hsmall.filled.sectorCount
  have hcall1 : (Call.create ⟨[0x2F, 0x73]⟩ 2).run s₀ = (.ok (), s₁) := hrun1
  have hcall : (Call.create ⟨[0x2F, 0x64]⟩ 1).run s₁ = (.ok (), s) := hrun
  refine ⟨s₀, s, h₀, .call (.call .start hcall1 rfl) hcall rfl,
    ⟨hsmall, by rw [hroot]; rfl, ?_, dirChain_zero (by omega) ?_⟩,
    hroot, hmade.stored⟩
  · have hlisting := hmade.listing
    rw [hroot] at hlisting ⊢
    exact hlisting
  · rw [hmade.rest 3 (by norm_num), hzero1]

/-- The symlink, and a new file in the directory. -/
structure LinkAndFile (s : LemonFS) : Prop extends NestedFile s where
  root : s.root = [.symLink (fromStr [0x73]) ⟨0, 0⟩, .directory (fromStr [0x64]) ⟨3, 512⟩]

variable {s : LemonFS}

theorem LinkAndDir.create_file (h : LinkAndDir s) :
    ∃ s', create ⟨[0x2F, 0x64, 0x2F, 0x74]⟩ 0 s = (.ok (), s') ∧ LinkAndFile s' := by
  obtain ⟨s', hrun, hroot, -, hfile⟩ := h.toOneDir.create_file
  exact ⟨s', hrun, hfile, hroot.trans h.root⟩

theorem route_ok {symlink path : Path} {e : Slot} {name : Filename} {old : LinkPointer} (hi : s.Inv)
    (hq : s.HasFile path e) (hsub : path.parent.isRoot = false) (hroot : symlink.isRoot = false)
    (hsym : symlink.parent.isRoot = true) (hget : s.rootDir.getChild symlink.name = some (.symLink name old)) :
    ∃ s', routeSymlink symlink path s = (.ok (), s') := by
  have hpar : s.getParent symlink.parent = .ok s.rootDir := by
    refine getParent_root ((Path.isRoot_parent _).2 ?_)
    rw [Path.components_parent, (Path.isRoot_parent _).1 hsym]
    rfl
  obtain ⟨chain0, es, owned0, before, chain, slots, inner, after, hat⟩ := hi.at fun _ _ _ => .root
  have hspec := @routeSymlink_spec _ _ _ _ _ symlink path hat.ready hpar
  rcases hrun : routeSymlink symlink path s with ⟨e' | _, s'⟩
  · obtain ⟨-, hfail⟩ := wp_error hspec hrun
    rcases hfail with hfail | hfail | hfail
    · rw [hroot] at hfail
      cases hfail
    · exact absurd hget (hfail _ _)
    · exact absurd (hq.routeTarget hi hsub) (hfail _)
  · exact ⟨s', rfl⟩

theorem LinkAndFile.route (h : LinkAndFile s) :
    ∃ s', routeSymlink ⟨[0x2F, 0x73]⟩ ⟨[0x2F, 0x64, 0x2F, 0x74]⟩ s = (.ok (), s') ∧ Small 5 s' ∧
      s'.root = [.symLink (fromStr [0x73]) ⟨4, 1⟩, .directory (fromStr [0x64]) ⟨3, 512⟩] := by
  have hget : s.rootDir.getChild (Path.name ⟨[0x2F, 0x73]⟩) = some (.symLink (fromStr [0x73]) ⟨0, 0⟩) :=
    getChild_rootDir h.root rfl
  obtain ⟨s', hrun⟩ := route_ok h.small.inv h.file (by decide) (by decide) (by decide) hget
  refine ⟨s', hrun, ?_⟩
  have hcall : (Call.routeSymlink ⟨[0x2F, 0x73]⟩ ⟨[0x2F, 0x64, 0x2F, 0x74]⟩).run s = (.ok (), s') := hrun
  cases outcome_of_run h.small.inv (Or.inl (by decide)) hcall with
  | @routed _ _ dir _ _ _ chain _ _ _ _ _ l1 l2 name old target _ _ _ _ hloc hr =>
    obtain rfl := rootDir_of_getParent hloc.parent (by decide)
    obtain ⟨es, hes⟩ := h.small.listing
    obtain ⟨rfl, -⟩ := hloc.at_dir.focus.listing.unique hes
    have hchildren := hr.child.children
    rw [show s.rootDir.children = s.root from rfl, h.root] at hchildren
    -- the symlink is the first entry
    obtain rfl : l1 = [] := by
      cases l1 with
      | nil => rfl
      | cons x l =>
        obtain rfl := (List.cons.inj hchildren).1
        exact absurd rfl (hr.child.first _ mem_cons_self)
    obtain ⟨hentry, rfl⟩ := List.cons.inj hchildren
    cases hentry
    have htarget : target = ⟨4, 1⟩ := Except.ok.inj (hr.routed.symm.trans (h.file.routeTarget h.small.inv (by decide)))
    subst htarget
    have hptr : s'.rootPtr = s.rootPtr := by rw [rootPtr, rootPtr, hr.superblock]
    have hused : ¬s.toVolume.Free 4099 := by
      rw [h.small.filled.free]
      omega
    have hsynced := hr.synced
    obtain ⟨rfl, hfill⟩ := hsynced.single (show s.rootPtr.isDirect = true by rfl) h.small.dataEnd
      (show 2 ≤ 8 by norm_num) h.small.filled hused
    have hlisting := hsynced.listing
    rw [show ({ s.rootDir with children := _ } : Directory).head = s'.rootPtr from hptr.symm] at hlisting
    refine ⟨⟨(hloc.routed hr).inv hloc.at_dir, hfill, by rw [hr.superblock, h.small.dataStart],
      by rw [hr.superblock, h.small.dataEnd], _, hlisting⟩, ?_⟩
    rw [hr.root]
    exact if_pos (by decide)

/-- A one-page write to the file makes its extent longer; the symlink still reads one byte. -/
theorem symlink_reads_old_extent :
    ∃ s₀ s s₁ s₂ p q, Fresh (disk4101 fun _ => Sector.zero) s₀ ∧ Runs Call.run (fun _ _ r => r = .ok ()) s₀ s ∧
      routeSymlink ⟨[0x2F, 0x73]⟩ ⟨[0x2F, 0x64, 0x2F, 0x74]⟩ s = (.ok (), s₁) ∧
      write ⟨[0x2F, 0x64, 0x2F, 0x74]⟩ (PhysPage.zeroed 1) s₁ = (.ok (), s₂) ∧
      s₂.read ⟨[0x2F, 0x73]⟩ (PhysPage.zeroed 1) = .ok (1, p) ∧
      s₂.read ⟨[0x2F, 0x64, 0x2F, 0x74]⟩ (PhysPage.zeroed 1) = .ok (4096, q) := by
  obtain ⟨s₀, sd, h₀, hruns, hd⟩ := exists_linkAndDir
  obtain ⟨s, hcreate, hs⟩ := hd.create_file
  obtain ⟨s₁, hroute, hsmall, hroot₁⟩ := hs.route
  obtain ⟨hi₁, hq₁, -⟩ := follows_of_route hs.small.inv hs.file (by decide) (by decide) hroute
  obtain ⟨s₂, hwrite, hroot₂, hn, hread⟩ := @NestedFile.write s₁ ⟨hsmall, hq₁⟩ (zeroed 1) Nat.one_pos
    (show 1 ≤ 500 by norm_num)
  have hcall : (Call.create ⟨[0x2F, 0x64, 0x2F, 0x74]⟩ 0).run sd = (.ok (), s) := hcreate
  have hget : s₂.rootDir.getChild (Path.name ⟨[0x2F, 0x73]⟩) = some (.symLink (fromStr [0x73]) ⟨4, 1⟩) :=
    getChild_rootDir (hroot₂.trans hroot₁) rfl
  have hlink : LinkChain s₂.disk ⟨4, 1⟩ [] [⟨4, 1⟩] := .extent rfl rfl
  have hinside : Inside s₂.disk [⟨4, 1⟩] := by
    refine inside_of_blocks (fun l hl => ?_) fun x hx => ?_
    · rw [List.mem_singleton.1 hl]
      rfl
    · have hx : x ∈ [4] := hx
      rw [List.mem_singleton.1 hx, hn]
      norm_num
  have hold := read_of_symlink rfl (getParent_root rfl) hget (hlink.resolveLinks (Nat.zero_le _)) hinside
    (zeroed 1)
  have hsize : min (wsum ([⟨4, 1⟩].map LinkPointer.size)) ((zeroed 1).count * PAGE_SIZE) = 1 := by
    show min 1 (1 * 4096) = 1
    norm_num
  rw [hsize] at hold
  exact ⟨s₀, s, s₁, s₂, _, _, h₀, .call hruns hcall rfl, hroute, hwrite, hold, hread (zeroed 1)⟩

/-- A symlink that was routed to a new file, after another file was created. -/
theorem symlink_follows_file_new :
    ∃ s₀ s₁ s₂, routeSymlink ⟨[0x2F, 0x73]⟩ ⟨[0x2F, 0x64, 0x2F, 0x74]⟩ s₀ = (.ok (), s₁) ∧
      create ⟨[0x2F, 0x65]⟩ 0 s₁ = (.ok (), s₂) ∧
      s₂.read ⟨[0x2F, 0x73]⟩ (PhysPage.zeroed 1) = s₂.read ⟨[0x2F, 0x64, 0x2F, 0x74]⟩ (PhysPage.zeroed 1) := by
  obtain ⟨-, sd, -, -, hd⟩ := exists_linkAndDir
  obtain ⟨s₀, -, hs⟩ := hd.create_file
  obtain ⟨s₁, hroute, hsmall, hroot₁⟩ := hs.route
  have habsent : s₁.rootDir.getChild (Path.name ⟨[0x2F, 0x65]⟩) = none := getChild_rootDir hroot₁ rfl
  obtain ⟨s₂, hcreate, -⟩ := @Small.create 5 s₁ ⟨[0x2F, 0x65]⟩ 0 0 .file hsmall rfl rfl habsent rfl (by decide)
    (by norm_num) (by rw [hroot₁]; norm_num)
  have hcall : (Call.create ⟨[0x2F, 0x65]⟩ 0).run s₁ = (.ok (), s₂) := hcreate
  have hblank : (Call.create ⟨[0x2F, 0x65]⟩ 0).Blank s₁ := by
    intro bits x hbits hkind
    cases hbits
    exact absurd hkind (by decide)
  refine ⟨s₀, s₁, s₂, hroute, hcreate, symlink_follows_file s₀ s₁ s₂ _ _ _ hs.small.inv hs.file (by decide) (by decide)
    (by decide) hroute (.call .start hcall ⟨rfl, plain_of_root (by decide), hblank, ⟨trivial, trivial⟩, trivial, trivial⟩) _⟩

end Sample

end MaramOS
