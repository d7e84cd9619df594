import MaramOS.Proofs.Siblings
import MaramOS.Proofs.Symlink

/-! Which symlink `route_symlink` changes. It looks for the name in the parent of the parent, so what it does to a
symlink below the root is, a few coincidences apart, not what was asked for. -/

namespace MaramOS

open List Prog Volume LemonFS
open DirectoryEntry (toDentry slot_toDentry)
open DirectoryEntry renaming slot → slotOf

/-- The first entry of that name gets another target. -/
def retarget (name : Str) (target : LinkPointer) : List DirEntry → List DirEntry
  | [] => []
  | e :: es => if e.name.toStr = name then { e with link := target } :: es else e :: retarget name target es

/-- The root or a directory of the tree starts at `ptr`. -/
def LemonFS.HasDirectory (s : LemonFS) (ptr : LinkPointer) : Prop :=
  ptr = s.rootPtr ∨ ∃ chain es, DirChain s.disk s.rootPtr chain es ∧ LiveDir s.disk es ptr

/-- The directory at `ptr` has these entries on disk. -/
def HasEntries (d : Disk) (ptr : LinkPointer) (es : List DirEntry) : Prop :=
  ∃ chain slots, DirChain d ptr chain slots ∧ listed (dirEntries d chain) = es

/-- In the directory at `ptr` the entry of that name has the new target, and no other entry of any directory has
changed, on disk or in the cached root. -/
structure LemonFS.Rerouted (s : LemonFS) (ptr : LinkPointer) (name : Str) (target : LinkPointer) (s' : LemonFS) : Prop where
  entry : ∀ es, HasEntries s.disk ptr es → HasEntries s'.disk ptr (retarget name target es)
  others : ∀ q es, s.HasDirectory q → q ≠ ptr → HasEntries s.disk q es → HasEntries s'.disk q es
  cached : s'.root.map toDentry =
    if ptr = s.rootPtr then retarget name target (s.root.map toDentry) else s.root.map toDentry

section Retarget

variable {name : Str} {target : LinkPointer} {l₁ l₂ es : List DirEntry} {e : DirEntry}

theorem retarget_split (hfirst : ∀ x ∈ l₁, x.name.toStr ≠ name) (hnamed : e.name.toStr = name) :
    retarget name target (l₁ ++ e :: l₂) = l₁ ++ { e with link := target } :: l₂ := by
  induction l₁ with
  | nil => rw [nil_append, retarget, if_pos hnamed, nil_append]
  | cons a l₁ ih =>
    rw [cons_append, retarget, if_neg (hfirst a mem_cons_self), cons_append,
      ih fun x hx => hfirst x (mem_cons_of_mem _ hx)]

theorem retarget_eq_self_iff : retarget name target es = es ↔
    ∀ e, es.find? (fun e => e.name.toStr == name) = some e → e.link = target := by
  induction es with
  | nil => exact iff_of_true rfl fun e h => by cases h
  | cons a es ih =>
    rw [retarget]
    by_cases hname : a.name.toStr = name
    · rw [if_pos hname, find?_cons_of_pos (by simpa using hname), List.cons.injEq, and_iff_left rfl]
      constructor
      · intro h e he
        cases he
        exact (congrArg DirEntry.link h).symm
      · intro h
        rw [← h a rfl]
    · rw [if_neg hname, find?_cons_of_neg (by simpa using hname), List.cons.injEq, and_iff_right rfl, ih]

end Retarget

section Entries

variable {d d' : Disk} {ptr : LinkPointer} {es es' : List DirEntry} {chain : List ℕ} {slots : List Slot}

theorem HasEntries.unique (h : HasEntries d ptr es) (h' : HasEntries d ptr es') : es = es' := by
  obtain ⟨chain, slots, hchain, rfl⟩ := h
  obtain ⟨chain', slots', hchain', rfl⟩ := h'
  rw [(hchain.unique hchain').1]

theorem DirChain.hasEntries (h : DirChain d ptr chain slots) : HasEntries d ptr (listed (dirEntries d chain)) :=
    ⟨chain, slots, h, rfl⟩

theorem DirChain.hasEntries_frame (h : DirChain d ptr chain slots) (hcount : d'.sectorCount = d.sectorCount)
    (hsame : ∀ x ∈ chain, d'.sectors x = d.sectors x) (hes : HasEntries d ptr es) : HasEntries d' ptr es := by
  refine ⟨chain, slots, h.frame hcount hsame, ?_⟩
  rw [hes.unique h.hasEntries, dirEntries, dirEntries]
  congr 1
  exact flatMap_congr fun x hx => by rw [hsame x hx]

theorem HasEntries.map_slot (h : HasEntries d ptr es) (hchain : DirChain d ptr chain slots) :
    es.map DirEntry.slot = slots := by
  rw [h.unique hchain.hasEntries, slots_eq_dirEntries hchain, listed, visible, filter_map]
  rfl

end Entries

section Apart

variable {d : Disk} {es : List Slot} {owned : List ℕ} {e e' : Slot} {chain chain' : List ℕ}
  {sub slots slots' : List Slot}

theorem SlotIn.chain_subset (h : SlotIn d es e) (howns : Owns d es owned) (hk : e.kind = .directory)
    (hchain : DirChain d e.link chain sub) : chain ⊆ owned := by
  induction h generalizing owned with
  | here he =>
    obtain ⟨own, hown, hsub⟩ := howns.of_mem he
    obtain ⟨chain', sub', inner, rfl, -, hchain', -⟩ := hown.directory_inv hk
    obtain ⟨rfl, -⟩ := hchain.unique hchain'
    exact fun x hx => hsub.subset (mem_append_left _ hx)
  | inside hmem hkd hsub _ ih =>
    obtain ⟨own, hown, hpart⟩ := howns.of_mem hmem
    obtain ⟨chain', sub', inner, rfl, -, hchain', hinner⟩ := hown.directory_inv hkd
    obtain ⟨-, rfl⟩ := hsub.unique hchain'
    exact fun x hx => hpart.subset (mem_append_right _ (ih hinner hk hchain hx))

theorem Owns.apart_of_inside {dir : Slot} {chain₁ : List ℕ} (howns : Owns d es owned) (hnodup : owned.Nodup)
    (he : e ∈ es) (hk : e.kind = .directory) (hdir : dir ∈ es) (hkd : dir.kind = .directory)
    (hsub : DirChain d dir.link chain₁ sub) (hin : SlotIn d sub e') (hk' : e'.kind = .directory)
    (hchain : DirChain d e.link chain slots) (hchain' : DirChain d e'.link chain' slots') :
    ∀ x ∈ chain, x ∉ chain' := by
  obtain ⟨inner1, -, hinner1, hown1, hn1, -⟩ := howns.subdirectory hnodup hdir hkd hsub
  have hbelow := hin.chain_subset hinner1 hk' hchain'
  intro x hx hx'
  by_cases heq : e = dir
  · subst heq
    obtain ⟨rfl, -⟩ := hchain.unique hsub
    exact (nodup_append.1 hn1).2.2 x hx x (hbelow hx') rfl
  · obtain ⟨inner, -, -, hown, -, -⟩ := howns.subdirectory hnodup he hk hchain
    exact howns.disjoint hnodup he hdir heq hown hown1 (mem_append_left _ hx) (mem_append_right _ (hbelow hx'))

theorem Owns.chains_apart (h : SlotIn d es e) (h' : SlotIn d es e') (howns : Owns d es owned) (hnodup : owned.Nodup)
    (hk : e.kind = .directory) (hk' : e'.kind = .directory) (hne : e.link ≠ e'.link)
    (hchain : DirChain d e.link chain slots) (hchain' : DirChain d e'.link chain' slots') :
    ∀ x ∈ chain, x ∉ chain' := by
  induction h generalizing owned with
  | here he =>
    cases h' with
    | here he' =>
      obtain ⟨inner, -, -, hown, -, -⟩ := howns.subdirectory hnodup he hk hchain
      obtain ⟨inner', -, -, hown', -, -⟩ := howns.subdirectory hnodup he' hk' hchain'
      intro x hx hx'
      refine howns.disjoint hnodup he he' ?_ hown hown' (mem_append_left _ hx) (mem_append_left _ hx')
      rintro rfl
      exact hne rfl
    | inside hdir hkd hsub hin => exact howns.apart_of_inside hnodup he hk hdir hkd hsub hin hk' hchain hchain'
  | @inside es sub dir e chain₁ hdir hkd hsub hin ih =>
    cases h' with
    | here he' =>
      intro x hx hx'
      exact howns.apart_of_inside hnodup he' hk' hdir hkd hsub hin hk hchain' hchain x hx' hx
    | @inside _ sub' dir' _ chain₂ hdir' hkd' hsub' hin' =>
      obtain ⟨inner1, -, hinner1, hown1, hn1, -⟩ := howns.subdirectory hnodup hdir hkd hsub
      by_cases heq : dir = dir'
      · subst heq
        obtain ⟨-, rfl⟩ := hsub.unique hsub'
        exact ih hin' hinner1 (nodup_append.1 hn1).2.1 hk hne hchain
      · obtain ⟨inner2, -, hinner2, hown2, -, -⟩ := howns.subdirectory hnodup hdir' hkd' hsub'
        intro x hx hx'
        exact howns.disjoint hnodup hdir hdir' heq hown1 hown2
          (mem_append_right _ (hin.chain_subset hinner1 hk hchain hx))
          (mem_append_right _ (hin'.chain_subset hinner2 hk' hchain' hx'))

end Apart

section Route

variable {s s' : LemonFS} {symlink dest : Path} {dir work : Directory} {name : Filename} {old target : LinkPointer}
  {q : LinkPointer} {chain chain' chain0 owned0 before inner after i₁ own i₂ : List ℕ} {slots es : List Slot}
  {c : Call} {l₁ l₂ : List DirectoryEntry} {n : Str}

theorem LemonFS.Inv.apart (hi : s.Inv) {p : LinkPointer} (hp : s.HasDirectory p) (hq : s.HasDirectory q) (hne : p ≠ q)
    {slots' : List Slot} (hchain : DirChain s.disk p chain slots) (hchain' : DirChain s.disk q chain' slots') :
    ∀ x ∈ chain, x ∉ chain' := by
  obtain ⟨chain0, es, owned0, hh, -⟩ := hi.tree
  have hnodup := nodup_append.1 hh.nodup
  rcases hp with rfl | ⟨chain₁, es1, hroot, e, hin, hk, rfl⟩
  · rcases hq with rfl | ⟨chain₂, es2, hroot, e', hin', hk', rfl⟩
    · exact absurd rfl hne
    · obtain ⟨rfl, -⟩ := hchain.unique hh.listing
      obtain ⟨-, rfl⟩ := hroot.unique hh.listing
      exact fun x hx hx' => hnodup.2.2 x hx x (hin'.chain_subset hh.owns hk' hchain' hx') rfl
  · obtain ⟨-, rfl⟩ := hroot.unique hh.listing
    rcases hq with rfl | ⟨chain₂, es2, hroot', e', hin', hk', rfl⟩
    · obtain ⟨rfl, -⟩ := hchain'.unique hh.listing
      exact fun x hx hx' => hnodup.2.2 x hx' x (hin.chain_subset hh.owns hk hchain hx) rfl
    · obtain ⟨-, rfl⟩ := hroot'.unique hh.listing
      exact Owns.chains_apart hin hin' hh.owns hnodup.2.1 hk hk' hne hchain hchain'

theorem Located.hasDirectory (hloc : Located s c.path dir chain0 es owned0 before chain slots inner after)
    (hlive : c.Live s) :
    s.HasDirectory dir.head := by
  rcases hlive with hroot | hlive
  · exact .inl (hloc.head_iff.1 hroot)
  · exact .inr ⟨chain0, es, hloc.at_dir.holds.listing, hlive dir chain0 es hloc.parent hloc.at_dir.holds.listing⟩

theorem isRoot_parent_parent {p : Path} (h : p.parent.isRoot = true) : p.parent.parent.isRoot = true := by
  refine (Path.isRoot_parent _).2 ?_
  rw [Path.components_parent, (Path.isRoot_parent _).1 h]
  rfl

theorem name_toDentry (c : DirectoryEntry) : c.toDentry.name.toStr = c.name := by cases c <;> rfl

theorem retarget_map (hnamed : (DirectoryEntry.symLink name old).name = n) (hfirst : ∀ x ∈ l₁, x.name ≠ n) :
    retarget n target ((l₁ ++ .symLink name old :: l₂).map toDentry) =
      (l₁ ++ .symLink name target :: l₂).map toDentry := by
  rw [map_append, map_cons, retarget_split, map_append, map_cons]
  · rfl
  · intro x hx
    obtain ⟨y, hy, rfl⟩ := mem_map.1 hx
    rw [name_toDentry]
    exact hfirst y hy
  · rw [name_toDentry]
    exact hnamed

theorem retarget_stored_iff {d : Disk} {ptr : LinkPointer} {entries : List DirEntry} (hes : HasEntries d ptr entries)
    (hchain : DirChain d ptr chain (dir.children.map slotOf)) (hget : dir.getChild n = some (.symLink name old)) :
    retarget n target entries = entries ↔ old = target := by
  have hfind : (entries.find? fun e => e.name.toStr == n).map DirEntry.slot =
    some (DirectoryEntry.symLink name old).slot := by
    have hslot := getChild_slot dir n
    rw [hget, lookup, ← hes.map_slot hchain, find?_map] at hslot
    exact hslot.symm
  obtain ⟨e, he, hslot⟩ := Option.map_eq_some_iff.1 hfind
  have hlink : e.link = old := congrArg Slot.link hslot
  rw [retarget_eq_self_iff, he]
  constructor
  · intro h
    rw [← hlink, h e rfl]
  · rintro rfl e' h
    cases h
    exact hlink

theorem LemonFS.Child.listed_retarget (hc : Child s work inner symlink l₁ (.symLink name old) l₂ i₁ own i₂) :
    listed ((l₁ ++ .symLink name target :: l₂).map toDentry) =
      retarget symlink.name target (listed (work.children.map toDentry)) := by
  have hfirst : ∀ x ∈ listed (l₁.map toDentry), x.name.toStr ≠ symlink.name := by
    intro x hx
    obtain ⟨y, hy, rfl⟩ := mem_map.1 (mem_listed.1 hx).1
    rw [name_toDentry]
    exact hc.first y hy
  have hname : (toDentry (.symLink name old)).name.isEmpty = false := by
    have hvisible := DirectoryEntry.visible_of_name hc.named
    exact hvisible
  have hkeep : ∀ ptr, listed ((l₁ ++ .symLink name ptr :: l₂).map toDentry) =
      listed (l₁.map toDentry) ++ toDentry (.symLink name ptr) :: listed (l₂.map toDentry) := by
    intro ptr
    rw [map_append, map_cons, listed, filter_append, filter_cons_of_pos (by rw [Bool.not_eq_true']; exact hname)]
    rfl
  rw [hc.children, hkeep, hkeep, retarget_split hfirst (by rw [name_toDentry]; exact hc.named)]
  rfl

theorem LemonFS.Routed.same (hr : Routed s work chain inner symlink dest l₁ name old target l₂ i₁ own i₂ chain' s')
    (h : Ready s work chain slots inner) {x : ℕ} (hx : x ∉ chain) : s'.disk.sectors x = s.disk.sectors x := by
  have hlength : (l₁ ++ DirectoryEntry.symLink name target :: l₂).length = work.children.length := by
    rw [hr.child.children, length_append, length_append, length_cons, length_cons]
  have hstay := h.no_growth hlength.le
  refine hr.synced.rest x fun hmem => hx ?_
  have hcut := hr.synced.chain_eq (by
    rw [Directory.blocksNeeded]
    exact Nat.le_of_not_lt hstay)
  rw [hcut] at hmem
  exact mem_of_mem_take hmem

theorem slots_of_getParent (hi : s.Inv) (hlive : c.Live s) (hroot : c.path.parent.isRoot = false)
    (hpar : s.getParent c.path = .ok dir) (hlisting : DirChain s.disk dir.head chain slots) :
    dir.children.map slotOf = slots := by
  obtain ⟨chain0, es, owned0, hh, -⟩ := hi.tree
  have hl := hlive.resolve_left (by rw [hroot]; exact Bool.false_ne_true) dir chain0 es hpar hh.listing
  obtain ⟨n, ptr, hopen⟩ := getParent_sub hroot hpar
  rw [(openAt_ok hopen).1] at hl
  cases hh.opened hopen hl with
  | root =>
    have hhead := (openAt_ok hopen).1
    exact absurd hhead.symm (hh.live_ne_root hl)
  | sub _ hchain hslots _ =>
    obtain ⟨-, rfl⟩ := hlisting.unique hchain
    exact hslots

theorem Located.nested (hloc : Located s symlink dir chain0 es owned0 before chain slots inner after)
    (hwork : s.getParent symlink.parent = .ok work) (hne : work.head ≠ dir.head) : symlink.parent.isRoot = false := by
  cases hp : symlink.parent.isRoot with
  | false => rfl
  | true =>
    refine absurd ?_ hne
    rw [rootDir_of_getParent hwork (isRoot_parent_parent hp), hloc.head_iff.1 hp]
    rfl

theorem LemonFS.Routed.frame {entries : List DirEntry}
    (hr : Routed s work chain inner symlink dest l₁ name old target l₂ i₁ own i₂ chain' s') (hi : s.Inv)
    (hready : Ready s work chain slots inner) (hin : s.HasDirectory work.head) (hq : s.HasDirectory q)
    (hne : q ≠ work.head) (hes : HasEntries s.disk q entries) : HasEntries s'.disk q entries := by
  obtain ⟨chain₂, slots₂, hchain, -⟩ := id hes
  exact hchain.hasEntries_frame hr.synced.shape.sectorCount
    (fun x hx => hr.same hready (hi.apart hq hin hne hchain hready.listing x hx)) hes

theorem LemonFS.Routed.hasEntries (hr : Routed s work chain inner symlink dest l₁ name old target l₂ i₁ own i₂ chain' s')
    (hready : Ready s work chain slots inner) :
    HasEntries s'.disk work.head (retarget symlink.name target (listed (work.children.map toDentry))) := by
  refine ⟨chain', _, hr.synced.listing, ?_⟩
  rw [hr.synced.listed_dirEntries (hr.child.fits_replace hready (routeTarget_fits hready.rootFits hr.routed))]
  exact hr.child.listed_retarget

/-- `route_symlink` does what it is asked to if and only if the entry that it finds in the parent of the parent is a
symlink, the other children there are stored as they are on disk, and either that directory is the one of the symlink,
as it is for a symlink in the root, or both symlinks already have the target. -/
theorem route_symlink_iff (s : LemonFS) (symlink dest : Path) (dir : Directory) (name : Filename)
    (old target : LinkPointer) (hi : s.Inv) (hlive : (Call.delete symlink).Live s)
    (hwork : (Call.routeSymlink symlink dest).Live s) (hroot : symlink.isRoot = false)
    (hpar : s.getParent symlink = .ok dir) (hget : dir.getChild symlink.name = some (.symLink name old))
    (htarget : s.routeTarget dest = .ok target) :
    (∃ s', routeSymlink symlink dest s = (.ok (), s') ∧ Rerouted s dir.head symlink.name target s') ↔
      ∃ work name' old', s.getParent symlink.parent = .ok work ∧
        work.getChild symlink.name = some (.symLink name' old') ∧
        (∀ es, HasEntries s.disk work.head es →
          retarget symlink.name target (listed (work.children.map DirectoryEntry.toDentry)) =
            if work.head = dir.head then retarget symlink.name target es else es) ∧
        (work.head = dir.head ∨ old = target) := by
  obtain ⟨_, _, _, _, chain, slots, _, _, hloc⟩ := hi.located hlive hpar
  have hdir := hloc.hasDirectory hlive
  have hlisting := hloc.at_dir.focus.listing
  have hentries : ∀ {work es}, s.getParent symlink.parent = .ok work → work.head ≠ dir.head → HasEntries s.disk dir.head es →
      (retarget symlink.name target es = es ↔ old = target) := by
    intro work es hwpar hne hes
    have hchildren := slots_of_getParent hi hlive (hloc.nested hwpar hne) hpar hlisting
    exact retarget_stored_iff hes (hchildren ▸ hlisting) hget
  constructor
  · rintro ⟨s', hrun, hre⟩
    cases hwpar : s.getParent symlink.parent with
    | error e =>
      have herror := @wp_run_error s (.routeSymlink symlink dest) e hwpar
      exact (wp_ok herror hrun).elim
    | ok work =>
    obtain ⟨_, _, _, _, chain₁, slots₁, _, _, hlocw⟩ := hi.located hwork hwpar
    have hready := hlocw.at_dir.ready
    have hin := hlocw.hasDirectory hwork
    obtain ⟨l₁, name', old', target', l₂, i₁, own, i₂, chain', hr⟩ := wp_ok (routeSymlink_spec hready hwpar) hrun
    cases htarget.symm.trans hr.routed
    have hstores := hr.hasEntries hready
    refine ⟨work, name', old', rfl, hr.child.getChild, fun es hes => ?_, ?_⟩
    · split_ifs with heq
      · exact hstores.unique (heq ▸ hre.entry es (heq ▸ hes))
      · exact hstores.unique (hre.others work.head es hin heq hes)
    · by_cases heq : work.head = dir.head
      · exact .inl heq
      · have hkept := hr.frame hi hready hin hdir (Ne.symm heq) hlisting.hasEntries
        exact .inr ((hentries hwpar heq hlisting.hasEntries).1 ((hre.entry _ hlisting.hasEntries).unique hkept))
  · rintro ⟨work, name', old', hwpar, hwget, hwentries, hsplit⟩
    obtain ⟨_, _, _, _, chain₁, slots₁, _, _, hlocw⟩ := hi.located hwork hwpar
    have hready := hlocw.at_dir.ready
    have hin := hlocw.hasDirectory hwork
    have hspec := @routeSymlink_spec _ _ _ _ _ symlink dest hready hwpar
    rcases hrun : routeSymlink symlink dest s with ⟨e | _, s'⟩
    · rcases (wp_error hspec hrun).2 with h | h | h
      · rw [hroot] at h
        cases h
      · exact absurd hwget (h _ _)
      · exact absurd htarget (h _)
    obtain ⟨l₁, name₁, old₁, target', l₂, i₁, own, i₂, chain', hr⟩ := wp_ok hspec hrun
    cases htarget.symm.trans hr.routed
    have hstores := hr.hasEntries hready
    refine ⟨s', rfl, fun es hes => ?_, fun q es hq hne hes => ?_, ?_⟩
    · by_cases heq : work.head = dir.head
      · rw [hwentries es (heq ▸ hes), if_pos heq] at hstores
        exact heq ▸ hstores
      · rw [(hentries hwpar heq hes).2 (hsplit.resolve_left heq)]
        exact hr.frame hi hready hin hdir (Ne.symm heq) hes
    · by_cases heq : q = work.head
      · subst heq
        rw [hwentries es hes, if_neg hne] at hstores
        exact hstores
      · exact hr.frame hi hready hin hq heq hes
    · rw [hr.root]
      by_cases hp : symlink.parent.isRoot = true
      · have hcached : s.root = l₁ ++ .symLink name₁ old₁ :: l₂ := by
          rw [← hr.child.children, rootDir_of_getParent hwpar (isRoot_parent_parent hp)]
          rfl
        rw [if_pos hp, if_pos (hloc.head_iff.1 hp), hcached]
        exact (retarget_map hr.child.named hr.child.first).symm
      · rw [if_neg hp, if_neg fun h => hp (hloc.head_iff.2 h)]

end Route

/-- The symlink `s` of the root is routed to the directory `d` beside it. -/
theorem route_symlink_in_root :
    ∃ s s', routeSymlink ⟨[0x2F, 0x73]⟩ ⟨[0x2F, 0x64]⟩ s = (.ok (), s') ∧ Rerouted s s.rootPtr [0x73] ⟨3, 512⟩ s' := by
  obtain ⟨-, s, -, -, h⟩ := exists_linkAndDir
  have hpar : s.getParent ⟨[0x2F, 0x73]⟩ = .ok s.rootDir := getParent_root rfl
  have hget : s.rootDir.getChild (Path.name ⟨[0x2F, 0x73]⟩) = some (.symLink (Filename.fromStr [0x73]) ⟨0, 0⟩) :=
    getChild_rootDir h.root rfl
  have htarget : s.routeTarget ⟨[0x2F, 0x64]⟩ = .ok ⟨3, 512⟩ := by
    have hchild : s.rootDir.getChild (Path.name ⟨[0x2F, 0x64]⟩) =
        some (.directory (Filename.fromStr [0x64]) ⟨3, 512⟩) := getChild_rootDir h.root rfl
    have hdest : s.getParent ⟨[0x2F, 0x64]⟩ = .ok s.rootDir := getParent_root rfl
    rw [routeTarget, hdest, ok_bind, hchild]
  have hstored : HasEntries s.disk s.rootPtr (listed (s.root.map toDentry)) := by
    refine ⟨[4099], _, h.listing, ?_⟩
    exact stored_root h.stored (by rw [h.root]; decide) h.small.inv.fits
  have hcached : ∀ es, HasEntries s.disk s.rootDir.head es →
      retarget [0x73] ⟨3, 512⟩ (listed (s.rootDir.children.map toDentry)) =
        if s.rootDir.head = s.rootDir.head then retarget [0x73] ⟨3, 512⟩ es else es := by
    intro es hes
    rw [if_pos rfl, hes.unique hstored]
    rfl
  obtain ⟨s', hrun, hre⟩ := (route_symlink_iff s ⟨[0x2F, 0x73]⟩ ⟨[0x2F, 0x64]⟩ s.rootDir _ _ _ h.small.inv
    (.inl (by decide)) (.inl (by decide)) (by decide) hpar hget htarget).2
      ⟨s.rootDir, _, _, getParent_root (by decide), hget, hcached, .inl rfl⟩
  exact ⟨s, s', hrun, hre⟩

def linkDir : Directory := ⟨Filename.fromStr [0x64], 0, [.symLink (Filename.fromStr [0x6C]) ⟨0, 0⟩], ⟨3, 512⟩⟩

def nestedRoot : Directory := ⟨Filename.fromStr [], 0, [.directory (Filename.fromStr [0x64]) ⟨3, 512⟩], ⟨4099, 512⟩⟩

def nestedLink : LemonFS where
  disk := disk4101 fun x => if x = 4099 then (nestedRoot.blockAt [4099] 0).encode
    else if x = 3 then (linkDir.blockAt [3] 0).encode else Sector.zero
  bitmap := ⟨[.full, .full], 3⟩
  superblock := { SuperBlock.decode Sector.zero with bitmapStart := 1, dataStart := 3, dataEnd := 4099 }
  root := nestedRoot.children

/-- The symlink `/d/l` is there, but it is looked for in the root. -/
theorem nested_symlink_not_found :
    ∃ dir name old target s', nestedLink.getParent ⟨[0x2F, 0x64, 0x2F, 0x6C]⟩ = .ok dir ∧
      dir.getChild [0x6C] = some (.symLink name old) ∧ nestedLink.routeTarget ⟨[0x2F, 0x64]⟩ = .ok target ∧
      routeSymlink ⟨[0x2F, 0x64, 0x2F, 0x6C]⟩ ⟨[0x2F, 0x64]⟩ nestedLink = (.error (.fs .fileNotFound), s') := by
  have hfound : ((nestedLink.getParent ⟨[0x2F, 0x64, 0x2F, 0x6C]⟩).toOption.bind fun dir =>
      (dir.getChild [0x6C]).map fun c => c.slot.kind) = some .symlink := by decide +kernel
  have htarget : nestedLink.routeTarget ⟨[0x2F, 0x64]⟩ = .ok ⟨3, 512⟩ := by decide +kernel
  have hrun : routeSymlink ⟨[0x2F, 0x64, 0x2F, 0x6C]⟩ ⟨[0x2F, 0x64]⟩ nestedLink = (.error (.fs .fileNotFound), _) :=
    run_of_result (by decide +kernel)
  cases hpar : nestedLink.getParent ⟨[0x2F, 0x64, 0x2F, 0x6C]⟩ with
  | error e =>
    rw [hpar] at hfound
    cases hfound
  | ok dir =>
    rw [hpar] at hfound
    obtain ⟨c, hget, hkind⟩ := Option.map_eq_some_iff.1 hfound
    cases c with
    | file => cases hkind
    | directory => cases hkind
    | symLink name old => exact ⟨dir, name, old, _, _, rfl, hget, htarget, hrun⟩

end MaramOS
