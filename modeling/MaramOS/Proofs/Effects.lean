import MaramOS.Proofs.Calls

/-! The whole tree after a change of one directory. Every listing in the new tree
is one of the old tree, the new listing of the changed directory, or the empty
listing of a new directory; so what holds of every listing is kept as soon as it
holds of the changed one. -/

namespace MaramOS

open List

open DirectoryEntry (new visible_of_name)
open DirectoryEntry renaming slot → slotOf

theorem DirectoryEntry.slot_name (c : DirectoryEntry) : c.slot.name.toStr = c.name := by
  cases c <;> rfl

variable {e e' : Slot} {es es' : List Slot}

theorem Slot.Alike.symm (h : e.Alike e') : e'.Alike e :=
  ⟨h.1.symm, h.2.1.symm, fun hk => (h.2.2 (by rwa [h.2.1])).symm⟩

theorem Agree.symm (h : Agree es es') : Agree es' es := by
  induction h with
  | nil => exact .nil
  | cons he _ ih => exact .cons he.symm ih

theorem Slot.Alike.eq (h : e.Alike e') (hk : e.kind ≠ .symlink) : e = e' := by
  obtain ⟨hname, hkind, hlink⟩ := h
  have hlink := hlink hk
  cases e
  cases e'
  simp only at hname hkind hlink
  rw [hname, hkind, hlink]

theorem Agree.mem (h : Agree es es') (he : e ∈ es') (hk : e.kind ≠ .symlink) :
    e ∈ es := by
  induction h with
  | nil => cases he
  | @cons a b l l' hab _ ih =>
    rcases mem_cons.1 he with rfl | he
    · rw [hab.eq (by rwa [hab.2.1])]
      exact mem_cons_self
    · exact mem_cons_of_mem _ (ih he)

/-- The listing `sub` is `es` itself or that of a directory below. -/
inductive Below (d : Disk) : List Slot → List Slot → Prop
  | here {es : List Slot} : Below d es es
  | inside {es sub sub' : List Slot} {e : Slot} {chain : List ℕ} : e ∈ es → e.kind = .directory →
      DirChain d e.link chain sub → Below d sub sub' → Below d es sub'

section Below

variable {d d' : Disk} {es sub : List Slot} {owned : List ℕ} {e : Slot} {ptr ptr' : LinkPointer} {comps : List Str}

theorem SlotIn.mem_listing (h : SlotIn d es e) : ∃ sub, Below d es sub ∧ e ∈ sub := by
  induction h with
  | here he => exact ⟨_, .here, he⟩
  | inside hmem hk hchain _ ih =>
    obtain ⟨sub', hbelow, he⟩ := ih
    exact ⟨sub', .inside hmem hk hchain hbelow, he⟩

theorem Below.slotIn (h : Below d es sub) (he : e ∈ sub) : SlotIn d es e := by
  induction h with
  | here => exact .here he
  | inside hmem hk hchain _ ih => exact .inside hmem hk hchain (ih he)

theorem Below.trans {sub' : List Slot} (h : Below d es sub) (h' : Below d sub sub') : Below d es sub' := by
  induction h with
  | here => exact h'
  | inside hmem hk hchain _ ih => exact .inside hmem hk hchain (ih h')

theorem Below.of_frame (h : Below d' es sub) (howns : Owns d es owned) (hn : d'.sectorCount = d.sectorCount)
    (hs : ∀ x ∈ owned, d'.sectors x = d.sectors x) : Below d es sub := by
  induction h generalizing owned with
  | here => exact .here
  | @inside es sub sub' e chain hmem hk hchain _ ih =>
    obtain ⟨own, hown, hsub⟩ := howns.of_mem hmem
    obtain ⟨chain1, sub1, inner, rfl, -, hchain1, hinner⟩ := hown.directory_inv hk
    have hsame : ∀ x ∈ chain1 ++ inner, d'.sectors x = d.sectors x := fun x hx => hs x (hsub.subset hx)
    obtain ⟨-, rfl⟩ := hchain.unique (hchain1.frame hn fun x hx => hsame x (mem_append_left _ hx))
    exact .inside hmem hk hchain1 (ih hinner fun x hx => hsame x (mem_append_right _ hx))

theorem Leads.to_below (h : Leads d ptr es comps ptr' sub) :
    Below d es sub := by
  induction h with
  | here => exact .here
  | step hl hk hchain _ ih => exact .inside (lookup_some hl).1 hk hchain ih

theorem Leads.listing {chain : List ℕ} (h : Leads d ptr es comps ptr' sub) (hchain : DirChain d ptr chain es) :
    ∃ chain', DirChain d ptr' chain' sub := by
  induction h generalizing chain with
  | here => exact ⟨chain, hchain⟩
  | step _ _ hchain1 _ ih => exact ih hchain1

end Below

/-- A directory among the new slots is an old one with all its sectors, or an empty one. -/
def Kept (d d' : Disk) (slots slots' : List Slot) : Prop :=
  ∀ e ∈ slots', e.kind = .directory →
    (e ∈ slots ∧ ∀ own, Owns d [e] own → ∀ x ∈ own, d'.sectors x = d.sectors x) ∨
    ∃ chain, DirChain d' e.link chain []

section Change

variable {d d' : Disk} {ptr ptr' : LinkPointer} {es slots slots' sub : List Slot} {comps : List Str}
  {owned chain inner chain' : List ℕ}

section

variable (h : Leads d ptr es comps ptr' slots) (howns : Owns d es owned) (hnodup : owned.Nodup)
  (hc : Leads.Change d d' ptr' chain slots inner chain' slots' owned)
include h howns hnodup hc

theorem Leads.below_change (hb : Below d' (if comps = [] then slots' else es) sub) :
    Below d es sub ∨ Below d' slots' sub := by
  induction h generalizing owned with
  | here =>
    rw [if_pos rfl] at hb
    exact Or.inr hb
  | @step ptr ptr' es sub0 slots c0 cs0 e0 chain0 hl0 hk0 hchain0 hrest0 ih =>
    rw [if_neg (by simp)] at hb
    have hmem0 := (lookup_some hl0).1
    obtain ⟨inner0, -, hsub0, hown0, hn0, hpart0⟩ := howns.subdirectory hnodup hmem0 hk0 hchain0
    have hc0 := hc.mono hpart0
    cases hb with
    | here => exact Or.inl .here
    | @inside _ sub1 _ e1 chain1 hmem1 hk1 hchain1 hb1 =>
      by_cases heq : e1 = e0
      · subst heq
        obtain ⟨chain2, hchain2⟩ := listing_on_way hrest0 hchain0 hsub0 hn0 hc0
        obtain ⟨-, rfl⟩ := hchain1.unique hchain2
        rcases ih hsub0 (nodup_append.1 hn0).2.1 (hc0.mono (subset_append_right _ _)) hb1 with hb | hb
        · exact Or.inl (.inside hmem1 hk1 hchain0 hb)
        · exact Or.inr hb
      · -- a sibling of the directory on the way is untouched
        obtain ⟨own1, hown1, hsub1⟩ := howns.of_mem hmem1
        have hsame : ∀ x ∈ own1, d'.sectors x = d.sectors x := by
          intro x hx
          refine hc.outside x (hsub1.subset hx) fun hin => ?_
          refine howns.disjoint hnodup hmem1 hmem0 heq hown1 hown0 hx ?_
          exact hrest0.part_subset hchain0 hsub0 (nodup_append.1 hn0).2.1 hc.before hc.owns hin
        obtain ⟨chain2, sub2, inner2, rfl, -, hchain2, hinner2⟩ := hown1.directory_inv hk1
        obtain ⟨-, rfl⟩ := hchain1.unique
          (hchain2.frame hc.sectorCount fun x hx => hsame x (mem_append_left _ hx))
        refine Or.inl (.inside hmem1 hk1 hchain2 (hb1.of_frame hinner2 hc.sectorCount fun x hx => ?_))
        exact hsame x (mem_append_right _ hx)

/-- What holds of every listing of the old tree, of the changed listing and of an empty one
holds of every listing of the new tree. -/
theorem Leads.everywhere (hkept : Kept d d' slots slots') {P : List Slot → Prop} (hP : ∀ sub, Below d es sub → P sub)
    (hnew : P slots') (hnil : P []) :
    ∀ sub, Below d' (if comps = [] then slots' else es) sub → P sub := by
  intro sub hb
  rcases h.below_change howns hnodup hc hb with hb | hb
  · exact hP sub hb
  · cases hb with
    | here => exact hnew
    | @inside _ sub1 _ e chain1 hmem hk hchain hb =>
      rcases hkept e hmem hk with ⟨hold, hsame⟩ | ⟨chain2, hchain2⟩
      · obtain ⟨own, hown, -⟩ := hc.owns.of_mem hold
        have hframe := hsame own hown
        obtain ⟨chain2, sub2, inner2, rfl, -, hchain2, hinner2⟩ := hown.directory_inv hk
        obtain ⟨-, rfl⟩ := hchain.unique
          (hchain2.frame hc.sectorCount fun x hx => hframe x (mem_append_left _ hx))
        have hin : Below d slots sub := .inside hold hk hchain2
          (hb.of_frame hinner2 hc.sectorCount fun x hx => hframe x (mem_append_right _ hx))
        exact hP sub (h.to_below.trans hin)
      · obtain ⟨-, rfl⟩ := hchain.unique hchain2
        cases hb with
        | here => exact hnil
        | inside hmem' => cases hmem'

end

end Change

namespace LemonFS

open Volume

variable {s s' : LemonFS} {path : Path} {dir : Directory} {chain0 owned0 before chain inner after : List ℕ}
  {es slots : List Slot} {v1 : Volume} {chain' inner' : List ℕ} {children' : List DirectoryEntry} {t : List ℕ}
  (h : At s dir chain0 es owned0 before chain slots inner after)

section

include h

theorem At.slots_owns : Owns s.disk slots inner :=
  h.focus.owns.agree h.focus.shown.symm

theorem Update.change (hu : Update s dir chain inner v1 children' chain' inner' s') :
    Leads.Change s.disk s'.disk dir.head chain slots inner chain' (visible (children'.map slotOf))
      owned0 where
  sectorCount := hu.touches_all.shape.sectorCount
  before := h.focus.listing
  owns := h.slots_owns
  after := hu.synced.listing
  outside x hx hout := hu.touches_all.disk x hout (h.holds.used x (mem_append_right _ hx))

theorem At.same (ht : s.toVolume.Touches t v1)
    (hs : Synced { dir with children := children' } chain chain' v1 s'.toVolume) {x : ℕ} (hx : x ∈ inner)
    (hxt : x ∉ t) : s'.disk.sectors x = s.disk.sectors x := by
  have hused := h.used (mem_append_right _ hx)
  have hout : x ∉ chain' := by
    intro hmem
    rcases hs.members x hmem with hc | hfree
    · exact h.chain_not_inner hc hx
    · exact hused (ht.free x hxt hfree)
  rw [hs.rest x hout, ht.disk x hxt hused]

theorem At.lookup_iff {c : Str} (hk : e.kind ≠ .symlink) :
    lookup slots c = some e ↔ lookup (visible (dir.children.map slotOf)) c = some e := by
  have hrel := h.focus.shown.lookup c
  constructor
  · intro hl
    rw [hl] at hrel
    cases hl' : lookup (visible (dir.children.map slotOf)) c with
    | none =>
      rw [hl'] at hrel
      cases hrel
    | some e' =>
      rw [hl'] at hrel
      cases hrel with
      | some halike => rw [halike.eq hk]
  · intro hl
    rw [hl] at hrel
    cases hl' : lookup slots c with
    | none =>
      rw [hl'] at hrel
      cases hrel
    | some e' =>
      rw [hl'] at hrel
      cases hrel with
      | some halike => rw [halike.symm.eq hk]

theorem Update.kept (hu : Update s dir chain inner v1 children' chain' inner' s') (ht : s.toVolume.Touches t v1)
    (hold : ∀ e ∈ visible (children'.map slotOf), e.kind = .directory →
      (e ∈ visible (dir.children.map slotOf) ∧ ∀ own, Owns s.disk [e] own → ∀ x ∈ own, x ∈ inner ∧ x ∉ t) ∨
      ∃ chain, DirChain s'.disk e.link chain []) :
    Kept s.disk s'.disk slots (visible (children'.map slotOf)) := by
  intro e he hk
  refine (hold e he hk).imp (fun ⟨hmem, hout⟩ => ⟨h.focus.shown.mem hmem (by rw [hk]; decide), ?_⟩) id
  intro own hown x hx
  obtain ⟨hin, hxt⟩ := hout own hown x hx
  exact h.same ht hu.synced hin hxt

end

section Create

variable {kind : FileType} {start : ℕ}

theorem Created.touches (hc : Created s dir chain path kind start v1 chain' s') : s.toVolume.Touches [] v1 := by
  rcases hc.taken with ⟨-, -, rfl⟩ | ⟨-, ht⟩
  · exact Touches.refl _ _
  · exact ht.touches

section

variable (hc : Created s dir chain path kind start v1 chain' s')
include h hc

theorem Created.start_same (ht : Takes [start] s.toVolume v1) :
    s'.disk.sectors start = s.disk.sectors start := by
  have hfree := ht.wasFree start (by simp)
  have hout : start ∉ chain' := by
    intro hmem
    rcases hc.synced.members start hmem with hin | hfree'
    · exact h.used (mem_append_left _ hin) hfree
    · exact ((ht.free start).1 hfree').2 (by simp)
  rw [hc.synced.rest start hout, ht.disk]

theorem Created.kept
    (hu : Update s dir chain inner v1 (dir.children ++ [new (Filename.fromStr path.name) start kind])
      chain' inner' s') (hblank : kind = .directory → DirChain s.disk ⟨start, 512⟩ [start] []) :
    Kept s.disk s'.disk slots (visible
      ((dir.children ++ [new (Filename.fromStr path.name) start kind]).map slotOf)) := by
  refine hu.kept h hc.touches fun e he hk => ?_
  rw [map_append, visible_append, mem_append] at he
  rcases he with he | he
  · refine Or.inl ⟨he, fun own hown x hx => ⟨?_, not_mem_nil⟩⟩
    obtain ⟨own', hown', hsub⟩ := h.focus.owns.of_mem he
    obtain rfl := hown.unique hown'
    exact hsub.subset hx
  · obtain rfl : e = (new (Filename.fromStr path.name) start kind).slot := by
      simpa using mem_of_mem_filter he
    obtain rfl : kind = .directory := by
      cases kind with
      | directory => rfl
      | file => cases hk
      | symlink => cases hk
    rcases hc.taken with ⟨hsym, -, -⟩ | ⟨-, ht⟩
    · cases hsym
    · refine Or.inr ⟨[start], (hblank rfl).frame hu.touches_all.shape.sectorCount fun x hx => ?_⟩
      obtain rfl := mem_singleton.1 hx
      exact hc.start_same h ht

theorem Created.others {c : Str} {own : List ℕ} (hk : e.kind ≠ .symlink) (hl : lookup slots c = some e)
    (hown : Owns s.disk [e] own) :
    lookup (visible ((dir.children ++ [new (Filename.fromStr path.name) start kind]).map
        slotOf)) c = some e ∧ ∀ x ∈ own, s'.disk.sectors x = s.disk.sectors x := by
  have hl' := (h.lookup_iff hk).1 hl
  refine ⟨?_, fun x hx => h.same hc.touches hc.synced ?_ not_mem_nil⟩
  · rw [map_append, visible_append, lookup, List.find?_append]
    rw [lookup] at hl'
    rw [hl']
    rfl
  · obtain ⟨own', hown', hsub⟩ := h.slots_owns.of_mem (lookup_some hl).1
    obtain rfl := hown.unique hown'
    exact hsub.subset hx

end

end Create

section Child

variable {l1 l2 : List DirectoryEntry} {c : DirectoryEntry} {i1 own i2 : List ℕ} {e : Slot} {own' ind lbas : List ℕ}
  {m : Str} {src : PhysPage} {f f' : File} {ext : List LinkPointer}

section

variable (hc : Child s dir inner path l1 c l2 i1 own i2)
include hc

theorem Child.visible_children :
    visible (dir.children.map slotOf) =
      visible (l1.map slotOf) ++ c.slot :: visible (l2.map slotOf) := by
  rw [hc.children, map_append, map_cons, visible_append,
    visible_cons (visible_of_name hc.named)]
  rfl

theorem Child.lookup_skip (hm : m ≠ path.name) :
    lookup (visible (dir.children.map slotOf)) m =
      lookup (visible (l1.map slotOf) ++ visible (l2.map slotOf)) m := by
  have hname : (c.slot.name.toStr == m) = false := by
    rw [beq_eq_false_iff_ne]
    rintro rfl
    rw [DirectoryEntry.slot_name] at hm
    exact hm hc.named
  rw [hc.visible_children, lookup, List.find?_append, List.find?_cons, hname, lookup, List.find?_append]

include h

theorem Child.apart (he : e ∈ visible (l1.map slotOf) ∨ e ∈ visible (l2.map slotOf))
    (hown : Owns s.disk [e] own') {x : ℕ} (hx : x ∈ own') : x ∈ inner ∧ x ∉ own := by
  have hmem : x ∈ i1 ++ i2 := by
    rcases he with he | he
    · obtain ⟨own1, hown1, hsub⟩ := hc.before.of_mem he
      obtain rfl := hown.unique hown1
      exact mem_append_left _ (hsub.subset hx)
    · obtain ⟨own2, hown2, hsub⟩ := hc.after.of_mem he
      obtain rfl := hown.unique hown2
      exact mem_append_right _ (hsub.subset hx)
  refine ⟨hc.mem_inner hmem, fun hin => ?_⟩
  have hnodup := (nodup_append.1 h.nodup).2.1
  rw [hc.split, nodup_append, nodup_append] at hnodup
  rcases mem_append.1 hmem with hmem | hmem
  · exact hnodup.2.2 x hmem x (mem_append_left _ hin) rfl
  · exact hnodup.2.1.2.2 x hin x hmem rfl

theorem Child.kept_of (hu : Update s dir chain inner v1 children' chain' inner' s') (ht : s.toVolume.Touches own v1)
    (hmem : ∀ e ∈ visible (children'.map slotOf), e.kind = .directory →
      e ∈ visible (l1.map slotOf) ∨ e ∈ visible (l2.map slotOf)) :
    Kept s.disk s'.disk slots (visible (children'.map slotOf)) := by
  refine hu.kept h ht fun e he hk => Or.inl ⟨?_, fun own' hown x hx => hc.apart h (hmem e he hk) hown hx⟩
  rw [hc.visible_children, mem_append, mem_cons]
  exact (hmem e he hk).imp id Or.inr

theorem Child.lookup_other (hm : m ≠ path.name) (hk : e.kind ≠ .symlink)
    (hl : lookup slots m = some e) :
    lookup (visible (l1.map slotOf) ++ visible (l2.map slotOf)) m = some e ∧
      (e ∈ visible (l1.map slotOf) ∨ e ∈ visible (l2.map slotOf)) := by
  have hskip := (h.lookup_iff hk).1 hl
  rw [hc.lookup_skip hm] at hskip
  exact ⟨hskip, mem_append.1 (lookup_some hskip).1⟩

end

theorem Written.lookup_skip (hw : Written s dir chain inner path src l1 f l2 i1 ind ext i2 f' lbas v1 chain' s')
    (hm : m ≠ path.name) :
    lookup (visible ((l1 ++ .file f' :: l2).map slotOf)) m =
      lookup (visible (l1.map slotOf) ++ visible (l2.map slotOf)) m := by
  have hname : (DirectoryEntry.file f').slot.name = f.name := by
    rw [hw.rewritten.file]
    rfl
  have hvis : (DirectoryEntry.file f').slot.name.isEmpty = false := by
    rw [hname]
    exact visible_of_name hw.child.named
  have hne : ((DirectoryEntry.file f').slot.name.toStr == m) = false := by
    rw [beq_eq_false_iff_ne, hname]
    rintro rfl
    exact hm hw.child.named
  rw [map_append, map_cons, visible_append, visible_cons hvis, singleton_append, lookup,
    List.find?_append, List.find?_cons, hne, lookup, List.find?_append]

/-- If the last entry has the name `m`, no entry before it has. -/
def LastDiffers (m : Str) (l : List DirectoryEntry) : Prop :=
  ∀ x ∈ l.dropLast, ∀ y, l.getLast? = some y → y.name = m → x.name ≠ m

theorem lookup_moveLast {l : List DirectoryEntry} {m : Str} (h : LastDiffers m l) :
    lookup (visible ((moveLast l).map slotOf)) m = lookup (visible (l.map slotOf)) m := by
  obtain rfl | ⟨init, x, rfl⟩ := eq_nil_or_concat l
  · rfl
  rw [concat_eq_append] at h ⊢
  have hmove : moveLast (init ++ [x]) = [x] ++ init := by simp [moveLast]
  rw [hmove, map_append, map_append, visible_append, visible_append, lookup, lookup, List.find?_append,
    List.find?_append]
  cases hx : (visible ([x].map slotOf)).find? (fun e => e.name.toStr == m) with
  | none => rw [Option.none_or, Option.or_none]
  | some e =>
    -- the last entry has the name, so none of the others has
    have he : e = x.slot := by simpa using mem_of_mem_filter (List.mem_of_find?_eq_some hx)
    have hname : x.name = m := by
      have hfound := List.find?_some hx
      rw [he] at hfound
      rw [← DirectoryEntry.slot_name]
      simpa using hfound
    have hnone : (visible (init.map slotOf)).find? (fun e => e.name.toStr == m) = none := by
      rw [List.find?_eq_none]
      intro e' he' heq
      obtain ⟨y, hy, rfl⟩ := mem_map.1 (mem_of_mem_filter he')
      refine h y (by simpa using hy) x (by simp) hname ?_
      rw [← DirectoryEntry.slot_name]
      simpa using heq
    rw [hnone, Option.none_or, Option.some_or]

theorem lookup_removed (hlast : LastDiffers m l2) :
    lookup (visible ((l1 ++ moveLast l2).map slotOf)) m =
      lookup (visible (l1.map slotOf) ++ visible (l2.map slotOf)) m := by
  have hmove := lookup_moveLast hlast
  rw [lookup, lookup] at hmove
  rw [map_append, visible_append, lookup, List.find?_append, hmove, lookup, List.find?_append]

include h

theorem Written.kept (hw : Written s dir chain inner path src l1 f l2 i1 ind ext i2 f' lbas v1 chain' s')
    (hu : Update s dir chain inner v1 (l1 ++ .file f' :: l2) chain' inner' s') :
    Kept s.disk s'.disk slots (visible ((l1 ++ .file f' :: l2).map slotOf)) := by
  refine hw.child.kept_of h hu hw.rewritten.touches fun e he hk => ?_
  rw [map_append, map_cons, visible_append, mem_append, ← singleton_append, visible_append,
    mem_append] at he
  rcases he with he | he | he
  · exact Or.inl he
  · obtain rfl : e = (DirectoryEntry.file f').slot := by simpa using mem_of_mem_filter he
    cases hk
  · exact Or.inr he

theorem Routed.kept {symlink dest : Path} {name : Filename} {old target : LinkPointer}
    (hr : Routed s dir chain inner symlink dest l1 name old target l2 i1 own i2 chain' s')
    (hu : Update s dir chain inner s.toVolume (l1 ++ .symLink name target :: l2) chain' inner' s') :
    Kept s.disk s'.disk slots (visible ((l1 ++ .symLink name target :: l2).map slotOf)) := by
  refine hr.child.kept_of h hu (Touches.refl _ _) fun e he hk => ?_
  rw [map_append, map_cons, visible_append, mem_append, ← singleton_append, visible_append,
    mem_append] at he
  rcases he with he | he | he
  · exact Or.inl he
  · obtain rfl : e = (DirectoryEntry.symLink name target).slot := by simpa using mem_of_mem_filter he
    cases hk
  · exact Or.inr he

theorem Deleted.kept (hd : Deleted s dir chain inner path l1 c l2 i1 own i2 v1 chain' s')
    (hu : Update s dir chain inner v1 (l1 ++ moveLast l2) chain' inner' s') :
    Kept s.disk s'.disk slots (visible ((l1 ++ moveLast l2).map slotOf)) := by
  refine hd.child.kept_of h hu (hd.wipes.touches (List.Subset.refl own)) fun e he _ => ?_
  rw [map_append, visible_append, mem_append] at he
  refine he.imp id fun he => ?_
  rw [visible, mem_filter, mem_map] at he ⊢
  simpa only [mem_moveLast] using he

theorem Written.others (hw : Written s dir chain inner path src l1 f l2 i1 ind ext i2 f' lbas v1 chain' s')
    (hu : Update s dir chain inner v1 (l1 ++ .file f' :: l2) chain' inner' s') (hm : m ≠ path.name)
    (hk : e.kind ≠ .symlink) (hl : lookup slots m = some e) (hown : Owns s.disk [e] own) :
    lookup (visible ((l1 ++ .file f' :: l2).map slotOf)) m = some e ∧
      ∀ x ∈ own, s'.disk.sectors x = s.disk.sectors x := by
  obtain ⟨hl', hmem⟩ := hw.child.lookup_other h hm hk hl
  refine ⟨(hw.lookup_skip hm).trans hl', fun x hx => ?_⟩
  obtain ⟨hin, hout⟩ := hw.child.apart h hmem hown hx
  exact h.same hw.rewritten.touches hu.synced hin hout

theorem Deleted.others (hd : Deleted s dir chain inner path l1 c l2 i1 own i2 v1 chain' s')
    (hu : Update s dir chain inner v1 (l1 ++ moveLast l2) chain' inner' s') (hlast : LastDiffers m l2)
    (hm : m ≠ path.name) (hk : e.kind ≠ .symlink) (hl : lookup slots m = some e) (hown : Owns s.disk [e] own') :
    lookup (visible ((l1 ++ moveLast l2).map slotOf)) m = some e ∧
      ∀ x ∈ own', s'.disk.sectors x = s.disk.sectors x := by
  obtain ⟨hl', hmem⟩ := hd.child.lookup_other h hm hk hl
  refine ⟨(lookup_removed hlast).trans hl', fun x hx => ?_⟩
  obtain ⟨hin, hout⟩ := hd.child.apart h hmem hown hx
  exact h.same (hd.wipes.touches (List.Subset.refl own)) hu.synced hin hout

end Child

end LemonFS

section Listings

open LemonFS Volume

variable {s s' : LemonFS} {dir : Directory} {chain0 owned0 before chain inner after : List ℕ}
  {es slots : List Slot} {v1 : Volume} {chain' inner' : List ℕ} {children' : List DirectoryEntry} {c : Call}
  {P : List Slot → Prop} {r : Except Fault Unit}

theorem Located.leads (hloc : Located s c.path dir chain0 es owned0 before chain slots inner after)
    (hplain : c.Plain s) : Leads s.disk s.rootPtr es c.path.parent.components dir.head slots := by
  have hlisting := hloc.at_dir.holds.listing
  obtain ⟨es', hleads⟩ := hplain dir chain0 es hloc.parent hlisting
  obtain ⟨chain'', hchain⟩ := hleads.listing hlisting
  obtain ⟨-, rfl⟩ := hchain.unique hloc.at_dir.focus.listing
  exact hleads

theorem plain_of_root (h : c.path.parent.isRoot = true) : c.Plain s := by
  intro dir chain es hpar _
  rw [rootDir_of_getParent hpar h, Path.components_parent, (Path.isRoot_parent _).1 h]
  exact ⟨es, .here⟩

theorem Located.new_tree {path : Path} (hloc : Located s path dir chain0 es owned0 before chain slots inner after)
    (hu : Update s dir chain inner v1 children' chain' inner' s') :
    ∃ chain1 owned1, s'.Holds chain1 (if path.parent.components = [] then
        visible (children'.map slotOf) else es) owned1 ∧
      Agree (if path.parent.components = [] then visible (children'.map slotOf) else es)
        (visible (s'.root.map slotOf)) := by
  obtain ⟨-, chain1, es1, owned1, hh, -, heq⟩ := hu.holds hloc.at_dir
  obtain ⟨chain2, es2, owned2, hh2, hagree, -⟩ := (hu.inv hloc.at_dir).tree
  obtain ⟨-, rfl⟩ := hh2.listing.unique hh.listing
  have hiff := hloc.head_iff
  rw [Path.isRoot_parent, ← Path.components_parent] at hiff
  have hes : es2 = if path.parent.components = [] then visible (children'.map slotOf) else es := by
    by_cases hroot : dir.head = s.rootPtr
    · rw [if_pos hroot] at heq
      rw [if_pos (hiff.2 hroot)]
      exact (Prod.mk.inj heq).2
    · rw [if_neg hroot] at heq
      rw [if_neg fun h => hroot (hiff.1 h)]
      exact (Prod.mk.inj heq).2
  rw [← hes]
  exact ⟨chain1, owned1, hh, hagree⟩

theorem Located.leads_after {c : Call} (hloc : Located s c.path dir chain0 es owned0 before chain slots inner after)
    (hplain : c.Plain s) (hu : Update s dir chain inner v1 children' chain' inner' s') :
    Leads s'.disk s'.rootPtr (if c.path.parent.components = [] then
        visible (children'.map slotOf) else es) c.path.parent.components dir.head
      (visible (children'.map slotOf)) := by
  have hat := hloc.at_dir
  have hptr : s'.rootPtr = s.rootPtr := by rw [rootPtr, rootPtr, hu.superblock]
  rw [hptr]
  exact ((hloc.leads hplain).change hat.holds.owns (nodup_append.1 hat.holds.nodup).2.1 (hu.change hat)).1

theorem Located.reopened {c : Call} (hloc : Located s c.path dir chain0 es owned0 before chain slots inner after)
    (hplain : c.Plain s) (hu : Update s dir chain inner v1 children' chain' inner' s') :
    ∃ dir', s'.getParent c.path = .ok dir' ∧ dir'.head = dir.head ∧
      Agree (visible (children'.map slotOf)) (visible (dir'.children.map slotOf)) ∧
      (c.path.parent.isRoot = false → ∀ x ∈ dir'.children, Parsed s'.disk x) := by
  obtain ⟨chain1, owned1, hh, hagree⟩ := hloc.new_tree hu
  obtain ⟨dir', hwalk, hhead, hshow, hlast⟩ := (hloc.leads_after hplain hu).walk hh.owns
    (nodup_append.1 hh.nodup).2.1 (fun _ hc => Path.component_ne_nil hc) (show s'.rootDir.head = _ from rfl) hagree
  refine ⟨dir', hwalk, hhead, hshow, fun hroot => (hlast fun hnil => ?_).2⟩
  rw [Path.components_parent] at hnil
  rw [(Path.isRoot_parent _).2 hnil] at hroot
  cases hroot

def LemonFS.Listings (P : List Slot → Prop) (s : LemonFS) : Prop :=
  ∀ chain es sub, DirChain s.disk s.rootPtr chain es → Below s.disk es sub → P sub

theorem LemonFS.Listings.update (hP : Listings P s)
    (hloc : Located s c.path dir chain0 es owned0 before chain slots inner after) (hplain : c.Plain s)
    (hu : Update s dir chain inner v1 children' chain' inner' s')
    (hkept : Kept s.disk s'.disk slots (visible (children'.map slotOf)))
    (hnew : P (visible (children'.map slotOf))) (hnil : P []) : Listings P s' := by
  have hat := hloc.at_dir
  obtain ⟨chain1, owned1, hh, -⟩ := hloc.new_tree hu
  intro chain2 es2 sub hchain hbelow
  obtain ⟨-, rfl⟩ := hchain.unique hh.listing
  exact (hloc.leads hplain).everywhere hat.holds.owns (nodup_append.1 hat.holds.nodup).2.1 (hu.change hat) hkept
    (fun sub' => hP chain0 es sub' hat.holds.listing) hnew hnil sub hbelow

theorem LemonFS.Listings.of_touches_nil (hP : Listings P s) (hi : s.Inv) (ht : s.toVolume.Touches [] s'.toVolume)
    (hsb : s'.superblock = s.superblock) : Listings P s' := by
  obtain ⟨chain, es, owned, hh, -⟩ := hi.tree
  have hsame : ∀ x ∈ chain ++ owned, s'.disk.sectors x = s.disk.sectors x := fun x hx =>
    ht.disk x not_mem_nil (hh.used x hx)
  have hptr : s'.rootPtr = s.rootPtr := by rw [rootPtr, rootPtr, hsb]
  intro chain' es' sub hchain hbelow
  rw [hptr] at hchain
  obtain ⟨-, rfl⟩ := hchain.unique
    (hh.listing.frame ht.shape.sectorCount fun x hx => hsame x (mem_append_left _ hx))
  exact hP chain es' sub hh.listing
    (hbelow.of_frame hh.owns ht.shape.sectorCount fun x hx => hsame x (mem_append_right _ hx))

def NoSymlink (es : List Slot) : Prop := ∀ e ∈ es, e.kind ≠ .symlink

theorem Agree.noSymlink (h : Agree es es') (hes : NoSymlink es) : NoSymlink es' := by
  induction h with
  | nil => exact hes
  | @cons e e' _ _ hab _ ih =>
    intro x hx
    rcases mem_cons.1 hx with rfl | hx
    · rw [← hab.2.1]
      exact hes e (by simp)
    · exact ih (fun y hy => hes y (mem_cons_of_mem _ hy)) x hx

theorem plain_of_noSymlink (hi : s.Inv) (hfree : Listings NoSymlink s) : c.Plain s := by
  intro dir chain es hpar hlisting
  obtain ⟨chain', es', owned, hh, hagree, -⟩ := hi.tree
  obtain ⟨-, rfl⟩ := hlisting.unique hh.listing
  refine Leads.of_walk hh.owns (nodup_append.1 hh.nodup).2.1 (fun e hin => ?_)
    (fun _ hc => Path.component_ne_nil hc) rfl hagree hpar
  obtain ⟨sub, hbelow, he⟩ := hin.mem_listing
  exact hfree _ _ sub hlisting hbelow e he

/-- How a call changes the children of its directory. -/
inductive Rearranged : Call → List DirectoryEntry → List DirectoryEntry → Prop
  | appended {path : Path} {flags start : ℕ} {bits : DirEntryFlags} {l : List DirectoryEntry} :
      DirEntryFlags.fromBits (UInt8.ofNat flags) = some bits → (∀ x ∈ l, x.name ≠ path.name) →
      Rearranged (.create path flags) l
        (l ++ [new (Filename.fromStr path.name) start (FileType.fromDirflags bits)])
  | rewritten {path : Path} {src : PhysPage} {l1 l2 : List DirectoryEntry} {f f' : File} : f'.name = f.name →
      Rearranged (.write path src) (l1 ++ .file f :: l2) (l1 ++ .file f' :: l2)
  | removed {path : Path} {l1 l2 : List DirectoryEntry} {c : DirectoryEntry} :
      Rearranged (.delete path) (l1 ++ c :: l2) (l1 ++ moveLast l2)
  | retargeted {symlink dest : Path} {l1 l2 : List DirectoryEntry} {name : Filename} {old target : LinkPointer} :
      Rearranged (.routeSymlink symlink dest) (l1 ++ .symLink name old :: l2) (l1 ++ .symLink name target :: l2)

/-- What a call that returns does to the tree. -/
inductive Effect (s : LemonFS) (c : Call) : Except Fault Unit → LemonFS → Prop
  | untouched {r : Except Fault Unit} {s' : LemonFS} : s.toVolume.Touches [] s'.toVolume →
      s'.superblock = s.superblock → s'.root = s.root → Effect s c r s'
  | changed {dir : Directory} {chain0 owned0 before chain inner after chain' inner' : List ℕ} {es slots : List Slot}
      {v1 : Volume} {children' : List DirectoryEntry} {s' : LemonFS} :
      Located s c.path dir chain0 es owned0 before chain slots inner after →
      Update s dir chain inner v1 children' chain' inner' s' →
      Kept s.disk s'.disk slots (visible (children'.map slotOf)) →
      Rearranged c dir.children children' → Effect s c (.ok ()) s'

theorem effect_of_run {c : Call} {r : Except Fault Unit} (hi : s.Inv) (hlive : c.Live s) (hblank : c.Blank s)
    (hroom : r = .error (.fs .noSpace) → c.Roomy s) (hret : Call.Returns r) (hrun : c.run s = (r, s')) :
    Effect s c r s' := by
  cases outcome_of_run hi hlive hrun with
  | refused => exact .untouched (Touches.refl _ _) rfl rfl
  | panicked => exact hret.elim
  | leaked hleak =>
    obtain ⟨hsb, hroot, l, ht⟩ := hleak
    exact .untouched ht.touches hsb hroot
  | outOfSpace hloc hc hlink hpos hout hsb hroot =>
    exact .untouched (hout.touches_nil hi hloc hc hlink hpos (hroom rfl)) hsb hroot
  | @created path flags bits dir _ _ _ _ _ _ _ _ _ start _ _ hloc hbits hc =>
    obtain ⟨inner', hu⟩ := hloc.created hbits hc hblank
    refine .changed hloc hu (hc.kept hloc.at_dir hu fun hkind => ?_) (.appended hbits fun x hx heq => ?_)
    · rcases hc.taken with ⟨hsym, -, -⟩ | ⟨-, ht⟩
      · rw [hkind] at hsym
        cases hsym
      · exact hblank bits start hbits hkind (head_of_takes ht)
    · have habsent := hc.absent
      rw [Directory.getChild, List.find?_eq_none] at habsent
      exact habsent x hx (by simpa using heq)
  | written hloc hw =>
    have hu := hw.update hloc.at_dir hloc.head_iff
    refine .changed hloc hu (hw.kept hloc.at_dir hu) ?_
    rw [hw.child.children]
    refine .rewritten ?_
    rw [hw.rewritten.file]
  | deleted hloc hd =>
    obtain ⟨inner', hu⟩ := hd.update hloc.at_dir hloc.head_iff
    refine .changed hloc hu (hd.kept hloc.at_dir hu) ?_
    rw [hd.child.children]
    exact .removed
  | routed hloc hr =>
    have hu := hloc.routed hr
    refine .changed hloc hu (hr.kept hloc.at_dir hu) ?_
    rw [hr.child.children]
    exact .retargeted

theorem Effect.inv (h : Effect s c r s') (hi : s.Inv) : s'.Inv := by
  cases h with
  | untouched ht hsb hroot => exact hi.of_touches_nil ht hsb hroot
  | changed hloc hu _ _ => exact hu.inv hloc.at_dir

/-- A property of listings is kept by a call if it passes from the slots of the directory to
the slots that the call gives it. -/
theorem Effect.listings (h : Effect s c r s') (hi : s.Inv) (hplain : c.Plain s) (hP : Listings P s) (hnil : P [])
    (hnew : ∀ children children' slots, Rearranged c children children' →
      Agree slots (visible (children.map slotOf)) → P slots →
      P (visible (children'.map slotOf))) : Listings P s' := by
  cases h with
  | untouched ht hsb _ => exact hP.of_touches_nil hi ht hsb
  | changed hloc hu hkept hre =>
    refine hP.update hloc hplain hu hkept (hnew _ _ _ hre hloc.at_dir.focus.shown ?_) hnil
    exact hP _ _ _ hloc.at_dir.holds.listing (hloc.leads hplain).to_below

end Listings

end MaramOS
