import MaramOS.Proofs.Walk

/-! Names. A path that leads somewhere in the tree on disk is walked there by
`get_parent`, and the other way round in a tree without symlinks. When one
directory changes, the paths that do not go through the changed entry still lead
to the same place. -/

namespace MaramOS

open List

open DirectoryEntry renaming slot → slotOf

variable {es : List Slot} {c : Str} {e : Slot} {dir : Directory}

theorem lookup_some (h : lookup es c = some e) :
    e ∈ es ∧ e.name.toStr = c :=
  ⟨List.mem_of_find?_eq_some h, by simpa using List.find?_some h⟩

theorem lookup_visible (hc : c ≠ []) (l : List Slot) : lookup (visible l) c = lookup l c := by
  induction l with
  | nil => rfl
  | cons e l ih =>
    cases hempty : e.name.isEmpty with
    | true =>
      have hskip : visible (e :: l) = visible l := by simp [visible, hempty]
      have hne : (e.name.toStr == c) = false := by
        rw [Filename.toStr_of_isEmpty hempty, beq_eq_false_iff_ne]
        exact Ne.symm hc
      rw [hskip, ih, lookup, lookup, List.find?_cons, hne]
    | false =>
      have hkeep : visible (e :: l) = e :: visible l := by simp [visible, hempty]
      rw [hkeep, lookup, lookup, List.find?_cons, List.find?_cons]
      split
      · rfl
      · exact ih

theorem Agree.lookup {es' : List Slot} (h : Agree es es') (c : Str) :
    Option.Rel Slot.Alike (lookup es c) (lookup es' c) := by
  induction h with
  | nil => exact .none
  | @cons e e' es es' he _ ih =>
    rw [MaramOS.lookup, MaramOS.lookup, List.find?_cons, List.find?_cons, he.1]
    split
    · exact .some he
    · exact ih

theorem getChild_slot (dir : Directory) (c : Str) :
    (dir.getChild c).map slotOf = lookup (dir.children.map slotOf) c := by
  rw [Directory.getChild, lookup, List.find?_map]
  congr 2
  funext e
  cases e <;> rfl

section

variable (h : Agree es (visible (dir.children.map slotOf))) (hc : c ≠ [])
include h hc

/-- A directory that shows the slots `es` finds a child exactly where they have one. -/
theorem getChild_rel :
    Option.Rel Slot.Alike (lookup es c) ((dir.getChild c).map slotOf) := by
  rw [getChild_slot, ← lookup_visible hc (dir.children.map slotOf)]
  exact h.lookup c

theorem getChild_of_lookup (hl : lookup es c = some e) :
    ∃ child, dir.getChild c = some child ∧ e.Alike child.slot := by
  have hrel := getChild_rel h hc
  rw [hl] at hrel
  cases hget : dir.getChild c with
  | none =>
    rw [hget] at hrel
    cases hrel
  | some child =>
    rw [hget] at hrel
    cases hrel with
    | some hrel => exact ⟨child, rfl, hrel⟩

theorem lookup_of_getChild {child : DirectoryEntry} (hget : dir.getChild c = some child) :
    ∃ e, lookup es c = some e ∧ e.Alike child.slot := by
  have hrel := getChild_rel h hc
  rw [hget] at hrel
  cases hl : lookup es c with
  | none =>
    rw [hl] at hrel
    cases hrel
  | some e =>
    rw [hl] at hrel
    cases hrel with
    | some hrel => exact ⟨e, rfl, hrel⟩

end

theorem Slot.Alike.directory {e : Slot} {child : DirectoryEntry} (h : e.Alike child.slot) (hk : e.kind = .directory) :
    ∃ name, child = .directory name e.link := by
  obtain ⟨-, hkind, hlink⟩ := h
  have hlink := hlink (by rw [hk]; decide)
  rw [hk] at hkind
  cases child with
  | file f => cases hkind
  | symLink name dest => cases hkind
  | directory name link => exact ⟨name, by rw [hlink]; rfl⟩

namespace Owns

variable {d : Disk} {es : List Slot} {owned : List ℕ} {e : Slot} {own : List ℕ}

theorem of_mem (h : Owns d es owned) (he : e ∈ es) :
    ∃ own, Owns d [e] own ∧ own.Sublist owned := by
  obtain ⟨l, r, rfl⟩ := append_of_mem he
  obtain ⟨o, rest, rfl, -, hr⟩ := h.split
  obtain ⟨own, o', rfl, hown, -⟩ := Owns.split [e] hr
  exact ⟨own, hown, (sublist_append_left _ _).trans (sublist_append_right _ _)⟩

theorem disjoint (h : Owns d es owned) (hnodup : owned.Nodup) {e' : Slot} (he : e ∈ es) (he' : e' ∈ es) (hne : e ≠ e')
    {own' : List ℕ} (hown : Owns d [e] own) (hown' : Owns d [e'] own') {x : ℕ} (hx : x ∈ own) : x ∉ own' := by
  intro hx'
  obtain ⟨l, r, rfl⟩ := append_of_mem he
  obtain ⟨o, rest, rfl, hl, hr⟩ := h.split
  obtain ⟨own1, o', rfl, hown1, hr'⟩ := Owns.split [e] hr
  obtain rfl := hown.unique hown1
  rw [nodup_append, nodup_append] at hnodup
  rcases mem_append.1 he' with he' | he'
  · obtain ⟨own2, hown2, hsub⟩ := hl.of_mem he'
    obtain rfl := hown'.unique hown2
    exact hnodup.2.2 x (hsub.subset hx') x (mem_append_left _ hx) rfl
  · obtain ⟨own2, hown2, hsub⟩ := hr'.of_mem ((mem_cons.1 he').resolve_left (Ne.symm hne))
    obtain rfl := hown'.unique hown2
    exact hnodup.2.1.2.2 x hx x (hsub.subset hx') rfl

theorem directory_inv (h : Owns d [e] own) (hk : e.kind = .directory) :
    ∃ chain sub inner, own = chain ++ inner ∧ e.link.isDirect = true ∧ DirChain d e.link chain sub ∧
      Owns d sub inner := by
  cases h with
  | symlink hk' => simp [hk] at hk'
  | file hk' => simp [hk] at hk'
  | directory _ hd hchain hsub hrest =>
    cases hrest
    exact ⟨_, _, _, by rw [append_nil], hd, hchain, hsub⟩

theorem file_inv (h : Owns d [e] own) (hk : e.kind = .file) :
    ∃ ind ext, own = ind ++ fileBlocks ext ∧ LinkChain d e.link ind ext := by
  cases h with
  | symlink hk' => simp [hk] at hk'
  | directory hk' => simp [hk] at hk'
  | file _ hlink hrest =>
    cases hrest
    exact ⟨_, _, by rw [append_nil], hlink⟩

theorem subdirectory (h : Owns d es owned) (hnodup : owned.Nodup) (he : e ∈ es) (hk : e.kind = .directory)
    {chain : List ℕ} {sub : List Slot} (hchain : DirChain d e.link chain sub) :
    ∃ inner, e.link.isDirect = true ∧ Owns d sub inner ∧ Owns d [e] (chain ++ inner) ∧
      (chain ++ inner).Nodup ∧ (chain ++ inner) ⊆ owned := by
  obtain ⟨own, hown, hsub⟩ := h.of_mem he
  obtain ⟨chain', sub', inner, rfl, hd, hchain', hinner⟩ := hown.directory_inv hk
  obtain ⟨rfl, rfl⟩ := hchain.unique hchain'
  exact ⟨inner, hd, hinner, hown, hnodup.sublist hsub, hsub.subset⟩

theorem readable_frame (h : Owns d es owned) (hnodup : owned.Nodup) (hn : d'.sectorCount = d.sectorCount)
    (hsame : ∀ e ∈ es, e.kind = .file → ∀ own, Owns d [e] own → ∀ x ∈ own, d'.sectors x = d.sectors x) :
    Readable d' es := by
  intro e he hk
  obtain ⟨own, hown, hsub⟩ := h.of_mem he
  have hown' := hown.frame hn (hsame e he hk own hown)
  exact hown'.readable (hnodup.sublist hsub) e mem_cons_self hk

end Owns

section Chain

variable {d : Disk} {ptr ptr' : LinkPointer} {chain chain' : List ℕ} {es es' : List Slot} {x : ℕ}

theorem DirChain.rest_unique (h : DirChain d ptr (x :: chain) es) (h' : DirChain d ptr' (x :: chain') es') :
    chain = chain' := by
  cases h with
  | @block _ sec _ _ _ hr hrest =>
    generalize hx : ptr.start = x at h' hr
    cases h' with
    | block _ hr' hrest' =>
      obtain rfl := hr.unique hr'
      exact (hrest.unique hrest').1

theorem DirChain.from_mem (h : DirChain d ptr chain es) (hx : x ∈ chain) :
    ∃ ptr' rest es', DirChain d ptr' (x :: rest) es' ∧ rest.length < chain.length := by
  induction h with
  | done => cases hx
  | @block ptr sec chain es hd hr hrest ih =>
    rcases mem_cons.1 hx with rfl | hx
    · exact ⟨ptr, chain, _, .block hd hr hrest, Nat.lt_succ_self _⟩
    · obtain ⟨ptr', rest, es', hchain, hlt⟩ := ih hx
      exact ⟨ptr', rest, es', hchain, Nat.lt_succ_of_lt hlt⟩

theorem DirChain.nodup (h : DirChain d ptr chain es) : chain.Nodup := by
  induction h with
  | done => exact nodup_nil
  | @block ptr sec chain es hd hr hrest ih =>
    refine nodup_cons.2 ⟨fun hmem => ?_, ih⟩
    obtain ⟨ptr', rest, es', hchain, hlt⟩ := hrest.from_mem hmem
    rw [(DirChain.block hd hr hrest).rest_unique hchain] at hlt
    exact lt_irrefl _ hlt

theorem DirChain.chain_le (h : DirChain d ptr chain es) : chain.length ≤ d.sectorCount :=
  length_le_of_nodup h.nodup h.mem_lt

end Chain

/-- As `Leads`, with every directory entered one that can be parsed. -/
inductive Way (d : Disk) : LinkPointer → List Slot → List Str → LinkPointer → List Slot → Prop
  | here {ptr : LinkPointer} {es : List Slot} : Way d ptr es [] ptr es
  | step {ptr ptr' : LinkPointer} {es sub es' : List Slot} {c : Str} {cs : List Str} {e : Slot} {chain : List ℕ} :
      lookup es c = some e → e.kind = .directory → e.link.isDirect = true → DirChain d e.link chain sub →
      Readable d sub → Way d e.link sub cs ptr' es' → Way d ptr es (c :: cs) ptr' es'

namespace Leads

variable {d d' : Disk} {ptr ptr' : LinkPointer} {es es' : List Slot} {comps : List Str} {owned : List ℕ}
  {chain inner : List ℕ} {dir : Directory}

section

variable (h : Leads d ptr es comps ptr' es')
include h

theorem owns (howns : Owns d es owned) (hnodup : owned.Nodup) :
    ∃ inner, Owns d es' inner ∧ inner.Nodup ∧ inner ⊆ owned := by
  induction h generalizing owned with
  | here => exact ⟨owned, howns, hnodup, List.Subset.refl owned⟩
  | step hl hk hchain _ ih =>
    obtain ⟨inner, -, hsub, -, hn, hmem⟩ := howns.subdirectory hnodup (lookup_some hl).1 hk hchain
    obtain ⟨inner', hinner', hn', hmem'⟩ := ih hsub (nodup_append.1 hn).2.1
    exact ⟨inner', hinner', hn', fun x hx => hmem (mem_append_right _ (hmem' hx))⟩

theorem chain_subset (hne : comps ≠ []) (howns : Owns d es owned) (hnodup : owned.Nodup)
    (hchain : DirChain d ptr' chain es') (hinner : Owns d es' inner) :
    chain ++ inner ⊆ owned := by
  induction h generalizing owned with
  | here => exact absurd rfl hne
  | @step _ _ _ sub _ _ cs e _ hl hk hchain1 hrest ih =>
    obtain ⟨inner1, -, hsub, -, hn, hmem⟩ := howns.subdirectory hnodup (lookup_some hl).1 hk hchain1
    cases cs with
    | nil =>
      cases hrest
      obtain ⟨rfl, -⟩ := hchain.unique hchain1
      obtain rfl := hinner.unique hsub
      exact hmem
    | cons c' cs =>
      have hsubset := ih (by simp) hsub (nodup_append.1 hn).2.1 hchain hinner
      exact fun x hx => hmem (mem_append_right _ (hsubset hx))

theorem part_subset {chain1 inner1 : List ℕ} (hchain1 : DirChain d ptr chain1 es) (howns : Owns d es inner1)
    (hnodup : inner1.Nodup) (hchain : DirChain d ptr' chain es') (hinner : Owns d es' inner) :
    chain ++ inner ⊆ chain1 ++ inner1 := by
  cases comps with
  | nil =>
    cases h
    obtain ⟨rfl, -⟩ := hchain.unique hchain1
    obtain rfl := hinner.unique howns
    exact List.Subset.refl _
  | cons c cs =>
    have hbelow := h.chain_subset (by simp) howns hnodup hchain hinner
    exact fun x hx => mem_append_right _ (hbelow hx)

theorem live (hne : comps ≠ []) : LiveDir d es ptr' := by
  induction h with
  | here => exact absurd rfl hne
  | @step _ _ _ _ _ _ cs e _ hl hk hchain hrest ih =>
    have hmem := (lookup_some hl).1
    cases cs with
    | nil =>
      cases hrest
      exact ⟨e, .here hmem, hk, rfl⟩
    | cons c' cs =>
      obtain ⟨e', hin, hk', hlink⟩ := ih (by simp)
      exact ⟨e', .inside hmem hk hchain hin, hk', hlink⟩

theorem frame (howns : Owns d es owned) (hnodup : owned.Nodup) (hn : d'.sectorCount = d.sectorCount)
    (hs : ∀ x ∈ owned, d'.sectors x = d.sectors x) :
    Leads d' ptr es comps ptr' es' := by
  induction h generalizing owned with
  | here => exact .here
  | step hl hk hchain _ ih =>
    obtain ⟨inner, -, hsub, -, hn', hmem⟩ := howns.subdirectory hnodup (lookup_some hl).1 hk hchain
    refine .step hl hk (hchain.frame hn fun x hx => hs x (hmem (mem_append_left _ hx))) ?_
    exact ih hsub (nodup_append.1 hn').2.1 fun x hx => hs x (hmem (mem_append_right _ hx))

theorem way (howns : Owns d es owned) (hnodup : owned.Nodup) :
    Way d ptr es comps ptr' es' := by
  induction h generalizing owned with
  | here => exact .here
  | step hl hk hchain _ ih =>
    obtain ⟨inner, hd, hsub, -, hn, -⟩ := howns.subdirectory hnodup (lookup_some hl).1 hk hchain
    have hninner := (nodup_append.1 hn).2.1
    exact .step hl hk hd hchain (hsub.readable hninner) (ih hsub hninner)

end

theorem walk_of_way (h : Way d ptr es comps ptr' es') (hcomps : ∀ c ∈ comps, c ≠ []) (hhead : dir.head = ptr)
    (hshow : Agree es (visible (dir.children.map slotOf))) :
    ∃ dir', comps.foldlM (LemonFS.enter d) dir = .ok dir' ∧ dir'.head = ptr' ∧
      Agree es' (visible (dir'.children.map slotOf)) ∧
      (comps ≠ [] → dir'.children.map slotOf = es' ∧ ∀ c ∈ dir'.children, Parsed d c) := by
  induction h generalizing dir with
  | here => exact ⟨dir, rfl, hhead, hshow, fun hne => absurd rfl hne⟩
  | @step ptr ptr' es sub es' c cs e chain hl hk hd hchain hread hrest ih =>
    obtain ⟨child, hget, hchild⟩ := getChild_of_lookup hshow (hcomps c (by simp)) hl
    obtain ⟨name, rfl⟩ := hchild.directory hk
    obtain ⟨dir1, hopen, hhead1, -, hslots, hparsed⟩ := hchain.openAt hd hread hchain.chain_le name
    have hshow1 : Agree sub (visible (dir1.children.map slotOf)) := by
      rw [hslots, hchain.visible]
      exact Agree.refl sub
    obtain ⟨dir', hwalk, hhead', hshow', hlast⟩ := ih (fun c' hc' => hcomps c' (by simp [hc'])) hhead1 hshow1
    have henter : LemonFS.enter d dir c = .ok dir1 := by
      unfold LemonFS.enter
      rw [hget]
      exact hopen
    refine ⟨dir', ?_, hhead', hshow', fun _ => ?_⟩
    · rw [foldlM_cons, henter]
      exact hwalk
    · cases cs with
      | nil =>
        cases hrest
        cases hwalk
        exact ⟨hslots, hparsed⟩
      | cons c' cs => exact hlast (by simp)

theorem walk (h : Leads d ptr es comps ptr' es') (howns : Owns d es owned) (hnodup : owned.Nodup)
    (hcomps : ∀ c ∈ comps, c ≠ []) (hhead : dir.head = ptr)
    (hshow : Agree es (visible (dir.children.map slotOf))) :
    ∃ dir', comps.foldlM (LemonFS.enter d) dir = .ok dir' ∧ dir'.head = ptr' ∧
      Agree es' (visible (dir'.children.map slotOf)) ∧
      (comps ≠ [] → dir'.children.map slotOf = es' ∧ ∀ c ∈ dir'.children, Parsed d c) :=
  walk_of_way (h.way howns hnodup) hcomps hhead hshow

theorem of_walk (howns : Owns d es owned) (hnodup : owned.Nodup) (hfree : ∀ e, SlotIn d es e → e.kind ≠ .symlink)
    (hcomps : ∀ c ∈ comps, c ≠ []) {dir' : Directory} (hhead : dir.head = ptr)
    (hshow : Agree es (visible (dir.children.map slotOf)))
    (hwalk : comps.foldlM (LemonFS.enter d) dir = .ok dir') : ∃ es', Leads d ptr es comps dir'.head es' := by
  induction comps generalizing es owned dir ptr with
  | nil =>
    cases hwalk
    rw [← hhead]
    exact ⟨es, .here⟩
  | cons c cs ih =>
    rw [foldlM_cons] at hwalk
    cases henter : LemonFS.enter d dir c with
    | error err =>
      rw [henter] at hwalk
      cases hwalk
    | ok dir1 =>
      rw [henter] at hwalk
      obtain ⟨name, link, hopen, hchild⟩ := LemonFS.enter_ok henter
      -- a symlink among the children would be a symlink of the tree
      obtain ⟨child, hget, hlink, hkind⟩ : ∃ child, dir.getChild c = some child ∧ child.slot.link = link ∧
          (child.slot.kind = .directory ∨ child.slot.kind = .symlink) := by
        rcases hchild with ⟨n, hget⟩ | ⟨n, hget⟩
        · exact ⟨_, hget, rfl, Or.inl rfl⟩
        · exact ⟨_, hget, rfl, Or.inr rfl⟩
      obtain ⟨e, hl, -, hk, hlink'⟩ := lookup_of_getChild hshow (hcomps c (by simp)) hget
      have hmem := (lookup_some hl).1
      have hno := hfree e (.here hmem)
      have hdir : e.kind = .directory := by
        rcases hkind with hkind | hkind
        · rw [hk, hkind]
        · exact absurd (hk.trans hkind) hno
      have hptr : e.link = link := (hlink' hno).trans hlink
      obtain ⟨own, hown, hsublist⟩ := howns.of_mem hmem
      obtain ⟨chain, sub, inner, rfl, hd, hchain, hinner⟩ := hown.directory_inv hdir
      obtain ⟨hnchain, hninner, -⟩ := nodup_append.1 (hnodup.sublist hsublist)
      obtain ⟨dir2, hopen2, hhead2, -, hslots, -⟩ := hchain.openAt hd (hinner.readable hninner)
        (length_le_of_nodup hnchain hchain.mem_lt) name
      rw [hptr, hopen] at hopen2
      cases hopen2
      have hshow1 : Agree sub (visible (dir1.children.map slotOf)) := by
        rw [hslots, hchain.visible]
        exact Agree.refl sub
      obtain ⟨es', hrest⟩ := ih hinner hninner (fun e' hin => hfree e' (.inside hmem hdir hchain hin))
        (fun c' hc' => hcomps c' (by simp [hc'])) hhead2 hshow1 hwalk
      exact ⟨es', .step hl hdir hchain hrest⟩

section Change

/-- The directory at `ptr` before and after a change that leaves sectors of `owned`
alone unless they belong to it. -/
structure Change (d d' : Disk) (ptr : LinkPointer) (chain : List ℕ) (slots : List Slot) (inner chain' : List ℕ)
    (slots' : List Slot) (owned : List ℕ) : Prop where
  sectorCount : d'.sectorCount = d.sectorCount
  before : DirChain d ptr chain slots
  owns : Owns d slots inner
  after : DirChain d' ptr chain' slots'
  outside : ∀ x ∈ owned, x ∉ chain ++ inner → d'.sectors x = d.sectors x

variable {chain inner chain' : List ℕ} {slots slots' : List Slot} {link qptr : LinkPointer} {sub qes : List Slot}
  {chain1 inner1 : List ℕ} {cq : List Str} {e : Slot}

theorem Change.mono (hc : Change d d' ptr chain slots inner chain' slots' owned) {owned' : List ℕ}
    (hsub : owned' ⊆ owned) : Change d d' ptr chain slots inner chain' slots' owned' :=
  { hc with outside := fun x hx => hc.outside x (hsub hx) }

theorem listing_on_way (h : Leads d link sub comps ptr slots) (hchain : DirChain d link chain1 sub)
    (hsub : Owns d sub inner1) (hnodup : (chain1 ++ inner1).Nodup)
    (hc : Change d d' ptr chain slots inner chain' slots' (chain1 ++ inner1)) :
    ∃ chain2, DirChain d' link chain2 (if comps = [] then slots' else sub) := by
  cases comps with
  | nil =>
    cases h
    exact ⟨chain', hc.after⟩
  | cons c cs =>
    obtain ⟨-, hninner, hdisj⟩ := nodup_append.1 hnodup
    have hbelow := h.chain_subset (by simp) hsub hninner hc.before hc.owns
    refine ⟨chain1, hchain.frame hc.sectorCount fun x hx => hc.outside x (mem_append_left _ hx) fun hmem => ?_⟩
    exact hdisj x hx x (hbelow hmem) rfl

section

variable (h : Leads d ptr es comps ptr' slots) (howns : Owns d es owned) (hnodup : owned.Nodup)
  (hc : Change d d' ptr' chain slots inner chain' slots' owned)
include h howns hnodup hc

theorem readable_on_way (hread : Readable d' slots') :
    Readable d' (if comps = [] then slots' else es) := by
  cases h with
  | here => rwa [if_pos rfl]
  | @step _ _ _ sub0 _ c0 cs0 e0 chain0 hl0 hk0 hchain0 hrest0 =>
    rw [if_neg (cons_ne_nil _ _)]
    obtain ⟨inner0, -, hsub0, hown0, hn0, -⟩ := howns.subdirectory hnodup (lookup_some hl0).1 hk0 hchain0
    refine howns.readable_frame hnodup hc.sectorCount fun e he hk own hown x hx => ?_
    have hne : e ≠ e0 := by
      rintro rfl
      rw [hk] at hk0
      cases hk0
    obtain ⟨own', hown', hsublist⟩ := howns.of_mem he
    obtain rfl := hown.unique hown'
    refine hc.outside x (hsublist.subset hx) fun hmem => ?_
    refine howns.disjoint hnodup he (lookup_some hl0).1 hne hown hown0 hx ?_
    exact hrest0.part_subset hchain0 hsub0 (nodup_append.1 hn0).2.1 hc.before hc.owns hmem

theorem change :
    Leads d' ptr (if comps = [] then slots' else es) comps ptr' slots' ∧
      (Readable d' slots' → Way d' ptr (if comps = [] then slots' else es) comps ptr' slots') := by
  induction h generalizing owned with
  | here =>
    rw [if_pos rfl]
    exact ⟨.here, fun _ => .here⟩
  | step hl hk hchain hrest ih =>
    rw [if_neg (by simp)]
    obtain ⟨inner1, hd, hsub, -, hn, hmem⟩ := howns.subdirectory hnodup (lookup_some hl).1 hk hchain
    have hc1 := hc.mono hmem
    have hn1 := (nodup_append.1 hn).2.1
    have hc2 := hc1.mono (subset_append_right _ _)
    obtain ⟨chain2, hchain2⟩ := listing_on_way hrest hchain hsub hn hc1
    obtain ⟨hleads, hway⟩ := ih hsub hn1 hc2
    exact ⟨.step hl hk hchain2 hleads,
      fun hread => .step hl hk hd hchain2 (hrest.readable_on_way hsub hn1 hc2 hread) (hway hread)⟩

end

theorem into_kept (hq : Leads d link sub cq qptr qes) (hchain : DirChain d link chain1 sub) (hsub : Owns d sub inner1)
    (hnodup : (chain1 ++ inner1).Nodup) (hn : d'.sectorCount = d.sectorCount)
    (hsame : ∀ x ∈ chain1 ++ inner1, d'.sectors x = d.sectors x) (he : e ∈ qes) :
    DirChain d' link chain1 sub ∧ Leads d' link sub cq qptr qes ∧ Readable d' sub ∧ Way d' link sub cq qptr qes ∧
      ∀ own, Owns d [e] own → ∀ x ∈ own, d'.sectors x = d.sectors x := by
  have hninner := (nodup_append.1 hnodup).2.1
  have hbelow : ∀ x ∈ inner1, d'.sectors x = d.sectors x := fun x hx => hsame x (mem_append_right _ hx)
  have hsub' := hsub.frame hn hbelow
  have hq' := hq.frame hsub hninner hn hbelow
  refine ⟨hchain.frame hn fun x hx => hsame x (mem_append_left _ hx), hq', hsub'.readable hninner,
    hq'.way hsub' hninner, ?_⟩
  intro own hown x hx
  obtain ⟨inner2, howns2, -, hmem2⟩ := hq.owns hsub hninner
  obtain ⟨own', hown', hsublist⟩ := howns2.of_mem he
  obtain rfl := hown.unique hown'
  exact hbelow x (hmem2 (hsublist.subset hx))

/-- A path to a file that does not go through the entry `n` of the changed directory still leads
to that file, and the sectors of the file are as before. It can be walked if the directory can be parsed. -/
theorem other {n m : Str} (h : Leads d ptr es comps ptr' slots) (howns : Owns d es owned) (hnodup : owned.Nodup)
    (hc : Change d d' ptr' chain slots inner chain' slots' owned)
    (hkeep : ∀ c e own, comps ++ [c] <+: cq ++ [m] → c ≠ n → e.kind ≠ .symlink → lookup slots c = some e →
      Owns d [e] own → lookup slots' c = some e ∧ ∀ x ∈ own, d'.sectors x = d.sectors x)
    (hq : Leads d ptr es cq qptr qes) (hl : lookup qes m = some e) (hfile : e.kind = .file)
      (hnot : ¬ (comps ++ [n]) <+: (cq ++ [m])) :
    (∃ qes', Leads d' ptr (if comps = [] then slots' else es) cq qptr qes' ∧
        (Readable d' slots' → Way d' ptr (if comps = [] then slots' else es) cq qptr qes') ∧ lookup qes' m = some e) ∧
      ∀ own, Owns d [e] own → ∀ x ∈ own, d'.sectors x = d.sectors x := by
  induction h generalizing owned cq with
  | here =>
    rw [if_pos rfl]
    cases hq with
    | here =>
      have hne : m ≠ n := by
        rintro rfl
        exact hnot (prefix_refl _)
      have hk : e.kind ≠ .symlink := by
        rw [hfile]
        decide
      obtain ⟨own, hown, -⟩ := howns.of_mem (lookup_some hl).1
      refine ⟨⟨slots', .here, fun _ => .here, (hkeep m e own (prefix_refl _) hne hk hl hown).1⟩, fun own' hown' => ?_⟩
      exact (hkeep m e own' (prefix_refl _) hne hk hl hown').2
    | @step _ _ _ sub _ c cs e1 chain1 hl1 hk1 hchain1 hrest1 =>
      have hne : c ≠ n := by
        rintro rfl
        exact hnot (by simp)
      obtain ⟨inner1, hd, hsub, hown, hn, -⟩ := howns.subdirectory hnodup (lookup_some hl1).1 hk1 hchain1
      obtain ⟨hl', hsame⟩ := hkeep c e1 _ (by simp) hne (by rw [hk1]; decide) hl1 hown
      obtain ⟨hchain', hrest', hread', hway', hfile'⟩ := into_kept hrest1 hchain1 hsub hn hc.sectorCount hsame
        (lookup_some hl).1
      exact ⟨⟨qes, .step hl' hk1 hchain' hrest', fun _ => .step hl' hk1 hd hchain' hread' hway', hl⟩, hfile'⟩
  | @step ptr ptr' es sub0 slots c0 cs0 e0 chain0 hl0 hk0 hchain0 hrest0 ih =>
    rw [if_neg (by simp)]
    obtain ⟨inner0, hd0, hsub0, hown0, hn0, hmem0⟩ := howns.subdirectory hnodup (lookup_some hl0).1 hk0 hchain0
    have hc0 := hc.mono hmem0
    have hn0' := (nodup_append.1 hn0).2.1
    have hpart := hrest0.part_subset hchain0 hsub0 hn0' hc.before hc.owns
    have hsibling : ∀ e1 own1, e1 ∈ es → e1 ≠ e0 → Owns d [e1] own1 → ∀ x ∈ own1, d'.sectors x = d.sectors x := by
      intro e1 own1 he1 hne hown1 x hx
      obtain ⟨own', hown', hsublist⟩ := howns.of_mem he1
      obtain rfl := hown1.unique hown'
      refine hc.outside x (hsublist.subset hx) fun hmem => ?_
      exact howns.disjoint hnodup he1 (lookup_some hl0).1 hne hown1 hown0 hx (hpart hmem)
    cases hq with
    | here =>
      refine ⟨⟨qes, .here, fun _ => .here, hl⟩, fun own hown => hsibling e own (lookup_some hl).1 ?_ hown⟩
      rintro rfl
      rw [hfile] at hk0
      cases hk0
    | @step _ _ _ sub1 _ c cs e1 chain1 hl1 hk1 hchain1 hrest1 =>
      by_cases heq : c = c0
      · subst heq
        rw [hl0] at hl1
        cases hl1
        obtain ⟨rfl, rfl⟩ := hchain0.unique hchain1
        obtain ⟨chain2, hchain2⟩ := listing_on_way hrest0 hchain0 hsub0 hn0 hc0
        have hnot' : ¬ (cs0 ++ [n]) <+: (cs ++ [m]) := by
          intro hpre
          exact hnot (cons_prefix_cons.2 ⟨rfl, hpre⟩)
        have hc1 := hc0.mono (subset_append_right _ _)
        obtain ⟨⟨qes', hrest', hway', hl'⟩, hfile'⟩ := ih hsub0 hn0' hc1
          (fun c e own hpre => hkeep c e own (cons_prefix_cons.2 ⟨rfl, hpre⟩)) hrest1 hnot'
        exact ⟨⟨qes', .step hl0 hk0 hchain2 hrest', fun hread => .step hl0 hk0 hd0 hchain2
          (hrest0.readable_on_way hsub0 hn0' hc1 hread) (hway' hread), hl'⟩, hfile'⟩
      · have hne : e1 ≠ e0 := by
          rintro rfl
          exact heq ((lookup_some hl1).2.symm.trans (lookup_some hl0).2)
        obtain ⟨inner1, hd1, hsub1, hown1, hn1, -⟩ := howns.subdirectory hnodup (lookup_some hl1).1 hk1 hchain1
        obtain ⟨hchain', hrest', hread', hway', hfile'⟩ := into_kept hrest1 hchain1 hsub1 hn1 hc.sectorCount
          (hsibling e1 _ (lookup_some hl1).1 hne hown1) (lookup_some hl).1
        exact ⟨⟨qes, .step hl1 hk1 hchain' hrest', fun _ => .step hl1 hk1 hd1 hchain' hread' hway', hl⟩, hfile'⟩

end Change

end Leads

end MaramOS
