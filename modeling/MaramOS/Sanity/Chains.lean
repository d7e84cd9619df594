import MaramOS.Sanity.Codec
import MaramOS.Spec.Tree

/-! The loops that follow pointers find the chains that are there: `trace`,
`resolve_links`, `add_children_from_link` and the chain walk of `sync`. Chains
depend only on the sectors they consist of. -/

namespace MaramOS

open List

open DirectoryEntry renaming slot → slotOf
open LinkBlock (decode)

variable {ε α β : Type} {d : Disk} {x : ℕ} {sec : Sector}

/-- A lemma and not a definitional step, so that the kernel does not run what is bound. -/
theorem ok_bind (a : α) (f : α → Except ε β) : (Except.ok a >>= f) = f a := rfl

theorem error_bind (e : ε) (f : α → Except ε β) : (Except.error e >>= f) = .error e := rfl

theorem Disk.At.read (h : d.At x sec) : readData d x = .ok sec := by
  rw [readData_eq h.1, h.2]

theorem Disk.At.unique {sec' : Sector} (h : d.At x sec) (h' : d.At x sec') : sec = sec' :=
  h.2.symm.trans h'.2

theorem Disk.At.frame {d' : Disk} (h : d.At x sec) (hn : d'.sectorCount = d.sectorCount)
    (hs : d'.sectors x = d.sectors x) : d'.At x sec :=
  ⟨hn ▸ h.1, hs.trans h.2⟩

theorem length_le_of_nodup {l : List ℕ} {n : ℕ} (hl : l.Nodup) (hlt : ∀ x ∈ l, x < n) : l.length ≤ n := by
  have hsub : l ⊆ List.range n := fun x hx => mem_range.2 (hlt x hx)
  simpa using (subperm_of_subset hl hsub).length_le

theorem LinkBlock.mem_direct {b : LinkBlock} {l : LinkPointer} (h : l ∈ b.direct) :
    l.isValid = true ∧ l.isDirect = true := by
  have := (mem_filter.1 h).2
  simpa using this

namespace LinkChain

variable {d d' : Disk} {ptr : LinkPointer} {ind ind' : List ℕ} {ext ext' : List LinkPointer}

section

variable (h : LinkChain d ptr ind ext)
include h

theorem mem_ind : ∀ x ∈ ind, x ≠ 0 ∧ x < d.sectorCount := by
  induction h with
  | none => simp
  | extent => simp
  | block hv _ hr _ ih =>
    intro x hx
    rcases mem_cons.1 hx with rfl | hx
    · exact ⟨by simpa [LinkPointer.isValid] using hv, hr.1⟩
    · exact ih x hx

theorem mem_ext : ∀ l ∈ ext, l.isValid = true ∧ l.isDirect = true := by
  induction h with
  | none => simp
  | extent hv hd => simp [hv, hd]
  | block _ _ _ _ ih =>
    intro l hl
    rcases mem_append.1 hl with hl | hl
    · exact LinkBlock.mem_direct hl
    · exact ih l hl

theorem unique (h' : LinkChain d ptr ind' ext') : ind = ind' ∧ ext = ext' := by
  induction h generalizing ind' ext' with
  | none hv =>
    cases h' with
    | none => exact ⟨rfl, rfl⟩
    | extent hv' => simp [hv] at hv'
    | block hv' => simp [hv] at hv'
  | extent hv hd =>
    cases h' with
    | none hv' => simp [hv] at hv'
    | extent => exact ⟨rfl, rfl⟩
    | block _ hd' => simp [hd] at hd'
  | block hv hd hr _ ih =>
    cases h' with
    | none hv' => simp [hv] at hv'
    | extent _ hd' => simp [hd] at hd'
    | block _ _ hr' hrest =>
      obtain rfl := hr.unique hr'
      obtain ⟨rfl, rfl⟩ := ih hrest
      exact ⟨rfl, rfl⟩

theorem frame (hn : d'.sectorCount = d.sectorCount) (hs : ∀ x ∈ ind, d'.sectors x = d.sectors x) :
    LinkChain d' ptr ind ext := by
  induction h with
  | none hv => exact .none hv
  | extent hv hd => exact .extent hv hd
  | block hv hd hr _ ih =>
    exact .block hv hd (hr.frame hn (hs _ (by simp))) (ih fun x hx => hs x (by simp [hx]))

theorem traceLoop (k : ℕ) (hk : ind.length < k) :
    MaramOS.traceLoop d k ptr = .ok (ext, ind.map fun x => ⟨x, 0⟩) := by
  induction h generalizing k with
  | none hv =>
    obtain ⟨k, rfl⟩ := Nat.exists_eq_succ_of_ne_zero (by omega : k ≠ 0)
    simp [MaramOS.traceLoop, hv]
  | extent hv hd =>
    obtain ⟨k, rfl⟩ := Nat.exists_eq_succ_of_ne_zero (by omega : k ≠ 0)
    simp [MaramOS.traceLoop, hv, hd]
  | @block ptr sec ind ext hv hd hr _ ih =>
    obtain ⟨k, rfl⟩ := Nat.exists_eq_succ_of_ne_zero (by omega : k ≠ 0)
    have hsize : ptr = ⟨ptr.start, 0⟩ := by
      have : ptr.size = 0 := by simpa [LinkPointer.isDirect] using hd
      rw [← this]
    have hlen : ind.length < k := by simpa using hk
    simp only [MaramOS.traceLoop, hv, hd, LinkPointer.read, hr.read, bind, Except.bind, ih k hlen]
    simp only [map_cons, ← hsize]
    rfl

theorem resolveLinksLoop (stack : List LinkPointer) (hstack : ∀ l ∈ stack, l.isValid = true ∧ l.isDirect = true)
    (k : ℕ) (hk : ind.length + 1 < k) :
    MaramOS.resolveLinksLoop d k (stack ++ [ptr]) = .ok (stack ++ ext) := by
  induction h generalizing stack k with
  | none hv =>
    obtain ⟨k, rfl⟩ := Nat.exists_eq_succ_of_ne_zero (by omega : k ≠ 0)
    simp [MaramOS.resolveLinksLoop, hv]
  | extent hv hd =>
    obtain ⟨k, rfl⟩ := Nat.exists_eq_succ_of_ne_zero (by omega : k ≠ 0)
    simp [MaramOS.resolveLinksLoop, hv, hd]
  | @block ptr sec ind ext hv hd hr hrest ih =>
    obtain ⟨k, rfl⟩ := Nat.exists_eq_succ_of_ne_zero (by omega : k ≠ 0)
    simp only [length_cons] at hk
    have hresolve : resolveLink d ptr = .ok ((decode sec).direct ++
        if (decode sec).last.isValid then [(decode sec).last] else []) := by
      simp only [resolveLink, hv, hd, LinkPointer.read, hr.read, bind, Except.bind]
      rfl
    have hstack' : ∀ l ∈ stack ++ (decode sec).direct, l.isValid = true ∧ l.isDirect = true := by
      intro l hl
      rcases mem_append.1 hl with hl | hl
      · exact hstack l hl
      · exact LinkBlock.mem_direct hl
    have hturn : MaramOS.resolveLinksLoop d (k + 1) (stack ++ [ptr]) = MaramOS.resolveLinksLoop d k
        ((stack ++ (decode sec).direct) ++
          if (decode sec).last.isValid then [(decode sec).last] else []) := by
      rw [MaramOS.resolveLinksLoop]
      simp only [List.getLast?_concat, hv, hd, dropLast_concat, hresolve, bind, Except.bind,
        append_assoc]
      rfl
    rw [hturn, ← append_assoc]
    by_cases hlast : (decode sec).last.isValid = true
    · rw [if_pos hlast]
      exact ih _ hstack' k (by omega)
    · -- the chain ends here, and what is left on top of the stack is an extent
      rw [if_neg hlast, append_nil]
      obtain ⟨k, rfl⟩ := Nat.exists_eq_succ_of_ne_zero (by omega : k ≠ 0)
      have hext : ext = [] := by
        cases hrest with
        | none => rfl
        | extent hv' => exact absurd hv' hlast
        | block hv' => exact absurd hv' hlast
      rw [hext, append_nil, MaramOS.resolveLinksLoop]
      cases htop : (stack ++ (decode sec).direct).getLast? with
      | none =>
        rw [List.getLast?_eq_none_iff] at htop
        simp [htop]
      | some l =>
        have hl := hstack' l (List.mem_of_getLast? htop)
        simp [hl.1, hl.2]

theorem trace (hlen : ind.length ≤ d.sectorCount) :
    MaramOS.trace d ptr = .ok (ext, ind.map fun x => ⟨x, 0⟩) :=
  h.traceLoop _ (by unfold Disk.fuel; omega)

theorem resolveLinks (hlen : ind.length ≤ d.sectorCount) :
    MaramOS.resolveLinks d ptr = .ok ext :=
  h.resolveLinksLoop [] (by simp) _ (by unfold Disk.fuel; omega)

end

end LinkChain

theorem visible_append (l l' : List Slot) : visible (l ++ l') = visible l ++ visible l' :=
  filter_append _ _

theorem visible_visible (l : List Slot) : visible (visible l) = visible l := by simp [visible]

/-- The link chains of all files among the slots can be followed to their ends. -/
def Readable (d : Disk) (es : List Slot) : Prop :=
  ∀ e ∈ es, e.kind = .file → ∃ links, resolveLinks d e.link = .ok links

theorem fromDirEntry_spec {e : DirEntry} (h : e.slot.kind = .file → ∃ links, resolveLinks d e.link = .ok links) :
    ∃ c, DirectoryEntry.fromDirEntry d e = .ok c ∧ c.slot = e.slot ∧ Parsed d c := by
  unfold DirectoryEntry.fromDirEntry
  by_cases hsym : e.flags.contains .isSymlink = true
  · exact ⟨.symLink e.name e.link, by rw [if_pos hsym],
      by simp [slotOf, DirEntry.slot, hsym], trivial⟩
  by_cases hdir : e.flags.contains .isDir = true
  · exact ⟨.directory e.name e.link, by rw [if_neg hsym, if_pos hdir],
      by simp [slotOf, DirEntry.slot, hsym, hdir], trivial⟩
  obtain ⟨links, hlinks⟩ := h (by simp [DirEntry.slot, hsym, hdir])
  refine ⟨.file ⟨e.name, wsum (links.map (·.size)), e.link, links⟩, ?_,
    by simp [slotOf, DirEntry.slot, hsym, hdir], hlinks, rfl⟩
  simp only [Bool.not_eq_true] at hsym hdir
  simp [File.fromDirEntry, hsym, hdir, hlinks, bind, Except.bind, pure, Except.pure, Functor.map, Except.map]

theorem Parsed.ext {c c' : DirectoryEntry} (h : Parsed d c) (h' : Parsed d c') (hs : c.slot = c'.slot) : c = c' := by
  cases c with
  | file f =>
    cases c' with
    | file f' =>
      obtain ⟨name, size, head, links⟩ := f
      obtain ⟨name', size', head', links'⟩ := f'
      simp only [slotOf, Slot.mk.injEq, true_and] at hs
      obtain ⟨rfl, rfl⟩ := hs
      obtain ⟨hlinks, hsize⟩ := h
      obtain ⟨hlinks', hsize'⟩ := h'
      simp only at hlinks hlinks' hsize hsize'
      rw [hlinks] at hlinks'
      cases hlinks'
      rw [hsize, hsize']
    | directory => simp [slotOf] at hs
    | symLink => simp [slotOf] at hs
  | directory =>
    cases c' with
    | file => simp [slotOf] at hs
    | directory => simpa [slotOf] using hs
    | symLink => simp [slotOf] at hs
  | symLink =>
    cases c' with
    | file => simp [slotOf] at hs
    | directory => simp [slotOf] at hs
    | symLink => simpa [slotOf] using hs

theorem parseEntries_spec (es : List DirEntry) (h : Readable d (visible (es.map DirEntry.slot))) :
    ∃ cs, parseEntries d es = .ok cs ∧ cs.map slotOf = visible (es.map DirEntry.slot) ∧
      ∀ c ∈ cs, Parsed d c := by
  induction es with
  | nil => exact ⟨[], rfl, rfl, by simp⟩
  | cons e es ih =>
    have hname : e.slot.name = e.name := rfl
    by_cases hempty : e.name.isEmpty = true
    · have hskip : visible ((e :: es).map DirEntry.slot) = visible (es.map DirEntry.slot) := by
        simp [visible, hname, hempty]
      rw [hskip] at h ⊢
      rw [parseEntries, if_pos hempty]
      exact ih h
    · have hkeep : visible ((e :: es).map DirEntry.slot) = e.slot :: visible (es.map DirEntry.slot) := by
        simp [visible, hname, hempty]
      rw [hkeep] at h ⊢
      obtain ⟨c, hc, hslot, hparsed⟩ := fromDirEntry_spec (h e.slot (by simp))
      obtain ⟨cs, hcs, hslots, hall⟩ := ih fun e' he' => h e' (by simp [he'])
      refine ⟨c :: cs, ?_, by simp [hslot, hslots], ?_⟩
      · rw [parseEntries, if_neg hempty, hc, hcs]
        rfl
      · intro c' hc'
        rcases mem_cons.1 hc' with rfl | hc'
        · exact hparsed
        · exact hall c' hc'

namespace DirChain

variable {d d' : Disk} {ptr : LinkPointer} {chain chain' : List ℕ} {es es' : List Slot}

section

variable (h : DirChain d ptr chain es)
include h

theorem mem_lt : ∀ x ∈ chain, x < d.sectorCount := by
  induction h with
  | done => simp
  | block _ hr _ ih =>
    intro x hx
    rcases mem_cons.1 hx with rfl | hx
    · exact hr.1
    · exact ih x hx

theorem unique (h' : DirChain d ptr chain' es') : chain = chain' ∧ es = es' := by
  induction h generalizing chain' es' with
  | done hd =>
    cases h' with
    | done => exact ⟨rfl, rfl⟩
    | block hd' => simp [hd] at hd'
  | block hd hr _ ih =>
    cases h' with
    | done hd' => simp [hd] at hd'
    | block _ hr' hrest =>
      obtain rfl := hr.unique hr'
      obtain ⟨rfl, rfl⟩ := ih hrest
      exact ⟨rfl, rfl⟩

theorem frame (hn : d'.sectorCount = d.sectorCount) (hs : ∀ x ∈ chain, d'.sectors x = d.sectors x) :
    DirChain d' ptr chain es := by
  induction h with
  | done hd => exact .done hd
  | block hd hr _ ih =>
    exact .block hd (hr.frame hn (hs _ (by simp))) (ih fun x hx => hs x (by simp [hx]))

theorem visible : MaramOS.visible es = es := by
  induction h with
  | done => rfl
  | block _ _ _ ih => rw [visible_append, Sector.slots, visible_visible, ih]

theorem cons_of_direct (hd : ptr.isDirect = true) :
    ∃ rest, chain = ptr.start :: rest := by
  cases h with
  | done hd' => simp [hd] at hd'
  | block => exact ⟨_, rfl⟩

theorem collectChain (h0 : 0 ∉ chain) (k : ℕ) (hk : chain.length < k) :
    MaramOS.collectChain d k ptr = .ok chain := by
  induction h generalizing k with
  | done hd =>
    obtain ⟨k, rfl⟩ := Nat.exists_eq_succ_of_ne_zero (by omega : k ≠ 0)
    simp [MaramOS.collectChain, hd]
  | @block ptr sec chain es hd hr _ ih =>
    obtain ⟨k, rfl⟩ := Nat.exists_eq_succ_of_ne_zero (by omega : k ≠ 0)
    simp only [mem_cons, not_or] at h0
    have hv : ptr.isValid = true := by simpa [LinkPointer.isValid] using Ne.symm h0.1
    have hlen : chain.length < k := by simpa using hk
    simp only [MaramOS.collectChain, hv, hd, LinkPointer.read, hr.read, bind, Except.bind, ih h0.2 k hlen]
    rfl

theorem addChildrenFromLink (hread : Readable d es) (k : ℕ) (hk : chain.length < k) :
    ∃ cs, MaramOS.addChildrenFromLink d k ptr = .ok cs ∧ cs.map slotOf = es ∧
      ∀ c ∈ cs, Parsed d c := by
  induction h generalizing k with
  | done hd =>
    obtain ⟨k, rfl⟩ := Nat.exists_eq_succ_of_ne_zero (by omega : k ≠ 0)
    exact ⟨[], by simp [MaramOS.addChildrenFromLink, hd], rfl, by simp⟩
  | @block ptr sec chain es hd hr _ ih =>
    obtain ⟨k, rfl⟩ := Nat.exists_eq_succ_of_ne_zero (by omega : k ≠ 0)
    have hlen : chain.length < k := by simpa using hk
    obtain ⟨cs, hcs, hslots, hall⟩ := parseEntries_spec (d := d) (ofFn (DirBlock.decode sec).entries)
      fun e he => hread e (mem_append_left _ he)
    obtain ⟨cs', hcs', hslots', hall'⟩ := ih (fun e he => hread e (mem_append_right _ he)) k hlen
    refine ⟨cs ++ cs', ?_, by rw [map_append, hslots, hslots']; rfl, ?_⟩
    · simp only [MaramOS.addChildrenFromLink, hd, LinkPointer.read, hr.read, bind, Except.bind, hcs, hcs']
      rfl
    · intro c hc
      rcases mem_append.1 hc with hc | hc
      · exact hall c hc
      · exact hall' c hc

theorem openAt (hd : ptr.isDirect = true) (hread : Readable d es) (hlen : chain.length ≤ d.sectorCount)
    (name : Filename) :
    ∃ dir, Directory.openAt d name ptr = .ok dir ∧ dir.head = ptr ∧ dir.name = name ∧
      dir.children.map slotOf = es ∧ ∀ c ∈ dir.children, Parsed d c := by
  obtain ⟨cs, hcs, hslots, hall⟩ := h.addChildrenFromLink hread d.fuel (by unfold Disk.fuel; omega)
  cases h with
  | done hd' => simp [hd] at hd'
  | @block _ sec _ _ _ hr _ =>
    refine ⟨⟨name, (DirBlock.decode sec).parent, cs, ptr⟩, ?_, rfl, rfl, hslots, hall⟩
    simp only [Directory.openAt, Directory.fromDirBlock, LinkPointer.read, hr.read, bind, Except.bind, hcs]
    rfl

end

end DirChain

theorem Agree.refl (es : List Slot) : Agree es es :=
  forall₂_same.2 fun _ _ => ⟨rfl, rfl, fun _ => rfl⟩

namespace Owns

variable {d d' : Disk} {es es' : List Slot} {owned owned' : List ℕ}

theorem frame (h : Owns d es owned) (hn : d'.sectorCount = d.sectorCount)
    (hs : ∀ x ∈ owned, d'.sectors x = d.sectors x) : Owns d' es owned := by
  induction h with
  | nil => exact .nil
  | symlink hk _ ih => exact .symlink hk (ih hs)
  | file hk hlink _ ih =>
    simp only [mem_append] at hs
    exact .file hk (hlink.frame hn fun x hx => hs x (Or.inl (Or.inl hx))) (ih fun x hx => hs x (Or.inr hx))
  | directory hk hd hchain _ _ ihsub ih =>
    simp only [mem_append] at hs
    exact .directory hk hd (hchain.frame hn fun x hx => hs x (Or.inl (Or.inl hx)))
      (ihsub fun x hx => hs x (Or.inl (Or.inr hx))) (ih fun x hx => hs x (Or.inr hx))

theorem agree (h : Owns d es owned) (hes : Agree es es') : Owns d es' owned := by
  induction h generalizing es' with
  | nil =>
    cases hes
    exact .nil
  | symlink hk _ ih =>
    obtain ⟨e', es', he, hrest, rfl⟩ := forall₂_cons_left_iff.1 hes
    exact .symlink (he.2.1 ▸ hk) (ih hrest)
  | file hk hlink _ ih =>
    obtain ⟨e', es', he, hrest, rfl⟩ := forall₂_cons_left_iff.1 hes
    have heq := he.2.2 (by rw [hk]; decide)
    exact .file (he.2.1 ▸ hk) (heq ▸ hlink) (ih hrest)
  | directory hk hd hchain hsub _ _ ih =>
    obtain ⟨e', es', he, hrest, rfl⟩ := forall₂_cons_left_iff.1 hes
    have heq := he.2.2 (by rw [hk]; decide)
    exact .directory (he.2.1 ▸ hk) (heq ▸ hd) (heq ▸ hchain) hsub (ih hrest)

theorem unique (h : Owns d es owned) (h' : Owns d es owned') : owned = owned' := by
  induction h generalizing owned' with
  | nil => cases h'; rfl
  | symlink hk _ ih =>
    cases h' with
    | symlink _ hrest => exact ih hrest
    | file hk' => simp [hk] at hk'
    | directory hk' => simp [hk] at hk'
  | file hk hlink _ ih =>
    cases h' with
    | symlink hk' => simp [hk] at hk'
    | file _ hlink' hrest =>
      obtain ⟨rfl, rfl⟩ := hlink.unique hlink'
      rw [ih hrest]
    | directory hk' => simp [hk] at hk'
  | directory hk _ hchain _ _ ihsub ih =>
    cases h' with
    | symlink hk' => simp [hk] at hk'
    | file hk' => simp [hk] at hk'
    | directory _ _ hchain' hsub' hrest =>
      obtain ⟨rfl, rfl⟩ := hchain.unique hchain'
      rw [ihsub hsub', ih hrest]

theorem append (h : Owns d es owned) (h' : Owns d es' owned') : Owns d (es ++ es') (owned ++ owned') := by
  induction h with
  | nil => exact h'
  | symlink hk _ ih => exact .symlink hk ih
  | file hk hlink _ ih =>
    rw [cons_append, append_assoc]
    exact .file hk hlink ih
  | directory hk hd hchain hsub _ _ ih =>
    rw [cons_append, append_assoc]
    exact .directory hk hd hchain hsub ih

theorem split (es : List Slot) (h : Owns d (es ++ es') owned) :
    ∃ l r, owned = l ++ r ∧ Owns d es l ∧ Owns d es' r := by
  induction es generalizing owned with
  | nil => exact ⟨[], owned, rfl, .nil, h⟩
  | cons e es ih =>
    cases h with
    | symlink hk hrest =>
      obtain ⟨l, r, rfl, hl, hr⟩ := ih hrest
      exact ⟨l, r, rfl, .symlink hk hl, hr⟩
    | file hk hlink hrest =>
      obtain ⟨l, r, rfl, hl, hr⟩ := ih hrest
      exact ⟨_, r, by rw [← append_assoc], .file hk hlink hl, hr⟩
    | directory hk hd hchain hsub hrest =>
      obtain ⟨l, r, rfl, hl, hr⟩ := ih hrest
      exact ⟨_, r, by rw [← append_assoc], .directory hk hd hchain hsub hl, hr⟩

theorem readable (h : Owns d es owned) (hnodup : owned.Nodup) : Readable d es := by
  induction h with
  | nil => intro e he; simp at he
  | symlink hk _ ih =>
    intro e he hfile
    rcases mem_cons.1 he with rfl | he
    · simp [hk] at hfile
    · exact ih hnodup e he hfile
  | @file e _ ind _ _ hk hlink _ ih =>
    intro e' he hfile
    rcases mem_cons.1 he with rfl | he
    · have hind : ind.Nodup := (nodup_append.1 (nodup_append.1 hnodup).1).1
      exact ⟨_, hlink.resolveLinks (length_le_of_nodup hind fun x hx => (hlink.mem_ind x hx).2)⟩
    · exact ih (nodup_append.1 hnodup).2.1 e' he hfile
  | directory hk _ _ _ _ _ ih =>
    intro e he hfile
    rcases mem_cons.1 he with rfl | he
    · simp [hk] at hfile
    · exact ih (nodup_append.1 hnodup).2.1 e he hfile

/-- A directory of the forest, wherever it stands, can be replaced: its blocks
and what is below it are a part of the owned sectors, and the rest of the forest
does not depend on that part. -/
theorem focus (h : Owns d es owned) {e : Slot} (hin : SlotIn d es e) (hk : e.kind = .directory) :
    ∃ before chain slots inner after, owned = before ++ (chain ++ inner) ++ after ∧
      e.link.isDirect = true ∧ DirChain d e.link chain slots ∧ Owns d slots inner ∧
      ∀ (d' : Disk) (chain' : List ℕ) (slots' : List Slot) (inner' : List ℕ),
        d'.sectorCount = d.sectorCount → (∀ x ∈ before ++ after, d'.sectors x = d.sectors x) →
        DirChain d' e.link chain' slots' → Owns d' slots' inner' →
        Owns d' es (before ++ (chain' ++ inner') ++ after) := by
  induction hin generalizing owned with
  | here hmem =>
    obtain ⟨l, r, rfl⟩ := append_of_mem hmem
    obtain ⟨before, rest, rfl, hl, hr⟩ := h.split
    cases hr with
    | symlink hk' => simp [hk] at hk'
    | file hk' => simp [hk] at hk'
    | @directory _ _ slots chain inner after _ hd hchain hsub hafter =>
      refine ⟨before, chain, slots, inner, after, by rw [append_assoc before], hd, hchain, hsub, ?_⟩
      intro d' chain' slots' inner' hn hs hchain' hsub'
      rw [append_assoc before]
      exact (hl.frame hn fun x hx => hs x (mem_append_left _ hx)).append
        (.directory hk hd hchain' hsub' (hafter.frame hn fun x hx => hs x (mem_append_right _ hx)))
  | @inside es sub dir e chain0 hmem hkd hchain0 _ ih =>
    obtain ⟨l, r, rfl⟩ := append_of_mem hmem
    obtain ⟨o, rest, rfl, hl, hr⟩ := h.split
    cases hr with
    | symlink hk' => simp [hkd] at hk'
    | file hk' => simp [hkd] at hk'
    | @directory _ _ sub' chain1 inner1 o' _ hd1 hchain1 hsub hrest =>
      obtain ⟨rfl, rfl⟩ := hchain0.unique hchain1
      obtain ⟨before, chain, slots, inner, after, rfl, hd, hchain, hslots, hput⟩ := ih hsub hk
      refine ⟨o ++ chain0 ++ before, chain, slots, inner, after ++ o', by simp, hd, hchain, hslots, ?_⟩
      intro d' chain' slots' inner' hn hs hchain' hslots'
      simp only [mem_append] at hs
      have hl' := hl.frame hn fun x hx => hs x (Or.inl (Or.inl (Or.inl hx)))
      have hdir := hchain1.frame hn fun x hx => hs x (Or.inl (Or.inl (Or.inr hx)))
      have hsub' := hput d' chain' slots' inner' hn (fun x hx => hs x (by
        rcases mem_append.1 hx with hx | hx
        · exact Or.inl (Or.inr hx)
        · exact Or.inr (Or.inl hx))) hchain' hslots'
      have hrest' := hrest.frame hn fun x hx => hs x (Or.inr (Or.inr hx))
      have := hl'.append (Owns.directory hkd hd1 hdir hsub' hrest')
      simpa using this

end Owns

end MaramOS
