import MaramOS.Proofs.Focus

/-! Paths and the walk of `get_parent`. The walk starts at the cached root and
parses every directory it enters, so the directory it ends in is the root or one
whose children are what the disk holds. -/

namespace MaramOS

open List

theorem splitSlash_ne_nil (s : Str) : splitSlash s ≠ [] := by
  cases s with
  | nil => simp [splitSlash]
  | cons c cs =>
    rw [splitSlash]
    split_ifs
    · simp
    · split <;> simp

theorem splitSlash_append (w rest : Str) (hw : 0x2F ∉ w) :
    splitSlash (w ++ 0x2F :: rest) = w :: splitSlash rest := by
  induction w with
  | nil => rw [nil_append, splitSlash, if_pos rfl]
  | cons c w ih =>
    simp only [mem_cons, not_or] at hw
    rw [cons_append, splitSlash, if_neg (Ne.symm hw.1), ih hw.2]

theorem not_mem_of_splitSlash (s : Str) : ∀ w ∈ splitSlash s, (0x2F : UInt8) ∉ w := by
  induction s with
  | nil => simp [splitSlash]
  | cons c cs ih =>
    rw [splitSlash]
    split_ifs with hc
    · intro w hw
      rcases mem_cons.1 hw with rfl | hw
      · simp
      · exact ih w hw
    · cases hsplit : splitSlash cs with
      | nil => exact absurd hsplit (splitSlash_ne_nil cs)
      | cons u us =>
        rw [hsplit] at ih
        intro w hw
        rcases mem_cons.1 hw with rfl | hw
        · simp only [mem_cons, not_or]
          exact ⟨Ne.symm hc, ih u (by simp)⟩
        · exact ih w (by simp [hw])

namespace Path

theorem components_fromVec (parts : List Str)
    (h : ∀ w ∈ parts, 0x2F ∉ w ∧ (!w.isEmpty && w != [0x2E]) = true) : (fromVec parts).components = parts := by
  have hsplit : ∀ parts : List Str, (∀ w ∈ parts, 0x2F ∉ w) →
      splitSlash (parts.flatMap (· ++ [0x2F])) = parts ++ [[]] := by
    intro parts
    induction parts with
    | nil => intro _; rfl
    | cons w parts ih =>
      intro hparts
      rw [flatMap_cons, append_assoc, singleton_append, splitSlash_append _ _ (hparts w (by simp)),
        ih fun u hu => hparts u (by simp [hu])]
      rfl
  rw [components, fromVec, splitSlash, if_pos rfl, hsplit parts fun w hw => (h w hw).1,
    filter_cons_of_neg (by simp), filter_append, filter_eq_self.2 fun w hw => (h w hw).2]
  simp

variable {p : Path} {w : Str}

theorem mem_components (h : w ∈ p.components) :
    0x2F ∉ w ∧ (!w.isEmpty && w != [0x2E]) = true := by
  obtain ⟨hw, hkeep⟩ := mem_filter.1 h
  exact ⟨not_mem_of_splitSlash p.text w hw, hkeep⟩

theorem component_ne_nil (h : w ∈ p.components) : w ≠ [] := by
  rintro rfl
  exact absurd (mem_components h).2 (by decide)

@[simp] theorem components_parent (p : Path) : p.parent.components = p.components.dropLast :=
  components_fromVec _ fun _ hw => mem_components (dropLast_subset _ hw)

theorem isRoot_parent (p : Path) : p.parent.isRoot = true ↔ p.components.dropLast = [] := by
  simp only [isRoot, parent, fromVec, beq_iff_eq, List.cons.injEq, true_and]
  cases p.components.dropLast with
  | nil => simp
  | cons w parts => simp

theorem name_ne_nil (p : Path) : p.name ≠ [] := by
  unfold name
  cases h : p.components.getLast? with
  | none => simp
  | some w =>
    have := (mem_components (List.mem_of_getLast? h)).2
    rw [Option.getD_some]
    rintro rfl
    simp at this

end Path

theorem Filename.toStr_of_isEmpty {n : Filename} (h : n.isEmpty = true) : n.toStr = [] := by
  have hzero : (ofFn n).filter (· ≠ 0) = [] := by
    rw [filter_eq_nil_iff]
    intro b hb
    have := all_eq_true.1 h b hb
    simpa using this
  rw [toStr, hzero]
  rfl

theorem DirectoryEntry.visible_of_name {c : DirectoryEntry} {p : Path} (h : c.name = p.name) :
    c.slot.name.isEmpty = false := by
  have hslot : c.slot.name = c.filename := by cases c <;> rfl
  rw [hslot, Bool.eq_false_iff]
  intro hempty
  exact p.name_ne_nil (h ▸ Filename.toStr_of_isEmpty hempty)

theorem SlotIn.trans {d : Disk} {es sub : List Slot} {dir e : Slot} {chain : List ℕ} (h : SlotIn d es dir)
    (hk : dir.kind = .directory) (hchain : DirChain d dir.link chain sub) (he : SlotIn d sub e) : SlotIn d es e := by
  induction h with
  | here hmem => exact .inside hmem hk hchain he
  | inside hmem hk' hchain' _ ih => exact .inside hmem hk' hchain' (ih hk hchain)

namespace LemonFS

variable {s : LemonFS} {p : Path} {d : Disk} {dir : Directory} {name : Filename} {ptr : LinkPointer}
  {chain0 owned0 : List ℕ} {es : List Slot}

theorem getParent_root (h : p.parent.isRoot = true) : s.getParent p = .ok s.rootDir := by
  rw [getParent, Path.components_parent, (p.isRoot_parent).1 h]
  rfl

theorem getChild_rootDir {l : List DirectoryEntry} {name : Str} {found : Option DirectoryEntry} (hroot : s.root = l)
    (h : l.find? (fun e => e.name == name) = found) : s.rootDir.getChild name = found := by
  rw [Directory.getChild, rootDir, hroot]
  exact h

theorem enter_ok {dir' : Directory} {c : Str} (h : enter d dir c = .ok dir') :
    ∃ name ptr, Directory.openAt d name ptr = .ok dir' ∧
      ((∃ n, dir.getChild c = some (.directory n ptr)) ∨ ∃ n, dir.getChild c = some (.symLink n ptr)) := by
  unfold enter at h
  split at h
  · cases h
  · cases h
  · rename_i n dest hchild
    exact ⟨_, _, h, Or.inr ⟨n, hchild⟩⟩
  · rename_i n link hchild
    exact ⟨_, _, h, Or.inl ⟨n, hchild⟩⟩

theorem openAt_ok (h : Directory.openAt d name ptr = .ok dir) :
    dir.head = ptr ∧ addChildrenFromLink d d.fuel ptr = .ok dir.children := by
  simp only [Directory.openAt, Directory.fromDirBlock] at h
  cases hread : ptr.read d with
  | error e => rw [hread] at h; cases h
  | ok sec =>
    rw [hread] at h
    simp only [bind, Except.bind] at h
    cases hadd : addChildrenFromLink d d.fuel ptr with
    | error e => rw [hadd] at h; cases h
    | ok cs =>
      rw [hadd] at h
      cases h
      exact ⟨rfl, rfl⟩

theorem getParent_sub (hp : p.parent.isRoot = false) (h : s.getParent p = .ok dir) :
    ∃ name ptr, Directory.openAt s.disk name ptr = .ok dir := by
  have hne : p.parent.components ≠ [] := by
    rw [Path.components_parent]
    intro hnil
    rw [(p.isRoot_parent).2 hnil] at hp
    cases hp
  rw [getParent] at h
  obtain ⟨pre, c, hsplit⟩ := eq_nil_or_concat _ |>.resolve_left hne
  rw [hsplit, concat_eq_append, foldlM_append] at h
  cases hpre : pre.foldlM (enter s.disk) s.rootDir with
  | error e => rw [hpre] at h; cases h
  | ok dir0 =>
    rw [hpre] at h
    simp only [bind, Except.bind, foldlM_cons, foldlM_nil] at h
    cases hlast : enter s.disk dir0 c with
    | error e => rw [hlast] at h; cases h
    | ok dir' =>
      rw [hlast] at h
      cases h
      obtain ⟨name, ptr, hopen, -⟩ := enter_ok hlast
      exact ⟨name, ptr, hopen⟩

theorem Holds.openAt_live (h : s.Holds chain0 es owned0) (hlive : LiveDir s.disk es ptr) (name : Filename) :
    ∃ dir, Directory.openAt s.disk name ptr = .ok dir ∧ Opened s es dir := by
  obtain ⟨e, hin, hk, hlink⟩ := hlive
  obtain ⟨before, chain, slots, inner, after, hsplit, hd, hchain, howns, -⟩ := h.owns.focus hin hk
  have hnodup := (nodup_append.1 h.nodup).2.1
  rw [hsplit] at hnodup
  have hpart := (nodup_append.1 (nodup_append.1 hnodup).1).2.1
  obtain ⟨hnchain, hninner, -⟩ := nodup_append.1 hpart
  rw [hlink] at hd hchain
  obtain ⟨dir, hopen, hhead, -, hslots, hparsed⟩ := hchain.openAt hd (howns.readable hninner)
    (length_le_of_nodup hnchain hchain.mem_lt) name
  exact ⟨dir, hopen, .sub ⟨e, hin, hk, hlink.trans hhead.symm⟩ (by rwa [hhead]) hslots hparsed⟩

theorem Holds.opened (h : s.Holds chain0 es owned0) (hopen : Directory.openAt s.disk name ptr = .ok dir)
    (hlive : LiveDir s.disk es ptr) : Opened s es dir := by
  obtain ⟨dir', hopen', ho⟩ := h.openAt_live hlive name
  rw [hopen] at hopen'
  cases hopen'
  exact ho

theorem fromDirEntry_link {e : DirEntry} {c : DirectoryEntry} (h : DirectoryEntry.fromDirEntry d e = .ok c) :
    c.slot.link = e.link := by
  unfold DirectoryEntry.fromDirEntry File.fromDirEntry at h
  split_ifs at h
  · cases h
    rfl
  · cases h
    rfl
  · cases h
  · cases hlinks : resolveLinks d e.link with
    | error err =>
      rw [hlinks] at h
      cases h
    | ok links =>
      rw [hlinks] at h
      cases h
      rfl

theorem parseEntries_fits (es : List DirEntry) (hes : ∀ e ∈ es, e.link.Fits) :
    ∀ cs, parseEntries d es = .ok cs → ∀ c ∈ cs, c.slot.link.Fits := by
  induction es with
  | nil =>
    intro cs hcs c hc
    cases hcs
    cases hc
  | cons e es ih =>
    have ih := ih fun e' he' => hes e' (mem_cons_of_mem _ he')
    intro cs hcs
    rw [parseEntries] at hcs
    split_ifs at hcs with hempty
    · exact ih cs hcs
    split at hcs
    · rename_i child hchild
      cases hrest : parseEntries d es with
      | error err =>
        rw [hrest] at hcs
        cases hcs
      | ok rest =>
        rw [hrest] at hcs
        cases hcs
        intro c hc
        rcases mem_cons.1 hc with rfl | hc
        · rw [fromDirEntry_link hchild]
          exact hes e mem_cons_self
        · exact ih rest hrest c hc
    · exact ih cs hcs
    · cases hcs

theorem addChildrenFromLink_fits (k : ℕ) : ∀ (ptr : LinkPointer) (cs : List DirectoryEntry),
    addChildrenFromLink d k ptr = .ok cs → ∀ c ∈ cs, c.slot.link.Fits := by
  induction k with
  | zero =>
    intro ptr cs h
    cases h
  | succ k ih =>
    intro ptr cs h
    rw [addChildrenFromLink] at h
    split_ifs at h
    · cases h
      simp
    cases hread : ptr.read d with
    | error e =>
      rw [hread] at h
      cases h
    | ok sec =>
    cases hhere : parseEntries d (ofFn (DirBlock.decode sec).entries) with
    | error e =>
      simp only [hread, bind, Except.bind, hhere] at h
      cases h
    | ok here =>
    cases hrest : addChildrenFromLink d k (DirBlock.decode sec).next with
    | error e =>
      simp only [hread, bind, Except.bind, hhere, hrest] at h
      cases h
    | ok rest =>
      simp only [hread, bind, Except.bind, hhere, hrest] at h
      cases h
      intro c hc
      rcases mem_append.1 hc with hc | hc
      · refine parseEntries_fits _ (fun e he => ?_) here hhere c hc
        obtain ⟨i, rfl⟩ := mem_ofFn.1 he
        exact DirBlock.fits_decode_entry sec i
      · exact ih _ rest hrest c hc

theorem getParent_fits (hroot : ∀ c ∈ s.root, c.slot.link.Fits) (h : s.getParent p = .ok dir) :
    ∀ c ∈ dir.children, c.slot.link.Fits := by
  cases hp : p.parent.isRoot with
  | true =>
    rw [getParent_root hp] at h
    cases h
    exact hroot
  | false =>
    obtain ⟨name, ptr, hopen⟩ := getParent_sub hp h
    exact addChildrenFromLink_fits _ _ _ (openAt_ok hopen).2

end LemonFS

end MaramOS
