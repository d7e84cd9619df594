import MaramOS.Proofs.Sample

/-! Two spellings of one path. The calls look at the components of a path, except
that the root is recognised by its text. -/

namespace MaramOS

open LemonFS

variable {p q : Path} {fs : LemonFS}

/-- Both spellings give the same result and the same state in every call. -/
structure SameCalls (p q : Path) (fs : LemonFS) : Prop where
  create : ∀ flags, LemonFS.create p flags fs = LemonFS.create q flags fs
  delete : LemonFS.delete p fs = LemonFS.delete q fs
  list : fs.list p = fs.list q
  fileSize : fs.fileSize p = fs.fileSize q
  read : ∀ dest, fs.read p dest = fs.read q dest
  write : ∀ src, LemonFS.write p src fs = LemonFS.write q src fs

theorem Path.parent_congr (h : p.components = q.components) : p.parent = q.parent := by
  rw [parent, parent, h]

theorem Path.name_congr (h : p.components = q.components) : p.name = q.name := by
  rw [name, name, h]

theorem Path.components_of_isRoot (h : p.isRoot = true) : p.components = [] := by
  rw [components, beq_iff_eq.1 h]
  rfl

theorem sameCalls_of_isRoot (h : p.components = q.components) (hroot : p.isRoot = q.isRoot) (fs : LemonFS) :
    SameCalls p q fs := by
  have hparent := Path.parent_congr h
  have hname := Path.name_congr h
  have hwalk : ∀ fs : LemonFS, fs.getParent p = fs.getParent q := fun fs => by rw [getParent, getParent, hparent]
  constructor
  · intro flags
    simp only [LemonFS.create, hroot, hparent, hname, hwalk]
  · simp only [LemonFS.delete, hroot, hparent, hname, hwalk]
  · simp only [LemonFS.list, hroot, hname, hwalk]
  · simp only [LemonFS.fileSize, hroot, hname, hwalk]
  · intro dest
    simp only [LemonFS.read, hroot, hname, hwalk]
  · intro src
    simp only [LemonFS.write, hroot, hparent, hname, hwalk]

theorem fileSize_of_no_components (hroot : p.isRoot = false) (h : p.components = []) (hempty : fs.root = []) :
    fs.fileSize p = .error (.fs .fileNotFound) ∧ fs.list p = .error (.fs .fileNotFound) := by
  have hpar : fs.getParent p = .ok fs.rootDir := getParent_root ((p.isRoot_parent).2 (by rw [h]; rfl))
  have hget : fs.rootDir.getChild p.name = none := getChild_rootDir hempty rfl
  constructor
  · rw [fileSize, hroot, hpar]
    simp only [Bool.false_eq_true, if_false, ok_bind, hget]
  · rw [list, hroot, hpar]
    simp only [Bool.false_eq_true, if_false, ok_bind, hget]

theorem fileSize_of_isRoot (hroot : p.isRoot = true) : fs.fileSize p = .error (.fs .isRoot) := by
  rw [fileSize, hroot]
  rfl

theorem exists_empty_root : ∃ fs : LemonFS, fs.root = [] := by
  obtain ⟨s, hs⟩ := exists_blank
  exact ⟨s, hs.facts.root⟩

theorem isRoot_eq_of_fileSize (h : p.components = q.components) (hempty : fs.root = [])
    (hsize : fs.fileSize p = fs.fileSize q) (hp : p.isRoot = true) : q.isRoot = true := by
  by_contra hq
  rw [Bool.not_eq_true] at hq
  have hnone : q.components = [] := h.symm.trans (Path.components_of_isRoot hp)
  rw [fileSize_of_isRoot hp, (fileSize_of_no_components hq hnone hempty).1] at hsize
  cases hsize

/-- Two spellings of one list of components are the same in every call and every state exactly if both
or none of them is the text `/`. -/
theorem spelling_iff (h : p.components = q.components) : (∀ fs, SameCalls p q fs) ↔ p.isRoot = q.isRoot := by
  refine ⟨fun hsame => ?_, fun hroot fs => sameCalls_of_isRoot h hroot fs⟩
  obtain ⟨fs, hempty⟩ := exists_empty_root
  have hsize := (hsame fs).fileSize
  rw [Bool.eq_iff_iff]
  exact ⟨isRoot_eq_of_fileSize h hempty hsize, isRoot_eq_of_fileSize h.symm hempty hsize.symm⟩

/-- `/a/b` and `a//./b/`. -/
theorem spelling_iff_a_b :
    Path.components ⟨[0x2F, 0x61, 0x2F, 0x62]⟩ = Path.components ⟨[0x61, 0x2F, 0x2F, 0x2E, 0x2F, 0x62, 0x2F]⟩ ∧
      ∀ fs, SameCalls ⟨[0x2F, 0x61, 0x2F, 0x62]⟩ ⟨[0x61, 0x2F, 0x2F, 0x2E, 0x2F, 0x62, 0x2F]⟩ fs :=
  ⟨by decide, (spelling_iff (by decide)).2 (by decide)⟩

/-- The empty text and `//` have no components either, and are not taken for the root. -/
theorem double_slash_not_root :
    ∃ fs : LemonFS, Fresh (disk4101 fun _ => Sector.zero) fs ∧
      fs.list ⟨[0x2F]⟩ = .ok [] ∧ fs.list ⟨[0x2F, 0x2F]⟩ = .error (.fs .fileNotFound) ∧
      fs.list ⟨[]⟩ = .error (.fs .fileNotFound) ∧
      Path.components ⟨[0x2F]⟩ = Path.components ⟨[0x2F, 0x2F]⟩ ∧ Path.components ⟨[0x2F]⟩ = Path.components ⟨[]⟩ := by
  obtain ⟨s, hs⟩ := exists_blank
  have hempty := hs.facts.root
  have hlist : s.list ⟨[0x2F]⟩ = .ok [] := by
    rw [list, hempty]
    rfl
  exact ⟨s, hs, hlist, (fileSize_of_no_components rfl (by decide) hempty).2,
    (fileSize_of_no_components rfl (by decide) hempty).2, by decide, by decide⟩

end MaramOS
