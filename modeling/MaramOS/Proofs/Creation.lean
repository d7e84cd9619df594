import MaramOS.Proofs.Effects
import MaramOS.Proofs.Sample

/-! What a `create` leaves behind: a new directory is empty, a new entry can be
found again, and no directory lists a name twice. All of it rests on the stored
name being the one that was asked for, which is cut to 36 bytes, and on the sector
of a new directory, which is not written. -/

namespace MaramOS

open List Prog Volume LemonFS
open DirectoryEntry (filename new slot_name)
open DirectoryEntry renaming slot → slotOf
open Filename (fromStr)

variable {s s' : LemonFS} {c : Call} {r : Except Fault Unit} {path : Path}

/-- The name of a new entry survives the 36-byte buffer. -/
def Call.Named : Call → Prop
  | .create path _ => (fromStr path.name).toStr = path.name
  | _ => True

theorem name_new {name : Str} (h : (fromStr name).toStr = name) (start : ℕ) (kind : FileType) :
    (new (fromStr name) start kind).name = name := by
  cases kind with
  | file =>
    show (fromStr (fromStr name).toStr).toStr = name
    rw [h, h]
  | directory => exact h
  | symlink => exact h

theorem lookup_new {l : List DirectoryEntry} {start : ℕ} {kind : FileType}
    (hname : (fromStr path.name).toStr = path.name) (habsent : ∀ x ∈ l, x.name ≠ path.name) :
    lookup (visible ((l ++ [new (fromStr path.name) start kind]).map slotOf))
      path.name = some (new (fromStr path.name) start kind).slot := by
  have hnew := name_new hname start kind
  have hnone : (l.map slotOf).find? (fun e => e.name.toStr == path.name) = none := by
    rw [List.find?_eq_none]
    intro e he heq
    obtain ⟨x, hx, rfl⟩ := mem_map.1 he
    rw [slot_name] at heq
    exact habsent x hx (by simpa using heq)
  rw [lookup_visible path.name_ne_nil, lookup, map_append, List.find?_append, hnone, Option.none_or, map_cons,
    List.find?_cons_of_pos]
  rw [slot_name, hnew]
  simp

theorem list_of_directory {dir sub : Directory} {name : Filename} {link : LinkPointer} (hroot : path.isRoot = false)
    (hpar : s.getParent path = .ok dir) (hget : dir.getChild path.name = some (.directory name link))
    (hopen : Directory.openAt s.disk name link = .ok sub) :
    s.list path = .ok (sub.children.map DirectoryEntry.name) := by
  rw [LemonFS.list, hroot, if_neg Bool.false_ne_true, hpar, ok_bind, hget]
  simp only [hopen]
  rfl

/-- A successful call on a plain path, in which a new directory gets an empty block. -/
def Call.Clean (s : LemonFS) (c : Call) (r : Except Fault Unit) : Prop :=
  r = .ok () ∧ c.Plain s ∧ c.Blank s

theorem inv_of_clean_runs {d : Disk} {s₀ : LemonFS} (h₀ : Fresh d s₀) (h : Runs Call.run Call.Clean s₀ s) : s.Inv := by
  refine h.invariant Inv h₀.inv ?_
  rintro s c r s' hi hrun ⟨rfl, hplain, hblank⟩
  exact (@effect_of_run _ _ _ (.ok ()) hi hplain.live hblank (fun h => by cases h) trivial hrun).inv hi

/-- After a run of successful calls from a fresh format, a new directory lists nothing. -/
theorem new_directory_empty (d : Disk) (s₀ s s' : LemonFS) (path : Path) (h₀ : Fresh d s₀)
    (hruns : Runs Call.run Call.Clean s₀ s) (hrun : create path 1 s = (.ok (), s'))
    (hplain : (Call.create path 1).Plain s) (hblank : (Call.create path 1).Blank s)
    (hname : (Filename.fromStr path.name).toStr = path.name) : s'.list path = .ok [] := by
  have hi := inv_of_clean_runs h₀ hruns
  have hcall : (Call.create path 1).run s = (.ok (), s') := hrun
  cases outcome_of_run hi hplain.live hcall with
  | @created _ _ bits dir chain₀ owned₀ before chain inner after chain' es slots start v₁ _ hloc hbits hc =>
    obtain rfl : (1 : UInt8) = bits := Option.some.inj hbits
    have hkind : FileType.fromDirflags 1 = .directory := by decide
    obtain ⟨inner', hu⟩ := hloc.created hbits hc hblank
    obtain ⟨dir', hpar, -, hshow, -⟩ := @Located.reopened _ _ _ _ _ _ _ _ _ _ _ _ _ _ _ (.create path 1) hloc hplain hu
    rw [hkind] at hc hshow
    have habsent : ∀ x ∈ dir.children, x.name ≠ path.name := by
      have hnone := hc.absent
      rw [Directory.getChild, List.find?_eq_none] at hnone
      exact fun x hx heq => hnone x hx (by simpa using heq)
    obtain ⟨child, hget, hchild⟩ := getChild_of_lookup hshow path.name_ne_nil (lookup_new hname habsent)
    obtain ⟨name, rfl⟩ := hchild.directory rfl
    -- the sector of the directory still reads as an empty block
    have ht : Takes [start] s.toVolume v₁ := by
      rcases hc.taken with ⟨hsym, -, -⟩ | ⟨-, ht⟩
      · cases hsym
      · exact ht
    have hempty : DirChain s'.disk ⟨start, 512⟩ [start] [] := by
      refine (hblank 1 start rfl hkind (head_of_takes ht)).frame hu.touches_all.shape.sectorCount fun x hx => ?_
      obtain rfl := List.mem_singleton.1 hx
      exact hc.start_same hloc.at_dir ht
    obtain ⟨sub, hopen, -, -, hslots, -⟩ := hempty.openAt rfl (fun e he => absurd he List.not_mem_nil)
      (length_le_of_nodup (List.nodup_singleton start) hempty.mem_lt) name
    rw [list_of_directory hc.notRoot hpar hget hopen, List.map_eq_nil_iff.1 hslots, List.map_nil]

/-- A directory made in the root of a partition of zeros. -/
theorem new_directory_empty_zeros :
    ∃ s₀ s', Fresh (disk4101 fun _ => Sector.zero) s₀ ∧ create ⟨[0x2F, 0x64]⟩ 1 s₀ = (.ok (), s') ∧
      s'.list ⟨[0x2F, 0x64]⟩ = .ok [] := by
  obtain ⟨s₀, h₀⟩ := exists_blank
  obtain ⟨s', hrun, -⟩ := @create_first _ ⟨[0x2F, 0x64]⟩ 1 1 .directory s₀ h₀ rfl rfl rfl (by decide)
  have hzero : s₀.disk.sectors 3 = Sector.zero := h₀.sector le_rfl (by norm_num)
  exact ⟨s₀, s', h₀, hrun, new_directory_empty _ s₀ s₀ s' ⟨[0x2F, 0x64]⟩ h₀ .start hrun (plain_of_root rfl)
    (h₀.small.blank hzero _ _) (by decide)⟩

/-- Sector 3 holds an old directory block, and a new directory placed there lists its file. -/
theorem new_directory_lists_stale_file :
    ∃ s₀ s', Fresh (disk4101 staleContent) s₀ ∧ create ⟨[0x2F, 0x64]⟩ 1 s₀ = (.ok (), s') ∧
      s'.list ⟨[0x2F, 0x64]⟩ = .ok [[0x66]] := by
  obtain ⟨s₀, h₀⟩ := exists_fresh (disk4101 staleContent) (by norm_num [disk4101])
  obtain ⟨s', hrun, hmade⟩ := @create_first _ ⟨[0x2F, 0x64]⟩ 1 1 .directory s₀ h₀ rfl rfl rfl (by decide)
  refine ⟨s₀, s', h₀, hrun, ?_⟩
  have hfill : Filled 4 s'.toVolume := hmade.filled
  have hdata : s'.disk.sectors 3 = staleBlock := by
    rw [hmade.rest 3 (by norm_num), h₀.sector le_rfl (by norm_num)]
    rfl
  have hsub := stale_listing (by rw [hfill.sectorCount]; norm_num) hdata
  have hread : Readable s'.disk [⟨fromStr [0x66], .file, ⟨4098, 512⟩⟩] := by
    intro e he _
    obtain rfl := List.mem_singleton.1 he
    exact ⟨_, rfl⟩
  obtain ⟨sub, hopen, -, -, hslots, -⟩ := hsub.openAt rfl hread
    (length_le_of_nodup (List.nodup_singleton 3) hsub.mem_lt) (fromStr [0x64])
  have hget : s'.rootDir.getChild [0x64] = some (.directory (fromStr [0x64]) ⟨3, 512⟩) := by
    rw [Directory.getChild, rootDir, hmade.root, h₀.facts.root]
    rfl
  have hnames : sub.children.map DirectoryEntry.name = [[0x66]] := by
    have hmap : sub.children.map DirectoryEntry.name =
        (sub.children.map slotOf).map fun e => e.name.toStr := by
      rw [List.map_map]
      exact List.map_congr_left fun c _ => c.slot_name.symm
    rw [hmap, hslots]
    decide
  rw [list_of_directory rfl (getParent_root rfl) hget hopen, hnames]

section Once

/-- No name twice. -/
def Distinct (es : List Slot) : Prop := (es.map fun e => e.name.toStr).Nodup

theorem Agree.distinct {es es' : List Slot} (h : Agree es es') (hes : Distinct es) : Distinct es' := by
  have hnames : es.map (fun e => e.name.toStr) = es'.map fun e => e.name.toStr := by
    induction h with
    | nil => rfl
    | cons hab _ ih => rw [map_cons, map_cons, hab.1, ih hes.of_cons]
  rwa [Distinct, ← hnames]

theorem moveLast_perm {α : Type} (l : List α) : (moveLast l).Perm l := by
  obtain rfl | ⟨init, x, rfl⟩ := eq_nil_or_concat l
  · exact List.Perm.refl _
  · have hmove : moveLast (init.concat x) = [x] ++ init := by simp [moveLast, concat_eq_append]
    rw [hmove, concat_eq_append]
    exact perm_append_comm

theorem distinct_visible (l : List DirectoryEntry) : Distinct (visible (l.map slotOf)) ↔
    (((l.map filename).filter fun n => !n.isEmpty).map Filename.toStr).Nodup := by
  have hslot : l.map filename = (l.map slotOf).map Slot.name := by
    rw [map_map]
    exact map_congr_left fun c _ => by cases c <;> rfl
  rw [Distinct, visible, hslot]
  generalize l.map slotOf = es
  rw [filter_map, map_map]
  rfl

variable {children children' : List DirectoryEntry} {path : Path} {flags : ℕ} {dir : Directory}
  {child : DirectoryEntry}

theorem Rearranged.distinct {slots : List Slot} (h : Rearranged c children children') (hc : c.Named)
    (hagree : Agree slots (visible (children.map slotOf))) (hslots : Distinct slots) :
    Distinct (visible (children'.map slotOf)) := by
  have hold := hagree.distinct hslots
  rw [distinct_visible] at hold ⊢
  cases h with
  | @appended path flags start bits l hbits habsent =>
    have hnew := name_new hc start (FileType.fromDirflags bits)
    rw [map_append, filter_append, map_append, nodup_append]
    refine ⟨hold, (nodup_singleton _).sublist (filter_sublist.map _), ?_⟩
    rintro n hn _ hn' rfl
    obtain ⟨name, hname, rfl⟩ := mem_map.1 hn
    obtain ⟨x, hx, rfl⟩ := mem_map.1 (mem_of_mem_filter hname)
    obtain ⟨name', hname', heq⟩ := mem_map.1 hn'
    obtain rfl := mem_singleton.1 (mem_of_mem_filter hname')
    exact habsent x hx (heq.symm.trans hnew)
  | @rewritten path src l1 l2 f f' hname =>
    have hsame : (l1 ++ .file f' :: l2).map filename =
        (l1 ++ .file f :: l2).map filename := by simp [filename, hname]
    rwa [hsame]
  | @removed path l1 l2 x =>
    have hsub : (l1 ++ l2).Sublist (l1 ++ x :: l2) := (sublist_cons_self x l2).append_left l1
    have hperm : (l1 ++ moveLast l2).Perm (l1 ++ l2) := (moveLast_perm l2).append_left l1
    refine ((((hperm.map _).filter _).map _).nodup_iff).2 (hold.sublist ?_)
    exact ((hsub.map _).filter _).map _
  | @retargeted symlink dest l1 l2 name old target =>
    have hsame : (l1 ++ .symLink name target :: l2).map filename =
        (l1 ++ .symLink name old :: l2).map filename := by simp [filename]
    rwa [hsame]

def Shown (l : List DirectoryEntry) : Prop := ∀ x ∈ l, x.slot.name.isEmpty = false

theorem Rearranged.shown (h : Rearranged c children children') (hc : c.Named) (hold : Shown children) :
    Shown children' := by
  cases h with
  | @appended path flags start bits l hbits habsent =>
    intro x hx
    rcases mem_append.1 hx with hx | hx
    · exact hold x hx
    · obtain rfl := mem_singleton.1 hx
      exact DirectoryEntry.visible_of_name (name_new hc start _)
  | @rewritten path src l1 l2 f f' hname =>
    intro x hx
    simp only [Shown, mem_append, mem_cons] at hx hold
    rcases hx with hx | rfl | hx
    · exact hold x (Or.inl hx)
    · have hf := hold (.file f) (Or.inr (Or.inl rfl))
      simp only [slotOf] at hf ⊢
      rwa [hname]
    · exact hold x (Or.inr (Or.inr hx))
  | removed =>
    intro x hx
    simp only [Shown, mem_append, mem_cons, mem_moveLast] at hx hold
    exact hold x (hx.imp id Or.inr)
  | @retargeted symlink dest l1 l2 name old target =>
    intro x hx
    simp only [Shown, mem_append, mem_cons] at hx hold
    rcases hx with hx | rfl | hx
    · exact hold x (Or.inl hx)
    · exact hold (.symLink name old) (Or.inr (Or.inl rfl))
    · exact hold x (Or.inr (Or.inr hx))

theorem visible_of_shown {l : List DirectoryEntry} (h : Shown l) :
    visible (l.map slotOf) = l.map slotOf := by
  rw [visible, filter_eq_self]
  intro e he
  obtain ⟨x, hx, rfl⟩ := mem_map.1 he
  rw [h x hx]
  rfl

theorem shown_of_cached {root : List DirectoryEntry} (h : Cached children root) (hc : Shown children) :
    Shown root := by
  have hlen := h.agree.length_eq
  rw [visible_of_shown hc, length_map, ← h.length] at hlen
  have hall : visible (root.map slotOf) = root.map slotOf := by
    rw [visible, filter_eq_self, ← length_filter_eq_length_iff]
    rw [visible] at hlen
    rw [← hlen, length_map]
  intro x hx
  have := filter_eq_self.1 hall x.slot (mem_map_of_mem hx)
  simpa using this

theorem Effect.shown (h : Effect s c r s') (hc : c.Named) (hold : Shown s.root) : Shown s'.root := by
  cases h with
  | untouched _ _ hroot => rwa [hroot]
  | @changed dir _ _ _ _ _ _ _ _ _ _ _ _ _ hloc hu _ hre =>
    by_cases hhead : dir.head = s.rootPtr
    · have hchildren : dir.children = s.root := by
        rw [hloc.root_eq hhead]
        rfl
      rw [hchildren] at hre
      exact shown_of_cached (hu.cached hhead) (hre.shown hc hold)
    · rwa [hu.uncached hhead]

/-- The path names the root or a directory of the tree. -/
def LemonFS.IsDirectory (s : LemonFS) (path : Path) : Prop :=
  path.isRoot = true ∨ path.isRoot = false ∧ ∃ chain es ptr sub e, DirChain s.disk s.rootPtr chain es ∧
    Leads s.disk s.rootPtr es path.parent.components ptr sub ∧ lookup sub path.name = some e ∧ e.kind = .directory

theorem names_of_slots (l : List DirectoryEntry) :
    l.map DirectoryEntry.name = (l.map slotOf).map fun e => e.name.toStr := by
  rw [map_map]
  exact map_congr_left fun c _ => c.slot_name.symm

theorem list_distinct (hi : s.Inv) (hdistinct : Listings Distinct s) (hshown : Shown s.root) (h : s.IsDirectory path) :
    ∃ names, s.list path = .ok names ∧ names.Nodup := by
  obtain ⟨chain₀, es0, owned, hh, hagree, -⟩ := hi.tree
  rcases h with hroot | ⟨hroot, chain, es, ptr, sub, e, hlisting, hleads, hl, hk⟩
  · refine ⟨s.root.map DirectoryEntry.name, by rw [LemonFS.list, if_pos hroot], ?_⟩
    rw [visible_of_shown hshown] at hagree
    rw [names_of_slots]
    exact hagree.distinct (hdistinct _ _ _ hh.listing .here)
  · obtain ⟨-, rfl⟩ := hlisting.unique hh.listing
    have hnodup := (nodup_append.1 hh.nodup).2.1
    obtain ⟨dir, hpar, -, hshow, -⟩ := hleads.walk hh.owns hnodup (fun _ hc => Path.component_ne_nil hc)
      (show s.rootDir.head = _ from rfl) hagree
    obtain ⟨child, hget, hchild⟩ := getChild_of_lookup hshow path.name_ne_nil hl
    obtain ⟨name, rfl⟩ := hchild.directory hk
    obtain ⟨inner, howns, hn, -⟩ := hleads.owns hh.owns hnodup
    obtain ⟨own, hown, hsub⟩ := howns.of_mem (lookup_some hl).1
    obtain ⟨chain', sub', inner', rfl, hd, hchain', hinner'⟩ := hown.directory_inv hk
    obtain ⟨hn1, hn2, -⟩ := nodup_append.1 (hn.sublist hsub)
    obtain ⟨dir', hopen, -, -, hslots, -⟩ := hchain'.openAt hd (hinner'.readable hn2)
      (length_le_of_nodup hn1 hchain'.mem_lt) name
    refine ⟨_, list_of_directory hroot hpar hget hopen, ?_⟩
    rw [names_of_slots, hslots]
    refine hdistinct _ _ _ hlisting (hleads.to_below.trans ?_)
    exact .inside (lookup_some hl).1 hk hchain' .here

/-- A call on a plain path that returns, whose new entry keeps its name, with an empty block for a
new directory and room for a file with link blocks. -/
def Call.Proper (s : LemonFS) (c : Call) (r : Except Fault Unit) : Prop :=
  c.Named ∧ c.Plain s ∧ c.Blank s ∧ c.Roomy s ∧ Call.Returns r

theorem distinct_of_runs {d : Disk} {s₀ : LemonFS} (h₀ : Fresh d s₀) (h : Runs Call.run Call.Proper s₀ s) :
    s.Inv ∧ Listings Distinct s ∧ Shown s.root := by
  refine h.invariant (fun s => s.Inv ∧ Listings Distinct s ∧ Shown s.root) ⟨h₀.inv, ?_, ?_⟩ ?_
  · intro chain es sub hlisting hbelow
    obtain ⟨-, rfl⟩ := hlisting.unique h₀.facts.holds.listing
    cases hbelow with
    | here => exact nodup_nil
    | inside hmem => cases hmem
  · rw [h₀.facts.root]
    exact fun x hx => absurd hx not_mem_nil
  · rintro s c r s' ⟨hi, hdistinct, hshown⟩ hrun ⟨hnamed, hplain, hblank, hroom, hret⟩
    have heffect := effect_of_run hi hplain.live hblank (fun _ => hroom) hret hrun
    exact ⟨heffect.inv hi, heffect.listings hi hplain hdistinct nodup_nil
      fun _ _ _ hre hagree hslots => hre.distinct hnamed hagree hslots, heffect.shown hnamed hshown⟩

theorem found_after_create (hi : s.Inv) (hrun : create path flags s = (.ok (), s'))
    (hplain : (Call.create path flags).Plain s) (hblank : (Call.create path flags).Blank s)
    (hname : (fromStr path.name).toStr = path.name) :
    path.isRoot = false ∧ s'.Inv ∧ (Call.delete path).Plain s' ∧
      ∃ dir child, s'.getParent path = .ok dir ∧ dir.getChild path.name = some child := by
  have hcall : (Call.create path flags).run s = (.ok (), s') := hrun
  cases outcome_of_run hi hplain.live hcall with
  | @created _ _ bits dir chain₀ owned₀ before chain inner after chain' es slots start v₁ _ hloc hbits hc =>
    obtain ⟨inner', hu⟩ := hloc.created hbits hc hblank
    obtain ⟨dir', hpar, hhead, hshow, -⟩ :=
      @Located.reopened _ _ _ _ _ _ _ _ _ _ _ _ _ _ _ (.create path flags) hloc hplain hu
    have habsent : ∀ x ∈ dir.children, x.name ≠ path.name := by
      have hnone := hc.absent
      rw [Directory.getChild, List.find?_eq_none] at hnone
      exact fun x hx heq => hnone x hx (by simpa using heq)
    obtain ⟨child, hget, -⟩ := getChild_of_lookup hshow path.name_ne_nil (lookup_new hname habsent)
    refine ⟨hc.notRoot, hu.inv hloc.at_dir, ?_, dir', child, hpar, hget⟩
    intro dir2 chain2 es2 hpar2 hlisting
    obtain rfl := Except.ok.inj (hpar.symm.trans hpar2)
    obtain ⟨chain1, owned1, hh, -⟩ := hloc.new_tree hu
    obtain ⟨-, rfl⟩ := hlisting.unique hh.listing
    rw [hhead]
    exact ⟨_, @Located.leads_after _ _ _ _ _ _ _ _ _ _ _ _ _ _ _ (.create path flags) hloc hplain hu⟩

theorem create_existing (hroot : path.isRoot = false) (hpar : s.getParent path = .ok dir)
    (hget : dir.getChild path.name = some child) :
    create path flags s = (.error (.fs .fileExists), s) := by
  have hfind : (dir.findChildIdx path.name).isSome = true := by
    cases h : dir.findChildIdx path.name with
    | some idx => rfl
    | none =>
      rw [getChild_of_findChildIdx h] at hget
      cases hget
  have hspec : wp (create path flags) s (fun _ _ => False) (fun e s' => e = .fs .fileExists ∧ s' = s) := by
    unfold create
    rw [hroot, if_neg Bool.false_ne_true]
    refine wp_reads_seq ?_ hpar
    rw [if_pos hfind, fsError, wp_fail]
    exact ⟨rfl, rfl⟩
  rcases hrun : create path flags s with ⟨e | _, s'⟩
  · obtain ⟨rfl, rfl⟩ := wp_error hspec hrun
    rfl
  · exact (wp_ok hspec hrun).elim

theorem delete_existing (hi : s.Inv) (hlive : (Call.delete path).Live s) (hroot : path.isRoot = false)
    (hpar : s.getParent path = .ok dir) (hget : dir.getChild path.name = some child) :
    ∃ s', delete path s = (.ok (), s') := by
  obtain ⟨chain₀, es, owned₀, before, chain, slots, inner, after, hloc⟩ := hi.located hlive hpar
  have hspec := delete_spec hloc.at_dir.ready hpar
  rcases hrun : delete path s with ⟨e | _, s'⟩
  · obtain ⟨-, ⟨-, hisRoot⟩ | ⟨-, hnone⟩⟩ := wp_error hspec hrun
    · rw [hroot] at hisRoot
      cases hisRoot
    · rw [hnone] at hget
      cases hget
  · exact ⟨s', rfl⟩

/-- In every run from a fresh format whose calls are proper ones: what a further `create` makes is
found by a second `create` and by `delete`, and no directory lists a name twice. -/
theorem created_found_once (d : Disk) (s₀ s : LemonFS) (h₀ : Fresh d s₀) (hruns : Runs Call.run Call.Proper s₀ s) :
    (∀ path flags s', create path flags s = (.ok (), s') → (Call.create path flags).Named →
      (Call.create path flags).Plain s → (Call.create path flags).Blank s →
      create path flags s' = (.error (.fs .fileExists), s') ∧ ∃ s'', delete path s' = (.ok (), s'')) ∧
    ∀ path, s.IsDirectory path → ∃ names, s.list path = .ok names ∧ names.Nodup := by
  obtain ⟨hi, hdistinct, hshown⟩ := distinct_of_runs h₀ hruns
  refine ⟨fun path flags s' hrun hnamed hplain hblank => ?_, fun path hdir => list_distinct hi hdistinct hshown hdir⟩
  obtain ⟨hroot, hi', hplain', dir, child, hpar, hget⟩ := found_after_create hi hrun hplain hblank hnamed
  exact ⟨create_existing hroot hpar hget, delete_existing hi' hplain'.live hroot hpar hget⟩

/-- A file made in the root of a fresh partition is found, and the root is listed. -/
theorem created_found_once_file :
    ∃ s₀ s', Fresh (disk4101 fun _ => Sector.zero) s₀ ∧ create ⟨[0x2F, 0x61]⟩ 0 s₀ = (.ok (), s') ∧
      create ⟨[0x2F, 0x61]⟩ 0 s' = (.error (.fs .fileExists), s') ∧
      (∃ s'', delete ⟨[0x2F, 0x61]⟩ s' = (.ok (), s'')) ∧ ∃ names, s₀.list ⟨[0x2F]⟩ = .ok names ∧ names.Nodup := by
  obtain ⟨s₀, h₀⟩ := exists_blank
  obtain ⟨s', hrun, -⟩ := @create_first _ ⟨[0x2F, 0x61]⟩ 0 0 .file s₀ h₀ rfl rfl rfl (by decide)
  have hzero : s₀.disk.sectors 3 = Sector.zero := h₀.sector le_rfl (by norm_num)
  obtain ⟨hcreate, hlist⟩ := created_found_once _ s₀ s₀ h₀ .start
  obtain ⟨hagain, hdelete⟩ := hcreate _ _ _ hrun (show _ = _ by decide) (plain_of_root rfl) (h₀.small.blank hzero _ _)
  exact ⟨s₀, s', h₀, hrun, hagain, hdelete, hlist _ (Or.inl rfl)⟩

/-- A name of 37 letters is stored without the last one, and can be created twice. -/
theorem long_name_created_twice :
    ∃ s₀ s₁ s₂, Fresh (disk4101 fun _ => Sector.zero) s₀ ∧
      create ⟨0x2F :: List.replicate 37 0x61⟩ 0 s₀ = (.ok (), s₁) ∧
      create ⟨0x2F :: List.replicate 37 0x61⟩ 0 s₁ = (.ok (), s₂) ∧
      s₂.list ⟨[0x2F]⟩ = .ok [List.replicate 36 0x61, List.replicate 36 0x61] := by
  obtain ⟨s₀, h₀⟩ := exists_blank
  have hnot : Path.isRoot ⟨0x2F :: List.replicate 37 0x61⟩ = false := by decide
  have hparent : (Path.parent ⟨0x2F :: List.replicate 37 0x61⟩).isRoot = true := by decide
  have hname : Path.name ⟨0x2F :: List.replicate 37 0x61⟩ = List.replicate 37 0x61 := by decide
  obtain ⟨s₁, hrun₁, hmade₁⟩ := @create_first _ _ 0 0 .file s₀ h₀ hnot hparent rfl (by decide)
  have hstored : (fromStr (fromStr (List.replicate 37 0x61)).toStr).toStr =
      List.replicate 36 0x61 := by decide
  have hroot₁ : s₁.root = [new (fromStr (List.replicate 37 0x61)) 3 .file] := by
    rw [hmade₁.root, h₀.facts.root, hname]
    rfl
  have hentry : ∀ start, (new (fromStr (List.replicate 37 0x61)) start .file).name =
      List.replicate 36 0x61 := fun _ => hstored
  have habsent : s₁.rootDir.getChild (Path.name ⟨0x2F :: List.replicate 37 0x61⟩) = none := by
    rw [Directory.getChild, rootDir, hroot₁, hname, List.find?_eq_none]
    intro x hx
    rw [List.mem_singleton.1 hx, hentry]
    decide
  have hsmall₁ : Small 4 s₁ := hmade₁.small h₀.small fun h => by cases h
  obtain ⟨s₂, hrun₂, hmade₂⟩ := @Small.create 4 s₁ _ 0 0 .file hsmall₁ hnot hparent habsent rfl (by decide)
    (by norm_num) (by rw [hroot₁]; norm_num)
  refine ⟨s₀, s₁, s₂, h₀, hrun₁, hrun₂, ?_⟩
  rw [LemonFS.list, if_pos (show Path.isRoot ⟨[0x2F]⟩ = true by decide), hmade₂.root, hroot₁, hname, List.map_append,
    List.map_singleton, List.map_singleton,
    hentry, hentry]
  rfl

end Once

end MaramOS
