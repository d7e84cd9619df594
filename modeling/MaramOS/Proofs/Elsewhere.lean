import MaramOS.Proofs.Effects

/-! A file that a call does not name. As long as its path does not go through the
entry that the call works on, the path leads to the same slot afterwards and the
sectors of the file are as they were. -/

namespace MaramOS

open Prog Volume LemonFS

/-- The names a path goes through, its own name the last of them. -/
def Path.route (p : Path) : List Str := p.parent.components ++ [p.name]

/-- The path leads to the slot `e` of a file in the tree on disk. -/
def LemonFS.HasFile (s : LemonFS) (path : Path) (e : Slot) : Prop :=
  ∃ chain es ptr sub, DirChain s.disk s.rootPtr chain es ∧
    Leads s.disk s.rootPtr es path.parent.components ptr sub ∧ lookup sub path.name = some e ∧ e.kind = .file

namespace Call

/-- A deletion moves the last entry forward. If the path `q` goes through that entry's name, no entry on the way has
the name. -/
def KeepsOrder (s : LemonFS) (q : Path) : Call → Prop
  | .delete path => ∀ dir l1 x l2 m, s.getParent path = .ok dir → dir.children = l1 ++ x :: l2 → x.name = path.name →
      (∀ y ∈ l1, y.name ≠ path.name) → path.parent.components ++ [m] <+: q.route → LastDiffers m l2
  | _ => True

def isRoute : Call → Bool
  | .routeSymlink _ _ => true
  | _ => false

end Call

theorem Leads.on_way {d : Disk} {ptr ptr' qptr : LinkPointer} {es slots qes : List Slot} {comps cq : List Str}
    {n m : Str} {e : Slot} (h : Leads d ptr es comps ptr' slots) (hq : Leads d ptr es cq qptr qes)
    (hl : lookup qes m = some e) (hpre : comps ++ [n] <+: cq ++ [m]) :
    (comps = cq ∧ n = m ∧ slots = qes) ∨ ∃ e', lookup slots n = some e' ∧ e'.kind = .directory := by
  induction h generalizing cq with
  | here =>
    cases hq with
    | here =>
      refine .inl ⟨rfl, ?_, rfl⟩
      simpa using hpre
    | step hl1 hk1 =>
      obtain rfl := (List.cons_prefix_cons.1 hpre).1
      exact .inr ⟨_, hl1, hk1⟩
  | @step ptr ptr' es sub0 slots c0 cs0 e0 chain0 hl0 hk0 hchain0 hrest0 ih =>
    cases hq with
    | here =>
      have hlen := hpre.length_le
      simp only [List.length_append, List.length_cons, List.length_nil] at hlen
      omega
    | step hl1 hk1 hchain1 hrest1 =>
      obtain ⟨rfl, htail⟩ := List.cons_prefix_cons.1 hpre
      rw [hl0] at hl1
      cases hl1
      obtain ⟨rfl, rfl⟩ := hchain0.unique hchain1
      rcases ih hrest1 htail with ⟨rfl, rfl, rfl⟩ | hdir
      · exact .inl ⟨rfl, rfl, rfl⟩
      · exact .inr hdir

section Other

variable {s s' : LemonFS} {c : Call} {path : Path} {e : Slot} {dir : Directory}
  {chain0 owned0 before chain inner after chain' inner' : List ℕ} {es slots : List Slot} {v1 : Volume}
  {children' : List DirectoryEntry}

theorem Located.other (hloc : Located s c.path dir chain0 es owned0 before chain slots inner after)
    (hplain : c.Plain s) (hu : Update s dir chain inner v1 children' chain' inner' s')
    (hkeep : ∀ m e own, c.path.parent.components ++ [m] <+: path.route → m ≠ c.path.name → e.kind ≠ .symlink →
      lookup slots m = some e → Owns s.disk [e] own →
      lookup (visible (children'.map DirectoryEntry.slot)) m = some e ∧ ∀ x ∈ own, s'.disk.sectors x = s.disk.sectors x)
    (hq : s.HasFile path e) (hnot : ¬c.path.route <+: path.route) :
    s'.HasFile path e ∧ ∀ own, Owns s.disk [e] own → ∀ x ∈ own, s'.disk.sectors x = s.disk.sectors x := by
  have hat := hloc.at_dir
  obtain ⟨chain1, es1, ptr, sub, hchain1, hleads, hl, hfile⟩ := hq
  obtain ⟨-, rfl⟩ := hchain1.unique hat.holds.listing
  obtain ⟨⟨sub', hleads', -, hl'⟩, hsame⟩ := (hloc.leads hplain).other hat.holds.owns
    (List.nodup_append.1 hat.holds.nodup).2.1 (hu.change hat) hkeep hleads hl hfile hnot
  obtain ⟨chain2, owned2, hh, -⟩ := hloc.new_tree hu
  have hptr : s'.rootPtr = s.rootPtr := by rw [rootPtr, rootPtr, hu.superblock]
  exact ⟨⟨chain2, _, ptr, sub', hh.listing, by rwa [hptr], hl', hfile⟩, hsame⟩

theorem elsewhere (hi : s.Inv) (hplain : c.Plain s) (hblank : c.Blank s) (horder : c.KeepsOrder s path)
    (hcall : c.isRoute = false) (hrun : c.run s = (.ok (), s')) (hq : s.HasFile path e)
    (hnot : ¬c.path.route <+: path.route) :
    s'.HasFile path e ∧ ∀ own, Owns s.disk [e] own → ∀ x ∈ own, s'.disk.sectors x = s.disk.sectors x := by
  cases outcome_of_run hi hplain.live hrun with
  | created hloc hbits hc =>
    obtain ⟨inner', hu⟩ := hloc.created hbits hc hblank
    exact hloc.other hplain hu (fun m e own _ _ hk hl hown => hc.others hloc.at_dir hk hl hown) hq hnot
  | written hloc hw =>
    have hu := hw.update hloc.at_dir hloc.head_iff
    exact hloc.other hplain hu (fun m e own _ hm hk hl hown => hw.others hloc.at_dir hu hm hk hl hown) hq hnot
  | deleted hloc hd =>
    obtain ⟨inner', hu⟩ := hd.update hloc.at_dir hloc.head_iff
    have hlast := fun m => horder _ _ _ _ m hloc.parent hd.child.children hd.child.named hd.child.first
    exact hloc.other hplain hu (fun m e own hway hm hk hl hown => hd.others hloc.at_dir hu (hlast m hway) hm hk hl hown) hq
      hnot
  | routed => cases hcall

end Other

end MaramOS
