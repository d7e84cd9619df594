import MaramOS.Proofs.Elsewhere
import MaramOS.Proofs.Sample

/-! A file below the root: the walk to it, and a sample state that has one. -/

namespace MaramOS

open List Prog Volume LemonFS
open DirectoryEntry renaming slot → slotOf
open Filename (fromStr)

section Walk

variable {s : LemonFS} {path : Path} {e : Slot}

theorem Slot.Alike.file {child : DirectoryEntry} (h : e.Alike child.slot) (hk : e.kind = .file) :
    ∃ f, child = .file f ∧ f.head = e.link := by
  obtain ⟨-, hkind, hlink⟩ := h
  have hlink := hlink (by rw [hk]; decide)
  rw [hk] at hkind
  cases child with
  | file f => exact ⟨f, rfl, hlink.symm⟩
  | symLink name dest => cases hkind
  | directory name link => cases hkind

theorem LemonFS.Inv.walk (hi : s.Inv) {chain : List ℕ} {es sub : List Slot} {ptr : LinkPointer}
    (hchain : DirChain s.disk s.rootPtr chain es) (hleads : Leads s.disk s.rootPtr es path.parent.components ptr sub)
    (hsub : path.parent.isRoot = false) :
    ∃ dir, s.getParent path = .ok dir ∧ dir.head = ptr ∧ dir.children.map slotOf = sub ∧
      Agree sub (visible (dir.children.map slotOf)) ∧ ∀ c ∈ dir.children, Parsed s.disk c := by
  obtain ⟨chain0, es0, owned, hh, hagree, -⟩ := hi.tree
  obtain ⟨-, rfl⟩ := hchain.unique hh.listing
  obtain ⟨dir, hwalk, hhead, hshow, hlast⟩ := hleads.walk hh.owns (nodup_append.1 hh.nodup).2.1
    (fun _ hc => Path.component_ne_nil hc) (show s.rootDir.head = _ from rfl) hagree
  have hne : path.parent.components ≠ [] := by
    intro hnil
    rw [Path.components_parent] at hnil
    rw [(Path.isRoot_parent _).2 hnil] at hsub
    cases hsub
  exact ⟨dir, hwalk, hhead, (hlast hne).1, hshow, (hlast hne).2⟩

theorem LemonFS.HasFile.open (hq : s.HasFile path e) (hi : s.Inv) (hsub : path.parent.isRoot = false) :
    ∃ dir f, s.getParent path = .ok dir ∧ dir.getChild path.name = some (.file f) ∧ f.head = e.link ∧
      Parsed s.disk (.file f) := by
  obtain ⟨chain, es, ptr, sub, hchain, hleads, hl, hk⟩ := hq
  obtain ⟨dir, hwalk, -, -, hshow, hparsed⟩ := hi.walk hchain hleads hsub
  obtain ⟨child, hget, hchild⟩ := getChild_of_lookup hshow path.name_ne_nil hl
  obtain ⟨f, rfl, hhead⟩ := hchild.file hk
  exact ⟨dir, f, hwalk, hget, hhead, hparsed _ (List.mem_of_find?_eq_some hget)⟩

/-- The walk is the one through the directories, as there is only one. -/
theorem LemonFS.Inv.plain_of_leads {c : Call} (hi : s.Inv) {chain : List ℕ} {es sub : List Slot} {ptr : LinkPointer}
    (hchain : DirChain s.disk s.rootPtr chain es)
    (hleads : Leads s.disk s.rootPtr es c.path.parent.components ptr sub) : c.Plain s := by
  by_cases hroot : c.path.parent.isRoot = true
  · exact plain_of_root hroot
  have hsub : c.path.parent.isRoot = false := by simpa using hroot
  obtain ⟨dir, hwalk, hhead, -⟩ := hi.walk hchain hleads hsub
  intro dir' chain' es' hpar hchain'
  obtain rfl := Except.ok.inj (hwalk.symm.trans hpar)
  obtain ⟨-, rfl⟩ := hchain'.unique hchain
  rw [hhead]
  exact ⟨sub, hleads⟩

theorem LemonFS.HasFile.plain {c : Call} (hq : s.HasFile c.path e) (hi : s.Inv) : c.Plain s := by
  obtain ⟨chain, es, ptr, sub, hchain, hleads, -⟩ := hq
  exact hi.plain_of_leads hchain hleads

end Walk

/-- In the sample partition: an empty directory `d` in the root. -/
structure OneDir (s : LemonFS) : Prop where
  small : Small 4 s
  found : lookup (s.root.map slotOf) [0x64] = some ⟨fromStr [0x64], .directory, ⟨3, 512⟩⟩
  listing : DirChain s.disk s.rootPtr [4099] (s.root.map slotOf)
  empty : DirChain s.disk ⟨3, 512⟩ [3] []

structure NestedFile (s : LemonFS) : Prop where
  small : Small 5 s
  file : s.HasFile ⟨[0x2F, 0x64, 0x2F, 0x74]⟩ ⟨fromStr [0x74], .file, ⟨4, 1⟩⟩

variable {s : LemonFS}

theorem OneDir.leads (h : OneDir s) : Leads s.disk s.rootPtr (s.root.map slotOf)
    (Path.parent ⟨[0x2F, 0x64, 0x2F, 0x74]⟩).components ⟨3, 512⟩ [] :=
  .step h.found rfl h.empty .here

theorem OneDir.create_file (h : OneDir s) :
    ∃ s', create ⟨[0x2F, 0x64, 0x2F, 0x74]⟩ 0 s = (.ok (), s') ∧ s'.root = s.root ∧
      (DirChain s'.disk s'.rootPtr [4099] (s'.root.map slotOf) ∧
        DirChain s'.disk ⟨3, 512⟩ [3] [⟨fromStr [0x74], .file, ⟨4, 1⟩⟩]) ∧ NestedFile s' := by
  obtain ⟨dir, hpar, hhead, hslots, -, -⟩ := h.small.inv.walk h.listing h.leads (by decide)
  have hchildren : dir.children = [] := map_eq_nil_iff.1 hslots
  have hplain : (Call.create ⟨[0x2F, 0x64, 0x2F, 0x74]⟩ 0).Plain s := h.small.inv.plain_of_leads h.listing h.leads
  obtain ⟨chain0, es, owned0, before, chain, slots, inner, after, hloc⟩ := h.small.inv.located hplain.live hpar
  have hchain := hloc.at_dir.focus.listing
  rw [hhead] at hchain
  obtain ⟨rfl, rfl⟩ := hchain.unique h.empty
  have habsent : dir.getChild (Path.name ⟨[0x2F, 0x64, 0x2F, 0x74]⟩) = none := by
    rw [Directory.getChild, hchildren]
    rfl
  obtain ⟨v1, chain', s', hrun, hc, hdisk, hfill⟩ := @Filled.create 4 s ⟨[0x2F, 0x64, 0x2F, 0x74]⟩ 0 0 .file dir
    _ _ _ _ _ _ _ _ h.small.filled hloc.at_dir hpar rfl habsent rfl (by decide) (by norm_num)
    (by rw [hchildren]; norm_num)
  have hused : ¬v1.Free 3 := by
    intro hfree
    have := (hfill.free 3).1 hfree
    rw [if_neg (by decide)] at this
    omega
  obtain ⟨rfl, hfill'⟩ := hc.synced.single (show dir.head.isDirect = true by rw [hhead]; rfl)
    (show dir.head.start = 3 by rw [hhead]) (by rw [length_append, hchildren]; decide) hfill hused
  have hblank : (Call.create ⟨[0x2F, 0x64, 0x2F, 0x74]⟩ 0).Blank s := by
    intro bits x hbits hkind
    cases hbits
    exact absurd hkind (by decide)
  obtain ⟨inner', hu⟩ := hloc.created (show _ = some 0 from rfl) hc hblank
  have hsame : s'.root = s.root := by
    rw [hc.root]
    exact if_neg (by decide)
  have hptr : s'.rootPtr = s.rootPtr := by rw [rootPtr, rootPtr, hc.superblock]
  have hlisting : DirChain s'.disk s'.rootPtr [4099] (s.root.map slotOf) := by
    rw [hptr]
    refine h.listing.frame (by rw [hc.synced.shape.sectorCount, hdisk]) fun x hx => ?_
    rw [hc.synced.rest x, hdisk]
    rw [mem_singleton.1 hx]
    decide
  have hsub := hc.synced.listing
  rw [hchildren, show ({ dir with children := _ } : Directory).head = ⟨3, 512⟩ from hhead] at hsub
  refine ⟨s', hrun, hsame, ⟨hsame ▸ hlisting, hsub⟩, ⟨hu.inv hloc.at_dir, hfill', by rw [hc.superblock, h.small.dataStart],
    by rw [hc.superblock, h.small.dataEnd], _, hlisting⟩, ?_⟩
  have hleads := hloc.leads_after hplain hu
  rw [if_neg (by decide), hhead] at hleads
  obtain ⟨-, rfl⟩ := hloc.at_dir.holds.listing.unique h.listing
  refine ⟨_, _, _, _, hlisting, hleads, ?_, rfl⟩
  rw [hchildren]
  rfl

theorem exists_nested : ∃ s, s.Consistent ∧ NestedFile s := by
  obtain ⟨s₀, h₀⟩ := exists_blank
  obtain ⟨s₁, -, hmade⟩ := @create_first _ ⟨[0x2F, 0x64]⟩ 1 1 .directory s₀ h₀ rfl rfl rfl (by decide)
  have hzero : s₀.disk.sectors 3 = Sector.zero := h₀.sector le_rfl (by norm_num)
  have hcount := h₀.small.filled.sectorCount
  have hsmall : Small 4 s₁ := hmade.small h₀.small fun _ => dirChain_zero (by omega) hzero
  have hroot : s₁.root = [.directory (fromStr [0x64]) ⟨3, 512⟩] := by
    rw [hmade.root, h₀.facts.root]
    rfl
  have hlisting := hmade.listing
  have hcount₁ := hsmall.filled.sectorCount
  have hdir : OneDir s₁ := by
    refine ⟨hsmall, by rw [hroot]; rfl, ?_, dirChain_zero (by omega) ?_⟩
    · rw [hroot] at hlisting ⊢
      exact hlisting
    · rw [hmade.rest 3 (by norm_num), hzero]
  obtain ⟨s, -, hsame, ⟨hlist, hsub⟩, hfile⟩ := hdir.create_file
  refine ⟨s, ⟨hfile.small.inv.mounted, ?_⟩, hfile⟩
  obtain ⟨chain, es, owned, hh, -⟩ := hfile.small.inv.tree
  obtain ⟨-, rfl⟩ := hh.listing.unique hlist
  refine ⟨chain, _, owned, hh, rfl, fun e hin => ?_⟩
  rw [hsame, hroot] at hin
  cases hin with
  | here he =>
    obtain rfl := mem_singleton.1 he
    exact fun h => by cases h
  | inside hmem _ hchain hin =>
    obtain rfl := mem_singleton.1 hmem
    obtain ⟨-, rfl⟩ := hchain.unique hsub
    cases hin with
    | here he =>
      obtain rfl := mem_singleton.1 he
      exact fun h => by cases h
    | inside hmem hk =>
      obtain rfl := mem_singleton.1 hmem
      cases hk

end MaramOS
