import MaramOS.Proofs.Effects
import MaramOS.Proofs.Sample

/-! Which sectors belong to whom. In a run without symlinks the tree on disk is
a tree in every reached state: each sector is referred to once, lies in the data
area and is marked used. A new directory on a sector that still holds an old
directory block breaks it. -/

namespace MaramOS

open List Prog Volume LemonFS

variable {s s' : LemonFS} {c : Call} {r : Except Fault Unit}

/-- A `create` of a file or a directory, a `write` or a `delete`. -/
def Call.TreeCall : Call → Prop
  | .create _ flags => ∀ bits, DirEntryFlags.fromBits (UInt8.ofNat flags) = some bits →
      FileType.fromDirflags bits ≠ .symlink
  | .routeSymlink _ _ => False
  | _ => True

theorem Rearranged.noSymlink {children children' : List DirectoryEntry} {slots : List Slot}
    (h : Rearranged c children children') (hc : c.TreeCall)
    (hagree : Agree slots (visible (children.map DirectoryEntry.slot))) (hslots : NoSymlink slots) :
    NoSymlink (visible (children'.map DirectoryEntry.slot)) := by
  have hold := hagree.noSymlink hslots
  intro e he
  obtain ⟨x, hx, rfl⟩ := mem_map.1 (mem_of_mem_filter he)
  have hvis := (mem_filter.1 he).2
  have hcase : x ∈ children ∨ x.slot.kind ≠ .symlink := by
    cases h with
    | appended hbits _ =>
      rcases mem_append.1 hx with hx | hx
      · exact Or.inl hx
      · obtain rfl := mem_singleton.1 hx
        have hkind := hc _ hbits
        refine Or.inr ?_
        generalize FileType.fromDirflags _ = kind at hkind ⊢
        cases kind with
        | symlink => exact absurd rfl hkind
        | file => exact fun h => by cases h
        | directory => exact fun h => by cases h
    | rewritten _ =>
      simp only [mem_append, mem_cons] at hx ⊢
      rcases hx with hx | rfl | hx
      · exact Or.inl (Or.inl hx)
      · exact Or.inr fun h => by cases h
      · exact Or.inl (Or.inr (Or.inr hx))
    | removed =>
      simp only [mem_append, mem_cons, mem_moveLast] at hx ⊢
      exact Or.inl (hx.imp id Or.inr)
    | retargeted => exact hc.elim
  rcases hcase with hx | hk
  · exact hold x.slot (mem_filter.2 ⟨mem_map_of_mem hx, hvis⟩)
  · exact hk

/-- A call as the run has it: a new directory gets an empty block, and a file with link blocks
is rewritten only where there is room. -/
def Call.Owned (s : LemonFS) (c : Call) (r : Except Fault Unit) : Prop :=
  c.TreeCall ∧ c.Blank s ∧ c.Roomy s ∧ Call.Returns r

theorem noSymlink_of_runs {d : Disk} {s₀ : LemonFS} (h₀ : Fresh d s₀) (h : Runs Call.run Call.Owned s₀ s) :
    s.Inv ∧ Listings NoSymlink s := by
  refine h.invariant (fun s => s.Inv ∧ Listings NoSymlink s) ⟨h₀.inv, ?_⟩ ?_
  · intro chain es sub hlisting hbelow
    obtain ⟨-, rfl⟩ := hlisting.unique h₀.facts.holds.listing
    cases hbelow with
    | here => exact fun e he => absurd he not_mem_nil
    | inside hmem => cases hmem
  · rintro s c r s' ⟨hi, hfree⟩ hrun ⟨htree, hblank, hroom, hret⟩
    have hplain : c.Plain s := plain_of_noSymlink hi hfree
    have heffect := effect_of_run hi hplain.live hblank (fun _ => hroom) hret hrun
    exact ⟨heffect.inv hi, heffect.listings hi hplain hfree (fun e he => absurd he not_mem_nil)
      fun _ _ _ hre hagree hslots => hre.noSymlink htree hagree hslots⟩

/-- In every reached state the sectors that the tree on disk refers to are pairwise distinct, lie in
the data area, the root block excepted, and are marked used. -/
theorem tree_owns_blocks (d : Disk) (s₀ s : LemonFS) (h₀ : Fresh d s₀) (h : Runs Call.run Call.Owned s₀ s) :
    ∃ chain es owned, s.Holds chain es owned := by
  obtain ⟨chain, es, owned, hh, -⟩ := (noSymlink_of_runs h₀ h).1.tree
  exact ⟨chain, es, owned, hh⟩

/-- A file made in the root of a fresh partition. -/
theorem tree_owns_blocks_file :
    ∃ s₀ s', Fresh (disk4101 fun _ => Sector.zero) s₀ ∧ create ⟨[0x2F, 0x61]⟩ 0 s₀ = (.ok (), s') ∧
      ∃ chain es owned, s'.Holds chain es owned := by
  obtain ⟨s₀, h₀⟩ := exists_blank
  obtain ⟨s', hrun, -⟩ := @create_first _ ⟨[0x2F, 0x61]⟩ 0 0 .file s₀ h₀ rfl rfl rfl (by decide)
  have hcall : (Call.create ⟨[0x2F, 0x61]⟩ 0).run s₀ = (.ok (), s') := hrun
  refine ⟨s₀, s', h₀, hrun, tree_owns_blocks _ s₀ s' h₀ (.call .start hcall ⟨?_, ?_, trivial, trivial⟩)⟩
  · intro bits hbits
    obtain rfl : (0 : UInt8) = bits := Option.some.inj hbits
    decide
  · intro bits x hbits hkind
    obtain rfl : (0 : UInt8) = bits := Option.some.inj hbits
    exact absurd hkind (by decide)

/-- Sector 3 holds an old directory block with a file at sector 4098. A new directory is placed on
sector 3, and the tree then refers to sector 4098, which is free. -/
theorem stale_directory_refers_to_free_sector :
    ∃ s₀ s', Fresh (disk4101 staleContent) s₀ ∧ create ⟨[0x2F, 0x64]⟩ 1 s₀ = (.ok (), s') ∧
      ¬ ∃ chain es owned, s'.Holds chain es owned := by
  obtain ⟨s₀, h₀⟩ := exists_fresh (disk4101 staleContent) (by norm_num [disk4101])
  obtain ⟨s', hrun, hmade⟩ := @create_first _ ⟨[0x2F, 0x64]⟩ 1 1 .directory s₀ h₀ rfl rfl rfl (by decide)
  refine ⟨s₀, s', h₀, hrun, ?_⟩
  rintro ⟨chain, es, owned, hh⟩
  have hfill : Filled 4 s'.toVolume := hmade.filled
  have hdata : s'.disk.sectors 3 = staleBlock := by
    rw [hmade.rest 3 (by norm_num), h₀.sector le_rfl (by norm_num)]
    rfl
  have hsub := stale_listing (by rw [hfill.sectorCount]; norm_num) hdata
  obtain ⟨-, hes⟩ := hh.listing.unique hmade.listing
  have hentry : (⟨Filename.fromStr [0x64], .directory, ⟨3, 512⟩⟩ : Slot) ∈ es := by
    rw [hes, hmade.root, h₀.facts.root]
    exact List.mem_singleton_self _
  obtain ⟨inner, -, hinner, -, -, hpart⟩ := hh.owns.subdirectory (List.nodup_append.1 hh.nodup).2.1 hentry rfl hsub
  have hown : 4098 ∈ inner := by
    cases hinner with
    | file _ hlink hrest =>
      cases hlink with
      | none hv => cases hv
      | extent => exact List.mem_append_left _ (List.mem_singleton_self 4098)
      | block _ hd => cases hd
    | symlink hk => cases hk
    | directory hk => cases hk
  have hused := hh.used 4098 (List.mem_append_right _ (hpart (List.mem_append_right _ hown)))
  exact hused ((hfill.free 4098).2 ⟨by norm_num, by norm_num⟩)

end MaramOS
