import MaramOS.Proofs.Sample

/-! The superblock, the bitmap sectors and the backup superblock are not written
by path operations, as long as every call works on a directory of the tree. A
symlink that points nowhere is taken for a directory at sector 0. -/

namespace MaramOS

open Prog Volume LemonFS
open Filename (fromStr)

variable {s s' : LemonFS} {c : Call} {r : Except Fault Unit}

/-- The superblock, the bitmap and the backup superblock. -/
def LemonFS.IsMetadata (s : LemonFS) (x : ℕ) : Prop :=
  x = 0 ∨ s.superblock.bitmapStart ≤ x ∧ x < s.superblock.dataStart ∨ x = s.disk.sectorCount - 1

/-- A call on the root or a live directory, in which a new directory gets an empty block and a
file with link blocks is rewritten only where there is room. -/
def Call.Sound (s : LemonFS) (c : Call) (r : Except Fault Unit) : Prop :=
  c.Live s ∧ c.Blank s ∧ c.Roomy s ∧ Call.Returns r

theorem inv_of_runs {d : Disk} {s₀ : LemonFS} (h₀ : Fresh d s₀) (h : Runs Call.run Call.Sound s₀ s) : s.Inv :=
  h.invariant Inv h₀.inv fun _ _ _ _ hi hrun hok =>
    inv_of_step hi hok.2.2.1 hok.2.2.2 (step_of_run hi hok.1 hok.2.1 hrun)

theorem Step.outside (hi : s.Inv) (hret : Call.Returns r) (h : Step s c r s') {x : ℕ}
    (hx : x < s.superblock.dataStart ∨ s.superblock.dataEnd < x) : s'.disk.sectors x = s.disk.sectors x := by
  have hm := hi.mounted
  have hle := hm.dataStart_le
  cases h with
  | same => rfl
  | panicked => exact hret.elim
  | leaked hleak =>
    obtain ⟨-, -, l, ht⟩ := hleak
    rw [ht.disk]
  | updated hloc hu =>
    refine hm.outside hu.touches_all (fun y hy => ?_) hx
    rcases hloc.at_dir.holds.mem_placed (hloc.at_dir.mem_total hy) with rfl | hy
    · exact ⟨hle, le_rfl⟩
    · exact ⟨hy.1, hy.2.le⟩
  | @outOfSpace _ _ _ _ _ _ _ _ _ _ _ _ _ _ ind _ w _ ext _ _ _ hloc hc _ _ hout _ _ =>
    refine hm.outside hout.touches (fun y hy => ?_) hx
    have hown : y ∈ ind ++ fileBlocks ext := by
      rcases List.mem_append.1 hy with hy | hy
      · exact List.mem_append_left _ hy
      · rcases hout.surplus with rfl | ⟨rfl, -⟩
        · cases hy
        · exact List.mem_append_right _ (List.mem_of_mem_drop hy)
    have hplaced := hloc.at_dir.inner_placed y (hc.own_subset hown)
    exact ⟨hplaced.1, hplaced.2.le⟩

/-- On a freshly formatted and mounted partition, in every run of calls that work on the root or
on live directories, no call writes the superblock, the bitmap sectors or the backup. -/
theorem metadata_never_written (d : Disk) (s₀ s s' : LemonFS) (c : Call) (r : Except Fault Unit) (h₀ : Fresh d s₀)
    (hruns : Runs Call.run Call.Sound s₀ s) (hrun : c.run s = (r, s')) (hok : c.Sound s r) :
    ∀ x, s.IsMetadata x → s'.disk.sectors x = s.disk.sectors x := by
  have hi := inv_of_runs h₀ hruns
  have hm := hi.mounted
  intro x hx
  refine (step_of_run hi hok.1 hok.2.1 hrun).outside hi hok.2.2.2 ?_
  have h1 := hm.bitmapStart_pos
  have h2 := hm.bitmapStart_le
  have h3 := hm.dataEnd_lt
  rcases hx with rfl | hx | rfl <;> omega

/-- A symlink `s` made in the root of a fresh partition. -/
theorem metadata_never_written_symlink :
    ∃ s₀ s', Fresh (disk4101 fun _ => Sector.zero) s₀ ∧ create ⟨[0x2F, 0x73]⟩ 2 s₀ = (.ok (), s') ∧
      ∀ x, s₀.IsMetadata x → s'.disk.sectors x = s₀.disk.sectors x := by
  obtain ⟨s₀, h₀⟩ := exists_blank
  obtain ⟨s', hrun, -⟩ := @create_first _ ⟨[0x2F, 0x73]⟩ 2 2 .symlink s₀ h₀ rfl rfl rfl (by decide)
  refine ⟨s₀, s', h₀, hrun, ?_⟩
  refine metadata_never_written _ s₀ s₀ s' (.create ⟨[0x2F, 0x73]⟩ 2) (.ok ()) h₀ .start hrun
    ⟨Or.inl rfl, ?_, trivial, trivial⟩
  intro bits x hbits hkind
  obtain rfl : (2 : UInt8) = bits := Option.some.inj hbits
  exact absurd hkind (by decide)

theorem sync_unrouted {dir : Directory} {v : Volume} (hhead : dir.head = ⟨0, 0⟩) (hone : dir.blocksNeeded = 1)
    (hpos : 0 < v.disk.sectorCount) :
    wp dir.sync v (fun _ v' => v'.disk.sectors 0 = (dir.blockAt [0] 0).encode) (fun _ _ => False) := by
  have hstart : dir.head.start = 0 := by rw [hhead]
  have hcollect : collectChain v.disk v.disk.fuel dir.head = .ok [] := by
    rw [hhead]
    rfl
  have hwrite := @Directory.writeChain_spec dir v [] (by rw [hone]; rfl) (by simp) (by simp [hstart])
  unfold Directory.sync
  refine wp_reads_seq ?_ hcollect
  simp only [hone, List.drop_nil, Nat.sub_self, List.range'_zero, List.mapM_nil, pure_bind]
  rw [List.forM, pure_bind]
  refine wp_mono hwrite (fun _ v' h => ?_) (fun _ _ h => ?_)
  · have hstored := h.2.stored 0 0 (by rw [hstart]; rfl)
    rwa [hstart] at hstored
  · obtain ⟨-, x, hx, hge⟩ := h
    rw [List.mem_singleton.1 hx, hstart] at hge
    omega

theorem getParent_unrouted (hroot : s.root = [.symLink (fromStr [0x73]) ⟨0, 0⟩])
    (hpos : 0 < s.disk.sectorCount) : s.getParent ⟨[0x2F, 0x73, 0x2F, 0x78]⟩ =
      .ok ⟨fromStr [0x73], (DirBlock.decode (s.disk.sectors 0)).parent, [], ⟨0, 0⟩⟩ := by
  have hcomps : (Path.parent ⟨[0x2F, 0x73, 0x2F, 0x78]⟩).components = [[0x73]] := by decide
  have hget : s.rootDir.getChild [0x73] = some (.symLink (fromStr [0x73]) ⟨0, 0⟩) := getChild_rootDir hroot rfl
  have hopen : Directory.openAt s.disk (fromStr [0x73]) ⟨0, 0⟩ =
      .ok ⟨fromStr [0x73], (DirBlock.decode (s.disk.sectors 0)).parent, [], ⟨0, 0⟩⟩ := by
    rw [Directory.openAt, LinkPointer.read, readData_eq hpos]
    rfl
  rw [getParent, hcomps, List.foldlM_cons, enter, hget]
  simp only [hopen]
  rfl

theorem create_unrouted (hroot : s.root = [.symLink (fromStr [0x73]) ⟨0, 0⟩])
    (hpos : 0 < s.disk.sectorCount) (havail : s.bitmap.available [] ≠ []) :
    ∃ s', create ⟨[0x2F, 0x73, 0x2F, 0x78]⟩ 0 s = (.ok (), s') ∧ (s'.disk.sectors 0).byte 8 = 0x78 := by
  have hspec : wp (create ⟨[0x2F, 0x73, 0x2F, 0x78]⟩ 0) s (fun _ s' => (s'.disk.sectors 0).byte 8 = 0x78)
      (fun _ _ => False) := by
    unfold create
    rw [if_neg (by decide)]
    refine wp_reads_seq ?_ (getParent_unrouted hroot hpos)
    have hbits : DirEntryFlags.fromBits (UInt8.ofNat 0) = some 0 := rfl
    have hkind : FileType.fromDirflags 0 = .file := by decide
    have hnot : Path.isRoot (Path.parent ⟨[0x2F, 0x73, 0x2F, 0x78]⟩) = false := by decide
    simp only [Directory.findChildIdx, List.findIdx?_nil, Option.isSome_none, Bool.false_eq_true, if_false, hbits, hkind,
      hnot]
    refine wp_onVolume_seq (allocSector_takes s.toVolume) ?_ ?_
    · rintro start v1 ⟨_, -, ht⟩
      have hpos1 : 0 < v1.disk.sectorCount := by
        rw [ht.disk]
        exact hpos
      have hone : Directory.blocksNeeded ⟨fromStr [0x73], (DirBlock.decode (s.disk.sectors 0)).parent,
          [] ++ [DirectoryEntry.new (fromStr (Path.name ⟨[0x2F, 0x73, 0x2F, 0x78]⟩)) start .file], ⟨0, 0⟩⟩ = 1 := by
        norm_num [Directory.blocksNeeded, divCeil, ENTRIES_PER_DIRENTRY]
      refine wp_onVolume_seq (sync_unrouted rfl hone hpos1) ?_ (fun _ _ h => h.elim)
      intro _ v2 hstored
      rw [wp_pure]
      show (v2.disk.sectors 0).byte 8 = 0x78
      rw [hstored]
      exact DirBlock.encode_entry_byte _ 0 0 (by norm_num)
    · rintro e v1 ⟨-, -, hnone⟩
      exact havail hnone
  rcases hrun : create ⟨[0x2F, 0x73, 0x2F, 0x78]⟩ 0 s with ⟨e | _, s'⟩
  · exact (wp_error hspec hrun).elim
  · have hbyte := wp_ok hspec hrun
    exact ⟨s', rfl, hbyte⟩

theorem version_byte {n : ℕ} {sb : SuperBlock} (h : SuperBlock.new n = some sb) : (sealSb sb).encode.byte 8 = 1 := by
  have hversion : sb.version = 1 := by
    unfold SuperBlock.new at h
    split_ifs at h
    cases h
    rfl
  have hsealed : (sealSb sb).version = 1 := hversion
  rw [byte_of_lt _ (by norm_num)]
  simp only [SuperBlock.encode, hsealed]
  rw [dif_neg (by norm_num), if_pos (by norm_num)]
  rfl

/-- A symlink that was never routed is taken for a directory at sector 0: a file created below
it overwrites the superblock. -/
theorem unrouted_symlink_overwrites_superblock :
    ∃ s₀ s₁ s₂, Fresh (disk4101 fun _ => Sector.zero) s₀ ∧ create ⟨[0x2F, 0x73]⟩ 2 s₀ = (.ok (), s₁) ∧
      create ⟨[0x2F, 0x73, 0x2F, 0x78]⟩ 0 s₁ = (.ok (), s₂) ∧ s₁.IsMetadata 0 ∧
      s₂.disk.sectors 0 ≠ s₁.disk.sectors 0 := by
  obtain ⟨s₀, h₀⟩ := exists_blank
  obtain ⟨s₁, hrun, hmade⟩ := @create_first _ ⟨[0x2F, 0x73]⟩ 2 2 .symlink s₀ h₀ rfl rfl rfl (by decide)
  have hroot : s₁.root = [.symLink (fromStr [0x73]) ⟨0, 0⟩] := by
    rw [hmade.root, h₀.facts.root]
    rfl
  have hfill : Filled 3 s₁.toVolume := hmade.filled
  obtain ⟨s₂, hrun₂, hbyte⟩ := create_unrouted hroot (by rw [hfill.sectorCount]; norm_num)
    (hfill.available_ne_nil (by norm_num))
  refine ⟨s₀, s₁, s₂, h₀, hrun, hrun₂, Or.inl rfl, fun heq => ?_⟩
  obtain ⟨sb, hnew, hstored⟩ := h₀.facts.stored
  rw [heq, hmade.rest 0 (by norm_num), hstored, version_byte hnew] at hbyte
  exact absurd hbyte (by decide)

end MaramOS
