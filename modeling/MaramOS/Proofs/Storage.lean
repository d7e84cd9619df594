import MaramOS.Spec.Storage

/-! What the requests to a drive do, when they succeed and when they fail. -/

namespace MaramOS

open Prog

namespace StorageDrive

variable {drive : StorageDrive} {start count : ℕ} {s s' : DriveState}

def Fails (drive : StorageDrive) : Prop := ∃ events, drive.outcome events ≠ none

/-- Nothing was asked for but pages and the given blocks, and no block has changed. -/
structure Reads (start count : ℕ) (s s' : DriveState) : Prop where
  blocks : s'.blocks = s.blocks
  events : ∀ e ∈ s'.events, e ∈ s.events ∨ e = .read start count ∨ ∃ n, e = .alloc n

theorem newPage_wp (drive : StorageDrive) (count : ℕ) (s : DriveState) :
    wp (drive.newPage count) s
      (fun page s' => page = .zeroed count ∧ s' = ⟨s.blocks, .alloc count :: s.events⟩)
      fun _ s' => drive.Fails ∧ s' = ⟨s.blocks, .alloc count :: s.events⟩ := by
  unfold wp newPage
  cases h : drive.outcome (.alloc count :: s.events) with
  | none => exact ⟨rfl, rfl⟩
  | some _ => exact ⟨⟨_, by rw [h]; exact Option.some_ne_none _⟩, rfl⟩

theorem readBlocks_wp (drive : StorageDrive) (start count : ℕ) (dest : PhysPage) (s : DriveState) :
    wp (drive.readBlocks start count dest) s
      (fun page s' => page = ⟨dest.count, drive.loaded start count dest s.blocks⟩ ∧
        s' = ⟨s.blocks, .read start count :: s.events⟩)
      fun _ s' => drive.Fails ∧ s' = ⟨s.blocks, .read start count :: s.events⟩ := by
  unfold wp readBlocks
  cases h : drive.outcome (.read start count :: s.events) with
  | none => exact ⟨rfl, rfl⟩
  | some _ => exact ⟨⟨_, by rw [h]; exact Option.some_ne_none _⟩, rfl⟩

theorem writeBlocks_wp (drive : StorageDrive) (start count : ℕ) (src : PhysPage) (s : DriveState) :
    wp (drive.writeBlocks start count src) s
      (fun _ s' => s' = ⟨drive.stored start count src s.blocks, .write start count :: s.events⟩)
      fun _ s' => drive.Fails ∧ ∃ k ≤ count,
        s' = ⟨drive.stored start k src s.blocks, .write start count :: s.events⟩ := by
  unfold wp writeBlocks
  cases h : drive.outcome (.write start count :: s.events) with
  | none => rfl
  | some r => exact ⟨⟨_, by rw [h]; exact Option.some_ne_none _⟩, _, min_le_right _ _, rfl⟩

theorem readSmart_eq (drive : StorageDrive) (start count : ℕ) :
    drive.readSmart start count =
      if drive.blockSize = 0 then Prog.fail .panic
      else drive.newPage (divCeil count (divCeil PAGE_SIZE drive.blockSize)) >>= drive.readBlocks start count := by
  rw [readSmart]
  split_ifs <;> rfl

def smartPage (drive : StorageDrive) (start count : ℕ) (blocks : ℕ → ℕ → UInt8) : PhysPage :=
  let n := divCeil count (divCeil PAGE_SIZE drive.blockSize)
  ⟨n, drive.loaded start count (.zeroed n) blocks⟩

theorem readSmart_wp (drive : StorageDrive) (start count : ℕ) (s : DriveState) :
    wp (drive.readSmart start count) s
      (fun page s' => drive.blockSize ≠ 0 ∧ page = drive.smartPage start count s.blocks ∧ Reads start count s s')
      fun _ s' => (drive.blockSize = 0 ∨ drive.Fails) ∧ Reads start count s s' := by
  rw [readSmart_eq]
  split_ifs with hzero
  · exact wp_fail.2 ⟨.inl hzero, rfl, fun e he => .inl he⟩
  have halloc : Reads start count s ⟨s.blocks, .alloc (divCeil count (divCeil PAGE_SIZE drive.blockSize)) :: s.events⟩ := by
    refine ⟨rfl, fun e he => ?_⟩
    rcases List.mem_cons.1 he with rfl | he
    · exact .inr (.inr ⟨_, rfl⟩)
    · exact .inl he
  have hread : Reads start count s ⟨s.blocks,
      .read start count :: .alloc (divCeil count (divCeil PAGE_SIZE drive.blockSize)) :: s.events⟩ := by
    refine ⟨rfl, fun e he => ?_⟩
    rcases List.mem_cons.1 he with rfl | he
    · exact .inr (.inl rfl)
    · exact halloc.events e he
  refine wp_seq (newPage_wp ..) (fun page s' hpage => ?_) fun _ s' ⟨hfails, hs'⟩ => ⟨.inr hfails, hs' ▸ halloc⟩
  obtain ⟨rfl, rfl⟩ := hpage
  refine wp_mono (readBlocks_wp ..) (fun page s' ⟨hpage, hs'⟩ => ⟨hzero, hpage, hs' ▸ hread⟩)
    fun _ s' ⟨hfails, hs'⟩ => ⟨.inr hfails, hs' ▸ hread⟩

end StorageDrive

end MaramOS
