import MaramOS.Proofs.Storage
import MaramOS.Spec.PartitionDrive

/-! A partition is never left. Whatever the sector arithmetic wraps to, each request to
the drive passes the checks of `Drive`, so it is for blocks of the partition. -/

namespace MaramOS

open Prog

def Partition.Holds (partition : Partition) : DriveEvent → Prop
  | .alloc _ => True
  | .read start count => ∀ b, start ≤ b → b < start + count →
    partition.start ≤ b ∧ b < partition.start + partition.sizeBlocks
  | .write start count => ∀ b, start ≤ b → b < start + count →
    partition.start ≤ b ∧ b < partition.start + partition.sizeBlocks

/-- What happened between two states stayed inside the partition. -/
structure Confined (partition : Partition) (s s' : DriveState) : Prop where
  events : ∀ e ∈ s'.events, e ∈ s.events ∨ partition.Holds e
  blocks : ∀ b, ¬(partition.start ≤ b ∧ b < partition.start + partition.sizeBlocks) → s'.blocks b = s.blocks b

variable {partition : Partition} {s s' s'' : DriveState} {α β : Type}

theorem Confined.refl (partition : Partition) (s : DriveState) : Confined partition s s :=
  ⟨fun _ he => .inl he, fun _ _ => rfl⟩

theorem Confined.trans (h : Confined partition s s') (h' : Confined partition s' s'') : Confined partition s s'' := by
  refine ⟨fun e he => ?_, fun b hb => (h'.blocks b hb).trans (h.blocks b hb)⟩
  rcases h'.events e he with he | he
  · exact h.events e he
  · exact .inr he

theorem Confined.request {e : DriveEvent} {blocks : ℕ → ℕ → UInt8} (he : partition.Holds e)
    (hblocks : ∀ b, ¬(partition.start ≤ b ∧ b < partition.start + partition.sizeBlocks) → blocks b = s.blocks b) :
    Confined partition s ⟨blocks, e :: s.events⟩ := by
  refine ⟨fun e' he' => ?_, hblocks⟩
  rcases List.mem_cons.1 he' with rfl | he'
  · exact .inr he
  · exact .inl he'

def Isolated (partition : Partition) (x : DriveProg α) : Prop :=
  ∀ s, wp x s (fun _ s' => Confined partition s s') fun _ s' => Confined partition s s'

namespace Isolated

theorem pure (a : α) : Isolated partition (Pure.pure a) := fun s => wp_pure.2 (.refl partition s)

theorem fail (e : DriveFault) : Isolated partition (Prog.fail e : DriveProg α) := fun s =>
  wp_fail.2 (.refl partition s)

theorem reads (f : DriveState → Except DriveFault α) : Isolated partition (Prog.reads f) := fun s =>
  wp_reads.2 ⟨fun _ _ => .refl partition s, fun _ _ => .refl partition s⟩

theorem bind {x : DriveProg α} {f : α → DriveProg β} (hx : Isolated partition x) (hf : ∀ a, Isolated partition (f a)) :
    Isolated partition (x >>= f) := by
  intro s
  refine wp_seq (hx s) (fun a s' hs' => ?_) fun _ _ h => h
  exact wp_mono (hf a s') (fun _ _ h => hs'.trans h) fun _ _ h => hs'.trans h

theorem foldlM {f : β → α → DriveProg β} (hf : ∀ b a, Isolated partition (f b a)) (l : List α) (b : β) :
    Isolated partition (l.foldlM f b) := by
  intro s
  refine wp_foldlM l (fun _ _ s' => Confined partition s s') (fun _ a _ b s' _ hs' => ?_) (.refl partition s)
  exact wp_mono (hf b a s') (fun _ _ h => hs'.trans h) fun _ _ h => hs'.trans h

theorem newPage (drive : StorageDrive) (count : ℕ) : Isolated partition (drive.newPage count) := by
  intro s
  have halloc : Confined partition s ⟨s.blocks, .alloc count :: s.events⟩ := .request trivial fun _ _ => rfl
  exact wp_mono (drive.newPage_wp count s) (fun _ _ h => h.2 ▸ halloc) fun _ _ h => h.2 ▸ halloc

end Isolated

section Checks

variable {offset count : ℕ}

theorem checked_inside (hle : ¬offset + count > partition.sizeBlocks) {b : ℕ} (hb : partition.start + offset ≤ b)
    (hb' : b < partition.start + offset + count) :
    partition.start ≤ b ∧ b < partition.start + partition.sizeBlocks := by
  omega

theorem Isolated.read (d : Drive) (partition : Partition) (offset count : ℕ) :
    Isolated partition (d.read partition offset count) := by
  rw [Drive.read]
  split_ifs with _ hle
  · exact .fail _
  · exact .fail _
  · exact .fail _
  · have hconfined : ∀ {s s'}, StorageDrive.Reads (partition.start + offset) count s s' → Confined partition s s' := by
      intro s s' h
      refine ⟨fun e he => ?_, fun b _ => congrFun h.blocks b⟩
      rcases h.events e he with he | rfl | ⟨n, rfl⟩
      · exact .inl he
      · exact .inr fun b => checked_inside hle
      · exact .inr trivial
    intro s
    exact wp_mono (d.inner.readSmart_wp _ count s) (fun _ _ h => hconfined h.2.2) fun _ _ h => hconfined h.2

theorem Isolated.write (d : Drive) (partition : Partition) (offset count : ℕ) (src : PhysPage) :
    Isolated partition (d.write partition offset count src) := by
  rw [Drive.write]
  split_ifs with _ hle
  · exact .fail _
  · exact .fail _
  · exact .fail _
  · exact .fail _
  · have hconfined : ∀ s k, k ≤ count → Confined partition s
        ⟨d.inner.stored (partition.start + offset) k src s.blocks, .write (partition.start + offset) count :: s.events⟩ := by
      intro s k hk
      refine .request (fun b => checked_inside hle) fun b hb => ?_
      funext i
      rw [StorageDrive.stored, if_neg]
      intro hin
      exact hb (checked_inside hle hin.1 (by omega))
    intro s
    refine wp_mono (d.inner.writeBlocks_wp _ count src s) (fun _ s' h => ?_) fun _ s' h => ?_
    · rw [h]
      exact hconfined s count le_rfl
    · obtain ⟨-, k, hk, rfl⟩ := h
      exact hconfined s k hk

end Checks

namespace PartitionDrive

section

variable (p : PartitionDrive)
include p

theorem readSectors_isolated (start count : ℕ) :
    Isolated p.partition (p.readSectors start count) := by
  rw [readSectors]
  split_ifs
  · exact .fail _
  · exact .fail _
  · exact .bind (.read _ _ _ _) fun _ => .bind (.newPage _ _) fun _ => .reads _

theorem stageBlock_isolated (start count : ℕ) (src staging : PhysPage) (i : ℕ) :
    Isolated p.partition (p.stageBlock start count src staging i) := by
  rw [stageBlock]
  refine .bind ?_ fun _ => .reads _
  rw [fetchBlock]
  split_ifs
  · exact .bind (.read _ _ _ _) fun _ => .reads _
  · exact .pure _

theorem writeSectors_isolated (start count : ℕ) (src : PhysPage) :
    Isolated p.partition (p.writeSectors start count src) := by
  rw [writeSectors]
  split_ifs
  · exact .pure _
  · exact .fail _
  · exact .fail _
  · exact .bind (.newPage _ _) fun _ => .bind (.foldlM (p.stageBlock_isolated start count src) _ _) fun _ =>
      .write _ _ _ _ _

theorem zeroLoop_isolated (page : PhysPage) (fuel sector rem : ℕ) :
    Isolated p.partition (p.zeroLoop page fuel sector rem) := by
  induction fuel generalizing sector rem with
  | zero => exact .pure _
  | succ fuel ih =>
    rw [zeroLoop]
    split_ifs
    · exact .pure _
    · exact .bind (p.writeSectors_isolated _ _ _) fun _ => ih _ _

theorem zeroSectors_isolated (start count : ℕ) :
    Isolated p.partition (p.zeroSectors start count) := by
  rw [zeroSectors]
  split_ifs
  · exact .pure _
  · exact .bind (.newPage _ _) fun _ => p.zeroLoop_isolated _ _ _ _

end

/-- No call asks the drive for a block outside the partition, or changes one. -/
theorem partition_isolated (p : PartitionDrive) (start count : ℕ) (src : PhysPage) (s : DriveState) :
    Confined p.partition s (p.readSectors start count s).2 ∧
    Confined p.partition s (p.writeSectors start count src s).2 ∧
    Confined p.partition s (p.zeroSectors start count s).2 :=
  ⟨wp_keeps.1 (p.readSectors_isolated start count s), wp_keeps.1 (p.writeSectors_isolated start count src s),
    wp_keeps.1 (p.zeroSectors_isolated start count s)⟩

end PartitionDrive

end MaramOS
