import MaramOS.Proofs.Extents

/-! Deleting a file or a directory gives back and zeroes every sector below it,
link blocks and directory blocks included, and touches nothing else. -/

namespace MaramOS

open List Prog Volume

variable {lo hi : ℕ} {v : Volume} {d : Disk} {es : List Slot} {owned : List ℕ}

theorem Volume.Wipes.congr {l l' : List ℕ} {v' : Volume} (h : Wipes l v v') (hl : ∀ x, x ∈ l ↔ x ∈ l') :
    Wipes l' v v' := by
  refine ⟨h.shape, fun x => ?_, fun x => by rw [h.free, hl]⟩
  rw [h.disk]
  simp only [hl]

theorem discardExtents_spec (ext : List LinkPointer) (ha : Area lo hi v)
    (hext : ∀ p ∈ ext, p.isDirect = true) (hblocks : ∀ x ∈ fileBlocks ext, lo ≤ x ∧ x < hi) :
    wp (ext.forM fun link => Volume.discard link.start (divCeil link.size 512)) v
      (fun _ v' => Wipes (fileBlocks ext) v v') (fun _ _ => False) := by
  refine wp_forM ext (fun done v' => Wipes (fileBlocks done) v v') ?_ (Wipes.nil v)
  intro done link rest v' hsplit hdone
  rw [hsplit, fileBlocks_append, fileBlocks_cons] at hblocks
  have hdirect := hext link (by rw [hsplit]; simp)
  have hcount : 0 < divCeil link.size 512 := by
    have : link.size ≠ 0 := by simpa [LinkPointer.isDirect] using hdirect
    unfold divCeil
    omega
  have hin : ∀ x ∈ link.blocks, lo ≤ x ∧ x < hi := fun x hx => hblocks x (by simp [hx])
  have hfirst := hin link.start (mem_range'_1.2 (by omega))
  have hlast := hin (link.start + divCeil link.size 512 - 1) (mem_range'_1.2 (by omega))
  have ha' := hdone.area ha fun x hx => (hblocks x (by simp [hx])).2
  refine wp_mono (discard_spec ha' hfirst.1 (by omega)) (fun _ v'' h => ?_) (fun _ _ h => h)
  rw [fileBlocks_append, fileBlocks_singleton]
  exact hdone.append h

theorem file_delete_spec {f : File} {ind : List ℕ} {ext : List LinkPointer} (ha : Area lo hi v)
    (hlink : LinkChain v.disk f.head ind ext) (hnodup : ind.Nodup)
    (hplaced : ∀ x ∈ ind ++ fileBlocks ext, lo ≤ x ∧ x < hi) :
    wp f.delete v (fun _ v' => Wipes (ind ++ fileBlocks ext) v v') (fun _ _ => False) := by
  have hinside := ha.inside
  have hind : ∀ x ∈ ind, lo ≤ x ∧ x < hi := fun x hx => hplaced x (mem_append_left _ hx)
  have hblocks : ∀ x ∈ fileBlocks ext, lo ≤ x ∧ x < hi := fun x hx => hplaced x (mem_append_right _ hx)
  have htrace := hlink.trace (length_le_of_nodup hnodup fun x hx => lt_trans (hind x hx).2 hinside)
  unfold File.delete
  refine wp_reads_seq ?_ htrace
  refine wp_seq (discardExtents_spec ext ha (fun p hp => (hlink.mem_ext p hp).2) hblocks) (fun _ v1 h1 => ?_)
    (fun _ _ h => h)
  have ha1 := h1.area ha fun x hx => (hblocks x hx).2
  rw [forM_eq_forM, forM_map]
  refine wp_mono (discardAll_spec ind ha1 hind) (fun _ v2 h2 => ?_) (fun _ _ h => h)
  refine (h1.append h2).congr fun x => ?_
  rw [mem_append, mem_append, or_comm]

theorem deleteChain_spec {ptr : LinkPointer} {chain : List ℕ} (h : DirChain d ptr chain es) (hnodup : chain.Nodup)
    (hplaced : ∀ x ∈ chain, lo ≤ x ∧ x < hi) :
    ∀ (v : Volume) (k : ℕ), Area lo hi v → v.disk.sectorCount = d.sectorCount →
      (∀ x ∈ chain, v.disk.sectors x = d.sectors x) → chain.length < k →
      wp (deleteChain k ptr) v (fun _ v' => Wipes chain v v') (fun _ _ => False) := by
  induction h with
  | done hd =>
    intro v k _ _ _ hk
    obtain ⟨k, rfl⟩ := Nat.exists_eq_succ_of_ne_zero (by omega : k ≠ 0)
    rw [deleteChain, if_neg (by simp [hd]), wp_pure]
    exact Wipes.nil v
  | @block ptr sec chain es hd hr _ ih =>
    intro v k ha hn hs hk
    obtain ⟨k, rfl⟩ := Nat.exists_eq_succ_of_ne_zero (by omega : k ≠ 0)
    obtain ⟨hnew, hnodup⟩ := nodup_cons.1 hnodup
    have hptr := hplaced ptr.start (by simp)
    have hpos := ha.pos
    have hv : ptr.isValid = true := by
      simp only [LinkPointer.isValid, bne_iff_ne]
      omega
    rw [deleteChain, if_pos (by simp [hv, hd])]
    refine wp_reads_seq ?_ (hr.frame hn (hs _ (by simp))).read
    refine wp_seq (discard_spec ha hptr.1 hptr.2) (fun _ v1 h1 => ?_) (fun _ _ h => h)
    have hsame : ∀ x ∈ chain, v1.disk.sectors x = d.sectors x := by
      intro x hx
      have hne : x ≠ ptr.start := by
        rintro rfl
        exact hnew hx
      rw [h1.disk, if_neg (by simpa using hne), hs x (by simp [hx])]
    refine wp_mono (ih hnodup (fun x hx => hplaced x (by simp [hx])) v1 k
      (h1.area ha fun x hx => by
        obtain rfl : x = ptr.start := by simpa using hx
        exact hptr.2)
      (h1.shape.sectorCount.trans hn) hsame (by simpa using hk)) (fun _ v2 h2 => ?_) (fun _ _ h => h)
    exact h1.append h2

def deleteChild (k : ℕ) : DirectoryEntry → FsProg Unit
  | .file f => f.delete
  | .directory _ link => do
    let sub ← Prog.reads fun v => Directory.openAt v.disk (Filename.fromStr []) link
    Directory.delete k sub
  | .symLink _ _ => pure ()

theorem delete_succ (k : ℕ) (dir : Directory) :
    Directory.delete (k + 1) dir = (do
      dir.children.forM (deleteChild k)
      let fuel ← Prog.reads fun v => .ok v.disk.fuel
      deleteChain fuel dir.head) := rfl

/-- Deleting a list of children wipes all they own. The disk may have changed
since they were parsed, but not in those sectors; the nesting is bounded by their
number, since every directory has a block. -/
theorem deleteChildren_spec (h : Owns d es owned) (hnodup : owned.Nodup) (hplaced : ∀ x ∈ owned, lo ≤ x ∧ x < hi) :
    ∀ (v : Volume) (children : List DirectoryEntry) (k : ℕ), Area lo hi v →
      v.disk.sectorCount = d.sectorCount → (∀ x ∈ owned, v.disk.sectors x = d.sectors x) →
      children.map DirectoryEntry.slot = es → owned.length < k →
      wp (children.forM (deleteChild k)) v (fun _ v' => Wipes owned v v') (fun _ _ => False) := by
  induction h with
  | nil =>
    intro v children k _ _ _ hes _
    obtain rfl := map_eq_nil_iff.1 hes
    rw [List.forM, wp_pure]
    exact Wipes.nil v
  | symlink hk _ ih =>
    intro v children k ha hn hs hes hlen
    obtain ⟨c, cs, rfl, hc, hcs⟩ := map_eq_cons_iff.1 hes
    cases c with
    | file f => rw [← hc] at hk; cases hk
    | directory name link => rw [← hc] at hk; cases hk
    | symLink name dest => exact ih hnodup hplaced v cs k ha hn hs hcs hlen
  | @file e es ind owned ext hk hlink _ ih =>
    intro v children k ha hn hs hes hlen
    obtain ⟨c, cs, rfl, hc, hcs⟩ := map_eq_cons_iff.1 hes
    obtain ⟨hnfile, hnrest, hdisj⟩ := nodup_append.1 hnodup
    cases c with
    | directory name link => rw [← hc] at hk; cases hk
    | symLink name dest => rw [← hc] at hk; cases hk
    | file f =>
      have hhead : f.head = e.link := by rw [← hc]; rfl
      have hlink' : LinkChain v.disk f.head ind ext := by
        rw [hhead]
        exact hlink.frame hn fun x hx => hs x (by simp [hx])
      refine wp_seq (file_delete_spec ha hlink' (nodup_append.1 hnfile).1
        fun x hx => hplaced x (mem_append_left _ hx)) (fun _ v1 h1 => ?_) (fun _ _ h => h)
      have hrest := ih hnrest (fun x hx => hplaced x (mem_append_right _ hx)) v1 cs k
        (h1.area ha fun x hx => (hplaced x (mem_append_left _ hx)).2) (h1.shape.sectorCount.trans hn)
        (fun x hx => by
          rw [h1.disk, if_neg fun hmem => hdisj x hmem x hx rfl, hs x (mem_append_right _ hx)])
        hcs (by rw [length_append] at hlen; omega)
      exact wp_mono hrest (fun _ v2 h2 => h1.append h2) (fun _ _ h => h)
  | @directory e es sub chain inner owned hk hd hchain hsub _ ihsub ih =>
    intro v children k ha hn hs hes hlen
    obtain ⟨c, cs, rfl, hc, hcs⟩ := map_eq_cons_iff.1 hes
    obtain ⟨hndir, hnrest, hdisj⟩ := nodup_append.1 hnodup
    obtain ⟨hnchain, hninner, hdisj'⟩ := nodup_append.1 hndir
    rw [length_append, length_append] at hlen
    cases c with
    | file f => rw [← hc] at hk; cases hk
    | symLink name dest => rw [← hc] at hk; cases hk
    | directory name link =>
      obtain rfl : link = e.link := by rw [← hc]; rfl
      have hinside := ha.inside
      have hpos : 0 < chain.length := by
        obtain ⟨rest, rfl⟩ := hchain.cons_of_direct hd
        simp
      obtain ⟨k, rfl⟩ := Nat.exists_eq_succ_of_ne_zero (by omega : k ≠ 0)
      have hchain' := hchain.frame hn fun x hx => hs x (by simp [hx])
      have hsub' := hsub.frame hn fun x hx => hs x (by simp [hx])
      have hshort := length_le_of_nodup hnchain hchain'.mem_lt
      obtain ⟨dir, hopen, hhead, -, hslots, -⟩ :=
        hchain'.openAt hd (hsub'.readable hninner) hshort (Filename.fromStr [])
      refine wp_seq (Q := fun _ v' => Wipes (chain ++ inner) v v') ?_ (fun _ v1 h1 => ?_) (fun _ _ h => h)
      · refine wp_reads_seq ?_ hopen
        rw [delete_succ]
        refine wp_seq (ihsub hninner (fun x hx => hplaced x (by simp [hx])) v dir.children k ha hn
          (fun x hx => hs x (by simp [hx])) hslots (by omega)) (fun _ v1 h1 => ?_) (fun _ _ h => h)
        refine wp_reads_seq ?_ rfl
        have hsame : ∀ x ∈ chain, v1.disk.sectors x = v.disk.sectors x := fun x hx => by
          rw [h1.disk, if_neg fun hmem => hdisj' x hx x hmem rfl]
        rw [hhead]
        refine wp_mono (deleteChain_spec hchain' hnchain (fun x hx => hplaced x (by simp [hx])) v1 _
          (h1.area ha fun x hx => (hplaced x (by simp [hx])).2) h1.shape.sectorCount hsame
          (by rw [Disk.fuel, h1.shape.sectorCount]; omega)) (fun _ v2 h2 => ?_) (fun _ _ h => h)
        refine (h1.append h2).congr fun x => ?_
        rw [mem_append, mem_append, or_comm]
      · have hrest := ih hnrest (fun x hx => hplaced x (mem_append_right _ hx)) v1 cs (k + 1)
          (h1.area ha fun x hx => (hplaced x (mem_append_left _ hx)).2)
          (h1.shape.sectorCount.trans hn)
          (fun x hx => by
            rw [h1.disk, if_neg fun hmem => hdisj x hmem x hx rfl, hs x (mem_append_right _ hx)])
          hcs (by omega)
        exact wp_mono hrest (fun _ v2 h2 => h1.append h2) (fun _ _ h => h)

theorem delete_name (k : ℕ) (dir : Directory) (name : Filename) :
    Directory.delete k { dir with name := name } = Directory.delete k dir := by
  cases k <;> rfl

theorem openAt_name (d : Disk) (name name' : Filename) (link : LinkPointer) :
    Directory.openAt d name' link = (fun dir => { dir with name := name' }) <$> Directory.openAt d name link := by
  simp only [Directory.openAt, Directory.fromDirBlock]
  cases link.read d with
  | error e => rfl
  | ok sec =>
    simp only [bind, Except.bind]
    cases addChildrenFromLink d d.fuel link <;> rfl

theorem deleteEntry_eq (c : DirectoryEntry) (v : Volume) :
    LemonFS.deleteEntry c v = deleteChild v.disk.depth c v := by
  cases c with
  | file f => rfl
  | symLink name dest => rfl
  | directory name link =>
    show Prog.seq (Prog.reads _) _ v = Prog.seq (Prog.reads _) _ v
    unfold Prog.seq Prog.reads
    simp only [openAt_name v.disk (Filename.fromStr []) name link]
    cases Directory.openAt v.disk (Filename.fromStr []) link with
    | error e => rfl
    | ok dir => exact congrFun (delete_name _ dir name) v

theorem deleteEntry_spec {c : DirectoryEntry} (ha : Area lo hi v) (h : Owns v.disk [c.slot] owned)
    (hnodup : owned.Nodup) (hplaced : ∀ x ∈ owned, lo ≤ x ∧ x < hi) :
    wp (LemonFS.deleteEntry c) v (fun _ v' => Wipes owned v v') (fun _ _ => False) := by
  have hinside := ha.inside
  have hshort := length_le_of_nodup hnodup fun x hx => lt_trans (hplaced x hx).2 hinside
  -- the entry is deleted as the only child of a list
  have hone := deleteChildren_spec h hnodup hplaced v [c] v.disk.depth ha rfl (fun _ _ => rfl) rfl
    (by unfold Disk.depth Disk.fuel; nlinarith)
  have hlist : [c].forM (deleteChild v.disk.depth) = deleteChild v.disk.depth c := by
    rw [List.forM, List.forM]
    exact bind_pure_unit
  rw [hlist] at hone
  simp only [wp, deleteEntry_eq] at hone ⊢
  exact hone

end MaramOS
