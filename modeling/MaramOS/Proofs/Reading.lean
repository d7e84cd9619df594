import MaramOS.Proofs.Rewrite

/-! Reading. `read` copies the bytes that the extents of a file address, in
order, and nothing else of the destination changes. -/

namespace MaramOS

def Disk.byteAt (d : Disk) (a : ℕ × ℕ) : UInt8 := (d.sectors a.1).byte a.2

def Inside (d : Disk) (links : List LinkPointer) : Prop :=
  ∀ l ∈ links, 0 < l.size ∧ l.start + divCeil l.size 512 ≤ d.sectorCount

/-- The bytes of the extents from `offset` to `size` replace those of the destination. -/
def copied (d : Disk) (size offset : ℕ) (links : List LinkPointer) (dest : PhysPage) : PhysPage where
  count := dest.count
  bytes := fun i => if offset ≤ i ∧ i < size then
    ((addrs links)[i - offset]?.map d.byteAt).getD (dest.bytes i) else dest.bytes i

theorem addrs_cons (l : LinkPointer) (links : List LinkPointer) :
    addrs (l :: links) = (List.range l.size).map (fun i => (l.start + i / 512, i % 512)) ++ addrs links :=
  List.flatMap_cons

theorem PhysPage.ext_bytes {p q : PhysPage} (hc : p.count = q.count) (hb : ∀ i, p.bytes i = q.bytes i) : p = q := by
  obtain ⟨count, bytes⟩ := p
  obtain ⟨count', bytes'⟩ := q
  obtain rfl : count = count' := hc
  obtain rfl : bytes = bytes' := funext hb
  rfl

variable {d : Disk} {links : List LinkPointer}

theorem readLinks_spec (size : ℕ) (links : List LinkPointer) (h : Inside d links) :
    ∀ offset dest, readLinks d size offset links dest = .ok (copied d size offset links dest) := by
  induction links with
  | nil =>
    intro offset dest
    rw [readLinks]
    refine congrArg Except.ok (PhysPage.ext_bytes rfl fun i => ?_)
    simp [copied, addrs]
  | cons l links ih =>
    intro offset dest
    obtain ⟨hpos, hfit⟩ := h l (by simp)
    have ih := ih fun l' hl' => h l' (by simp [hl'])
    rw [readLinks]
    split_ifs with hdone
    · refine congrArg Except.ok (PhysPage.ext_bytes rfl fun i => ?_)
      simp only [copied]
      rw [if_neg (by omega)]
    · have hcount : divCeil l.size 512 ≠ 0 := by
        unfold divCeil
        omega
      have hread : d.readSectors l.start (divCeil l.size 512) =
          some fun i => (d.sectors (l.start + i / 512)).byte (i % 512) := by
        have hdisk := d.fits
        rw [Disk.readSectors, Nat.mod_eq_of_lt (by omega), if_neg hcount, if_neg (by omega)]
      simp only [hread]
      rw [ih]
      refine congrArg Except.ok (PhysPage.ext_bytes rfl fun i => ?_)
      simp only [copied, addrs_cons]
      by_cases hi : offset ≤ i ∧ i < size
      · rw [if_pos hi]
        by_cases hhere : i < offset + l.size
        · -- a byte of this extent
          have hget : (List.map (fun i => (l.start + i / 512, i % 512)) (List.range l.size) ++ addrs links)[i - offset]? =
              some (l.start + (i - offset) / 512, (i - offset) % 512) := by
            rw [List.getElem?_append_left (by simp; omega)]
            simp only [List.getElem?_map]
            rw [List.getElem?_range (by omega)]
            rfl
          rw [hget, if_neg (by omega), if_pos (by omega)]
          rfl
        · have hmin : min (size - offset) l.size = l.size := by omega
          rw [hmin, if_pos (by omega), if_neg (by omega), List.getElem?_append_right (by simp; omega)]
          congr 3
          simp
          omega
      · rw [if_neg hi, if_neg (by omega), if_neg (by omega)]

theorem mem_addrs {a : ℕ × ℕ} (h : a ∈ addrs links) :
    a.1 ∈ fileBlocks links ∧ a.2 < 512 := by
  obtain ⟨l, hl, ha⟩ := List.mem_flatMap.1 h
  obtain ⟨i, hi, rfl⟩ := List.mem_map.1 ha
  rw [List.mem_range] at hi
  refine ⟨List.mem_flatMap.2 ⟨l, hl, List.mem_range'_1.2 ⟨by omega, ?_⟩⟩, Nat.mod_lt _ (by norm_num)⟩
  unfold divCeil
  omega

theorem copied_congr {d' : Disk} (h : ∀ x ∈ fileBlocks links, d'.sectors x = d.sectors x) (size offset : ℕ)
    (dest : PhysPage) : copied d' size offset links dest = copied d size offset links dest := by
  refine PhysPage.ext_bytes rfl fun i => ?_
  simp only [copied]
  split_ifs with hi
  · cases hget : (addrs links)[i - offset]? with
    | none => rfl
    | some a =>
      have hmem := mem_addrs (List.mem_of_getElem? hget)
      simp only [Option.map_some, Option.getD_some, Disk.byteAt]
      rw [h _ hmem.1]
  · rfl

theorem inside_of_blocks (hd : ∀ l ∈ links, l.isDirect = true) (h : ∀ x ∈ fileBlocks links, x < d.sectorCount) :
    Inside d links := by
  intro l hl
  have hpos : 0 < l.size := by
    have := hd l hl
    simp only [LinkPointer.isDirect, bne_iff_ne] at this
    omega
  have hlast : l.start + (divCeil l.size 512 - 1) < d.sectorCount := by
    refine h _ (List.mem_flatMap.2 ⟨l, hl, List.mem_range'_1.2 ⟨by omega, ?_⟩⟩)
    unfold divCeil
    omega
  exact ⟨hpos, by omega⟩

def sectorAddrs (x : ℕ) : List (ℕ × ℕ) := (List.range 512).map fun b => (x, b)

theorem length_sectorAddrs (x : ℕ) : (sectorAddrs x).length = 512 := by
  rw [sectorAddrs, List.length_map, List.length_range]

theorem getElem?_sectorAddrs (l : List ℕ) (i : ℕ) :
    (l.flatMap sectorAddrs)[i]? = l[i / 512]?.map fun x => (x, i % 512) := by
  induction l generalizing i with
  | nil => simp
  | cons x l ih =>
    rw [List.flatMap_cons]
    by_cases hi : i < 512
    · have hlen : i < (sectorAddrs x).length := lt_of_lt_of_eq hi (length_sectorAddrs x).symm
      have hget : (sectorAddrs x)[i]? = some (x, i) := by
        rw [sectorAddrs, List.getElem?_map, List.getElem?_range hi]
        rfl
      have hhere := @List.getElem?_append_left _ _ (l.flatMap sectorAddrs) _ hlen
      rw [Nat.div_eq_of_lt hi, Nat.mod_eq_of_lt hi]
      exact hhere.trans hget
    · have hdiv : i / 512 = (i - 512) / 512 + 1 := by omega
      have hmod : i % 512 = (i - 512) % 512 := by omega
      have hlen : (sectorAddrs x).length ≤ i := le_of_eq_of_le (length_sectorAddrs x) (by omega)
      have hthere := @List.getElem?_append_right _ _ (l.flatMap sectorAddrs) _ hlen
      rw [length_sectorAddrs] at hthere
      rw [hdiv, hmod, List.getElem?_cons_succ, ← ih]
      exact hthere

theorem addrs_whole {n : ℕ} (ext : List LinkPointer) (h : ∀ p ∈ ext, p.Whole n) :
    addrs ext = (fileBlocks ext).flatMap sectorAddrs := by
  induction ext with
  | nil => rfl
  | cons p ext ih =>
    obtain ⟨-, k, -, hsize, -⟩ := h p (by simp)
    have hone : (List.range (512 * k)).map (fun i => (p.start + i / 512, i % 512)) =
        (List.range' p.start k).flatMap sectorAddrs := by
      apply List.ext_getElem?
      intro i
      rw [getElem?_sectorAddrs, List.getElem?_map]
      by_cases hi : i < 512 * k
      · rw [List.getElem?_range hi, List.getElem?_range' (by omega)]
        simp
      · rw [List.getElem?_eq_none (by simpa using hi), List.getElem?_eq_none (by simp; omega)]
        rfl
    rw [addrs_cons, fileBlocks_cons, List.flatMap_append, ih fun q hq => h q (by simp [hq]),
      LinkPointer.blocks_of_size hsize, hsize, hone]

namespace LemonFS

variable {s : LemonFS} {p : Path} {dir : Directory} {f : File}

section

variable (hroot : p.isRoot = false) (hpar : s.getParent p = .ok dir)
include hroot hpar

theorem fileSize_of_child (hget : dir.getChild p.name = some (.file f)) : s.fileSize p = .ok f.size := by
  unfold fileSize
  rw [hroot, hpar]
  simp only [Bool.false_eq_true, if_false, bind, Except.bind, hget]

theorem read_of_child (hget : dir.getChild p.name = some (.file f)) (hin : Inside s.disk f.links) (dest : PhysPage) :
    s.read p dest = .ok (min (wsum (f.links.map (·.size))) (dest.count * PAGE_SIZE),
      copied s.disk (min (wsum (f.links.map (·.size))) (dest.count * PAGE_SIZE)) 0 f.links dest) := by
  unfold read
  rw [hroot, hpar]
  simp only [Bool.false_eq_true, if_false, bind, Except.bind, hget, readLinks_spec _ _ hin]
  rfl

theorem read_of_symlink {name : Filename} {target : LinkPointer} {links : List LinkPointer}
    (hget : dir.getChild p.name = some (.symLink name target)) (hlinks : resolveLinks s.disk target = .ok links)
    (hin : Inside s.disk links) (dest : PhysPage) :
    s.read p dest = .ok (min (wsum (links.map (·.size))) (dest.count * PAGE_SIZE),
      copied s.disk (min (wsum (links.map (·.size))) (dest.count * PAGE_SIZE)) 0 links dest) := by
  unfold read
  rw [hroot, hpar]
  simp only [Bool.false_eq_true, if_false, bind, Except.bind, hget, hlinks, readLinks_spec _ _ hin]
  rfl

end

theorem child_of_fileSize {size : ℕ} (h : s.fileSize p = .ok size) :
    p.isRoot = false ∧ ∃ dir f, s.getParent p = .ok dir ∧ dir.getChild p.name = some (.file f) ∧ f.size = size := by
  unfold fileSize at h
  split_ifs at h with hroot
  refine ⟨by simpa using hroot, ?_⟩
  cases hpar : s.getParent p with
  | error e =>
    rw [hpar] at h
    cases h
  | ok dir =>
    simp only [hpar, bind, Except.bind] at h
    split at h
    · cases h
    · rename_i f hget
      exact ⟨dir, f, rfl, hget, Except.ok.inj h⟩
    · cases h

end LemonFS

end MaramOS
