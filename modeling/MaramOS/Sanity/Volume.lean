import MaramOS.Sanity.Available
import MaramOS.Spec.LemonFS

/-! What the steps on a volume change. A program either wipes sectors (gives them
back and zeroes them), takes sectors from the allocator, or writes sectors it
holds; `Touches` is what all of them have in common: outside the sectors they
work on and those that were free, nothing is written and nothing becomes free. -/

namespace MaramOS

open List

variable {d : Disk}

theorem readData_eq {x : ℕ} (h : x < d.sectorCount) : readData d x = .ok (d.sectors x) := by
  have hfits := d.fits
  unfold readData Disk.readSectors
  rw [Nat.mod_eq_of_lt (by omega), if_neg one_ne_zero, if_neg (by omega)]
  refine congrArg Except.ok (funext fun i => ?_)
  have hi := i.isLt
  simp [Sector.byte, Nat.div_eq_of_lt hi, Nat.mod_eq_of_lt hi]

theorem writeSectors_spec {d : Disk} {start count : ℕ} {src : PhysPage}
    (hpage : count * 512 ≤ src.count * PAGE_SIZE) (h : start + count ≤ d.sectorCount) :
    ∃ d', d.writeSectors start count src = some d' ∧ d'.sectorCount = d.sectorCount ∧
      ∀ x, d'.sectors x = if start ≤ x ∧ x < start + count
        then fun b => src.bytes ((x - start) * 512 + b.val) else d.sectors x := by
  unfold Disk.writeSectors
  by_cases hcount : count = 0
  · rw [if_pos hcount]
    exact ⟨d, rfl, rfl, fun x => by rw [if_neg (by omega)]⟩
  · have hfits := d.fits
    rw [Nat.mod_eq_of_lt (by omega), if_neg hcount, if_neg (by omega), if_neg (by omega), if_neg (by omega)]
    exact ⟨_, rfl, rfl, fun _ => rfl⟩

namespace Volume

/-- The allocator has `x` on offer, though `alloc(1)` may not find it. -/
def Free (v : Volume) (x : ℕ) : Prop :=
  v.bitmap.dataStart ≤ x ∧ v.bitmap.bit (x - v.bitmap.dataStart) = false

/-- The data area is `[lo, hi)`: it lies inside the partition, the bitmap covers
it and nothing outside it is free. -/
structure Area (lo hi : ℕ) (v : Volume) : Prop where
  pos : 0 < lo
  dataStart : v.bitmap.dataStart = lo
  covers : hi - lo ≤ 4096 * v.bitmap.blocks.length
  free_lt : ∀ x, v.Free x → x < hi
  inside : hi < v.disk.sectorCount

structure SameShape (v v' : Volume) : Prop where
  sectorCount : v'.disk.sectorCount = v.disk.sectorCount
  dataStart : v'.bitmap.dataStart = v.bitmap.dataStart
  length : v'.bitmap.blocks.length = v.bitmap.blocks.length

theorem SameShape.refl (v : Volume) : SameShape v v := ⟨rfl, rfl, rfl⟩

variable {v v' v'' : Volume} {lo hi : ℕ} {l l' t : List ℕ}

theorem SameShape.trans (h : SameShape v v') (h' : SameShape v' v'') :
    SameShape v v'' :=
  ⟨h'.1.trans h.1, h'.2.trans h.2, h'.3.trans h.3⟩

theorem Area.of_free (h : Area lo hi v) (hs : SameShape v v') (hfree : ∀ x, v'.Free x → v.Free x ∨ x < hi) :
    Area lo hi v' where
  pos := h.pos
  dataStart := hs.dataStart.trans h.dataStart
  covers := by rw [hs.length]; exact h.covers
  free_lt x hx := (hfree x hx).elim (h.free_lt x) id
  inside := by rw [hs.sectorCount]; exact h.inside

theorem Area.word (h : Area lo hi v) : ∀ x, v.Free x → x < 2 ^ 64 := by
  intro x hx
  have hlt := h.free_lt x hx
  have hinside := h.inside
  have hfits := v.disk.fits
  omega

/-- The listed sectors are given back and zeroed. -/
structure Wipes (l : List ℕ) (v v' : Volume) : Prop where
  shape : SameShape v v'
  disk : ∀ x, v'.disk.sectors x = if x ∈ l then Sector.zero else v.disk.sectors x
  free : ∀ x, v'.Free x ↔ v.Free x ∨ x ∈ l

/-- The listed sectors are given back as they are. -/
structure Frees (l : List ℕ) (v v' : Volume) : Prop where
  shape : SameShape v v'
  disk : v'.disk = v.disk
  free : ∀ x, v'.Free x ↔ v.Free x ∨ x ∈ l

/-- The listed sectors are handed out, in that order, one by one. -/
structure Takes (l : List ℕ) (v v' : Volume) : Prop where
  shape : SameShape v v'
  disk : v'.disk = v.disk
  free : ∀ x, v'.Free x ↔ v.Free x ∧ x ∉ l
  available : v.bitmap.available [] = l ++ v'.bitmap.available []
  nodup : l.Nodup
  wasFree : ∀ x ∈ l, v.Free x

/-- Sector number `i` of the list gets the content `f i`. -/
structure Stores (l : List ℕ) (f : ℕ → Sector) (v v' : Volume) : Prop where
  sectorCount : v'.disk.sectorCount = v.disk.sectorCount
  bitmap : v'.bitmap = v.bitmap
  stored : ∀ i x, l[i]? = some x → v'.disk.sectors x = f i
  rest : ∀ x, x ∉ l → v'.disk.sectors x = v.disk.sectors x

/-- Only sectors of `t` and free ones are written, and no others become free. -/
structure Touches (t : List ℕ) (v v' : Volume) : Prop where
  shape : SameShape v v'
  disk : ∀ x, x ∉ t → ¬ v.Free x → v'.disk.sectors x = v.disk.sectors x
  free : ∀ x, x ∉ t → v'.Free x → v.Free x

theorem Wipes.nil (v : Volume) : Wipes [] v v := ⟨.refl v, by simp, by simp⟩

theorem Wipes.append (h : Wipes l v v') (h' : Wipes l' v' v'') :
    Wipes (l ++ l') v v'' := by
  refine ⟨h.shape.trans h'.shape, fun x => ?_, fun x => ?_⟩
  · rw [h'.disk, h.disk]
    by_cases hx : x ∈ l' <;> by_cases hx' : x ∈ l <;> simp [hx, hx']
  · rw [h'.free, h.free, mem_append, or_assoc]

theorem Wipes.area (h : Wipes l v v') (ha : Area lo hi v) (hl : ∀ x ∈ l, x < hi) : Area lo hi v' :=
  ha.of_free h.shape fun x hx => ((h.free x).1 hx).imp id (hl x)

theorem Wipes.touches (h : Wipes l v v') (hl : l ⊆ t) :
    Touches t v v' where
  shape := h.shape
  disk x hx _ := by rw [h.disk, if_neg fun hm => hx (hl hm)]
  free x hx hf := ((h.free x).1 hf).resolve_right fun hm => hx (hl hm)

theorem available_of_free (hs : SameShape v v') (hfree : ∀ x, v'.Free x ↔ v.Free x ∨ x ∈ l) (r : List ℕ) :
    v'.bitmap.available r = v.bitmap.available (l ++ r) := by
  have hbit : ∀ i, v'.bitmap.bit i = false ↔ v.bitmap.bit i = false ∨ i + v.bitmap.dataStart ∈ l := by
    intro i
    have hi := hfree (i + v.bitmap.dataStart)
    simpa [Free, hs.dataStart] using hi
  rw [BitmapAllocator.available, BitmapAllocator.available, hs.length, hs.dataStart]
  refine congrArg _ (filter_congr fun j _ => ?_)
  rw [Bool.eq_iff_iff, BitmapAllocator.tailFree_iff, BitmapAllocator.tailFree_iff]
  simp only [hbit, hs.dataStart, mem_append, or_assoc]

theorem Frees.nil (v : Volume) : Frees [] v v := ⟨.refl v, rfl, by simp⟩

theorem Frees.append (h : Frees l v v') (h' : Frees l' v' v'') :
    Frees (l ++ l') v v'' := by
  refine ⟨h.shape.trans h'.shape, h'.disk.trans h.disk, fun x => ?_⟩
  rw [h'.free, h.free, mem_append, or_assoc]

theorem Stores.shape {f : ℕ → Sector} (h : Stores l f v v') : SameShape v v' :=
  ⟨h.sectorCount, by rw [h.bitmap], by rw [h.bitmap]⟩

theorem Stores.free {l : List ℕ} {f : ℕ → Sector} {v v' : Volume} (h : Stores l f v v') (x : ℕ) :
    v'.Free x ↔ v.Free x := by
  rw [Free, Free, h.bitmap]

theorem Takes.nil (v : Volume) : Takes [] v v := ⟨.refl v, rfl, by simp, rfl, by simp, by simp⟩

theorem Takes.append (h : Takes l v v') (h' : Takes l' v' v'') :
    Takes (l ++ l') v v'' := by
  refine ⟨h.shape.trans h'.shape, h'.disk.trans h.disk, fun x => ?_, ?_, ?_, fun x hx => ?_⟩
  · rw [h'.free, h.free, mem_append, not_or, and_assoc]
  · rw [h.available, h'.available, append_assoc]
  · refine nodup_append.2 ⟨h.nodup, h'.nodup, ?_⟩
    rintro x hx _ hx' rfl
    exact ((h.free x).1 (h'.wasFree x hx')).2 hx
  · rcases mem_append.1 hx with hx | hx
    · exact h.wasFree x hx
    · exact ((h.free x).1 (h'.wasFree x hx)).1

theorem Takes.of_frees (h : Frees [] v v') (h' : Takes l v' v'') :
    Takes l v v'' := by
  have hfree : ∀ x, v'.Free x ↔ v.Free x := by simpa using h.free
  refine ⟨h.shape.trans h'.shape, h'.disk.trans h.disk, fun x => ?_, ?_, h'.nodup, fun x hx => ?_⟩
  · rw [h'.free, hfree]
  · rw [← h'.available, available_of_free h.shape h.free]
    rfl
  · exact (hfree x).1 (h'.wasFree x hx)

theorem Takes.area (h : Takes l v v') (ha : Area lo hi v) :
    Area lo hi v' :=
  ha.of_free h.shape fun x hx => Or.inl ((h.free x).1 hx).1

theorem Takes.touches (h : Takes l v v') : Touches t v v' where
  shape := h.shape
  disk x _ _ := by rw [h.disk]
  free x _ hf := ((h.free x).1 hf).1

theorem Touches.refl (t : List ℕ) (v : Volume) : Touches t v v :=
  ⟨.refl v, fun _ _ _ => rfl, fun _ _ h => h⟩

theorem Touches.trans (h : Touches t v v') (h' : Touches t v' v'') :
    Touches t v v'' where
  shape := h.shape.trans h'.shape
  disk x hx hf := by rw [h'.disk x hx fun hf' => hf (h.free x hx hf'), h.disk x hx hf]
  free x hx hf := h.free x hx (h'.free x hx hf)

theorem Touches.mono {t' : List ℕ} (h : Touches t v v') (ht : t ⊆ t') :
    Touches t' v v' where
  shape := h.shape
  disk x hx := h.disk x fun hm => hx (ht hm)
  free x hx := h.free x fun hm => hx (ht hm)

theorem Touches.area (h : Touches t v v') (ha : Area lo hi v) (ht : ∀ x ∈ t, v'.Free x → x < hi) : Area lo hi v' := by
  refine ha.of_free h.shape fun x hx => ?_
  by_cases hm : x ∈ t
  · exact Or.inr (ht x hm hx)
  · exact Or.inl (h.free x hm hx)

end Volume

theorem zeroLoop_spec {page : PhysPage} (hzero : ∀ i, page.bytes i = 0) (k : ℕ) :
    ∀ (d : Disk) (sector rem : ℕ), rem ≤ k → min rem 0x1000 * 512 ≤ page.count * PAGE_SIZE →
      sector + rem ≤ d.sectorCount → ∃ d', Disk.zeroLoop page k sector rem d = (true, d') ∧
        d'.sectorCount = d.sectorCount ∧ ∀ x, d'.sectors x =
          if sector ≤ x ∧ x < sector + rem then Sector.zero else d.sectors x := by
  induction k with
  | zero =>
    intro d sector rem hk _ _
    exact ⟨d, rfl, rfl, fun x => by rw [if_neg (by omega)]⟩
  | succ k ih =>
    intro d sector rem hk hpage hfit
    rw [Disk.zeroLoop]
    by_cases hrem : rem = 0
    · rw [if_pos hrem]
      exact ⟨d, rfl, rfl, fun x => by rw [if_neg (by omega)]⟩
    obtain ⟨d1, hd1, hcount1, hsec1⟩ := writeSectors_spec hpage
      (show sector + min rem 0x1000 ≤ d.sectorCount by omega)
    obtain ⟨d', hd', hcount, hsec⟩ := ih d1 (sector + min rem 0x1000) (rem - min rem 0x1000) (by omega)
      (le_trans (Nat.mul_le_mul_right _ (by omega)) hpage) (by omega)
    rw [if_neg hrem]
    simp only [hd1]
    refine ⟨d', hd', hcount.trans hcount1, fun x => ?_⟩
    rw [hsec, hsec1]
    by_cases hx : sector ≤ x ∧ x < sector + rem
    · by_cases hx' : x < sector + min rem 0x1000
      · rw [if_neg (by omega), if_pos hx, if_pos (by omega)]
        funext i
        exact hzero _
      · rw [if_pos (by omega), if_pos hx]
    · rw [if_neg (by omega), if_neg hx, if_neg (by omega)]

theorem Disk.zeroSectors_spec {start count : ℕ} (h : start + count ≤ d.sectorCount) :
    ∃ d', d.zeroSectors start count = (true, d') ∧ d'.sectorCount = d.sectorCount ∧ ∀ x, d'.sectors x =
      if start ≤ x ∧ x < start + count then Sector.zero else d.sectors x := by
  refine zeroLoop_spec (fun _ => rfl) count d start count le_rfl ?_ h
  simp only [PhysPage.zeroed, divCeil, PAGE_SIZE]
  omega

namespace Volume

open Prog

variable {lo hi : ℕ} {v : Volume} {x count : ℕ}

theorem free_covered (hx : v.bitmap.dataStart ≤ x)
    (hc : x + count ≤ v.bitmap.dataStart + 4096 * v.bitmap.blocks.length) :
    wp (Volume.free x count) v (fun _ v' => Frees (range' x count) v v') (fun _ _ => False) := by
  obtain ⟨b', hb', hc'⟩ := BitmapAllocator.free_spec v.bitmap x count hx (by omega)
  have hfree : Volume.free x count v = (.ok (), { v with bitmap := b' }) := by rw [Volume.free, hb']
  simp only [wp, hfree]
  refine ⟨⟨rfl, hc'.dataStart, hc'.length⟩, rfl, fun y => ?_⟩
  simp only [Free, hc'.dataStart, hc'.bit, BitmapAllocator.mem_span, mem_range'_1]
  by_cases hlo : v.bitmap.dataStart ≤ y
  · by_cases hy : x ≤ y ∧ y < x + count
    · rw [if_pos (by omega)]
      simp [hlo, hy]
    · rw [if_neg (by omega)]
      simp [hy]
  · simp only [hlo, false_and, false_or, false_iff]
    omega

theorem free_spec (ha : Area lo hi v) (hx : lo ≤ x) (hc : x + count ≤ hi) :
    wp (Volume.free x count) v (fun _ v' => Frees (range' x count) v v') (fun _ _ => False) := by
  have hcovers := ha.covers
  have hstart := ha.dataStart
  exact free_covered (by omega) (by omega)

theorem zeroSectors_spec {start : ℕ} (h : start + count ≤ v.disk.sectorCount) :
    wp (Volume.zeroSectors start count) v
      (fun _ v' => v'.bitmap = v.bitmap ∧ v'.disk.sectorCount = v.disk.sectorCount ∧ ∀ x, v'.disk.sectors x =
        if start ≤ x ∧ x < start + count then Sector.zero else v.disk.sectors x)
      (fun _ _ => False) := by
  obtain ⟨d', hd', hcount, hsec⟩ := Disk.zeroSectors_spec h
  have hzero : Volume.zeroSectors start count v = (.ok (), { v with disk := d' }) := by
    simp [Volume.zeroSectors, hd']
  simp only [wp, hzero]
  exact ⟨trivial, hcount, hsec⟩

theorem discard_spec (ha : Area lo hi v) (hx : lo ≤ x) (hc : x + count ≤ hi) :
    wp (discard x count) v (fun _ v' => Wipes (range' x count) v v') (fun _ _ => False) := by
  have hinside := ha.inside
  refine wp_seq (free_spec ha hx hc) (fun _ v1 h1 => ?_) (fun _ _ h => h)
  have hfit : x + count ≤ v1.disk.sectorCount := by
    rw [h1.disk]
    omega
  refine wp_mono (zeroSectors_spec hfit) ?_ (fun _ _ h => h)
  rintro _ v2 ⟨hbitmap, hcount, hsec⟩
  refine ⟨h1.shape.trans ⟨hcount, by rw [hbitmap], by rw [hbitmap]⟩, fun y => ?_, fun y => ?_⟩
  · rw [hsec, h1.disk]
    simp only [mem_range'_1]
  · rw [← h1.free, Free, Free, hbitmap]

theorem discardAll_spec (l : List ℕ) (ha : Area lo hi v) (hl : ∀ x ∈ l, lo ≤ x ∧ x < hi) :
    wp (l.forM fun x => discard x 1) v (fun _ v' => Wipes l v v') (fun _ _ => False) := by
  refine wp_forM l (fun done v' => Wipes done v v') ?_ (Wipes.nil v)
  intro done x rest v' hsplit hdone
  have hmem : ∀ y ∈ done, y < hi := fun y hy => (hl y (by rw [hsplit]; simp [hy])).2
  have hx := hl x (by rw [hsplit]; simp)
  refine wp_mono (discard_spec (hdone.area ha hmem) hx.1 hx.2) (fun _ v'' h => ?_) (fun _ _ h => h)
  exact hdone.append h

theorem freeAll_spec (l : List ℕ) (ha : Area lo hi v) (hl : ∀ x ∈ l, lo ≤ x ∧ x < hi) :
    wp (l.forM fun x => Volume.free x 1) v (fun _ v' => Frees l v v') (fun _ _ => False) := by
  refine wp_forM l (fun done v' => Frees done v v') ?_ (Frees.nil v)
  intro done x rest v' hsplit hdone
  have harea : Area lo hi v' := ha.of_free hdone.shape fun y hy =>
    ((hdone.free y).1 hy).imp id fun hy => (hl y (by rw [hsplit]; simp [hy])).2
  have hx := hl x (by rw [hsplit]; simp)
  refine wp_mono (free_spec harea hx.1 hx.2) (fun _ v'' h => ?_) (fun _ _ h => h)
  exact hdone.append h

/-- A sector without a bit cannot be given back: the index panics. -/
theorem freeAll_any (l : List ℕ) (hbits : v.bitmap.dataStart + 4096 * v.bitmap.blocks.length ≤ 2 ^ 55) :
    wp (l.forM fun x => Volume.free x 1) v (fun _ v' => Frees l v v') (fun _ _ => True) := by
  refine wp_forM l (fun done v' => Frees done v v') ?_ (Frees.nil v)
  intro done x rest v' _ hdone
  have hstart := hdone.shape.dataStart
  have hlength := hdone.shape.length
  by_cases hx : v'.bitmap.dataStart ≤ x ∧ x + 1 ≤ v'.bitmap.dataStart + 4096 * v'.bitmap.blocks.length
  · exact wp_mono (free_covered hx.1 hx.2) (fun _ v'' h => hdone.append h) fun _ _ _ => trivial
  · have hout : v'.bitmap.blocks.length ≤ BitmapAllocator.blockOf (wsub x v'.bitmap.dataStart) := by
      unfold BitmapAllocator.blockOf BITS_PER_BLOCK wsub
      split_ifs with hle
      · omega
      · omega
    have hfail : v'.bitmap.free x 1 = .error .panic := by
      simp [BitmapAllocator.free, range_succ, BitmapAllocator.clearBit, BitmapAllocator.changeBit,
        BitmapAllocator.index, List.getElem?_eq_none hout, bind, Except.bind]
    have hrun : Volume.free x 1 v' = (.error .panic, v') := by rw [Volume.free, hfail]
    simp only [wp, hrun]

theorem allocSector_takes (v : Volume) :
    wp allocSector v (fun x v' => ∃ y, x = y % 2 ^ 64 ∧ Takes [y] v v')
      (fun e v' => e = .fs .noSpace ∧ v' = v ∧ v.bitmap.available [] = []) := by
  rw [allocSector, wp_bind]
  rcases BitmapAllocator.alloc_one v.bitmap with ⟨hnone, ha⟩ | ⟨x, b', hsome, ha, hlo, hbit, hc⟩
  · have hrun : alloc 1 v = (.ok none, v) := by rw [alloc, ha]
    simp only [wp, hrun]
    exact ⟨rfl, rfl, hnone⟩
  · have hrun : alloc 1 v = (.ok (some (x % 2 ^ 64)), { v with bitmap := b' }) := by rw [alloc, ha]
    simp only [wp, hrun]
    refine ⟨x, rfl, ⟨rfl, hc.dataStart, hc.length⟩, rfl, fun y => ?_, hsome, by simp, fun y hy => ?_⟩
    · simp only [Free, hc.dataStart, hc.bit, mem_singleton]
      by_cases hy : y - v.bitmap.dataStart = x - v.bitmap.dataStart
      · rw [if_pos hy]
        simp only [Bool.true_eq_false, and_false, false_iff, not_and, not_not]
        intro h
        omega
      · have hne : y ≠ x := by
          rintro rfl
          exact hy rfl
        rw [if_neg hy, and_iff_left hne]
    · obtain rfl := mem_singleton.1 hy
      exact ⟨hlo, hbit⟩

theorem allocSector_spec (hword : ∀ x, v.Free x → x < 2 ^ 64) :
    wp allocSector v (fun x v' => Takes [x] v v')
      (fun e v' => e = .fs .noSpace ∧ v' = v ∧ v.bitmap.available [] = []) := by
  refine wp_mono (allocSector_takes v) ?_ fun _ _ h => h
  rintro _ v' ⟨y, rfl, ht⟩
  rwa [Nat.mod_eq_of_lt (hword y (ht.wasFree y mem_cons_self))]

theorem reuse_takes (l : List ℕ) (n : ℕ) : ∀ (a : ℕ) (v : Volume),
    wp ((range' a n).mapM fun i =>
        match l[i]? with
        | some x => pure x
        | none => allocSector) v
      (fun r v' => ∃ fresh, r = (l.drop a).take n ++ fresh.map (· % 2 ^ 64) ∧ fresh.length = n - (l.length - a) ∧
        Takes fresh v v')
      (fun e v' => e = .fs .noSpace ∧ ∃ fresh, fresh.length < n - (l.length - a) ∧ Takes fresh v v' ∧
        v'.bitmap.available [] = [] ∧ (fresh = [] → v' = v)) := by
  induction n with
  | zero =>
    intro a v
    rw [range'_zero, mapM_nil, wp_pure]
    exact ⟨[], by simp, by simp, Takes.nil v⟩
  | succ n ih =>
    intro a v
    rw [range'_succ, mapM_cons]
    by_cases ha : a < l.length
    · rw [List.getElem?_eq_getElem ha]
      simp only [pure_bind]
      refine wp_seq (ih (a + 1) v) ?_ ?_
      · rintro r v' ⟨fresh, rfl, hlen, ht⟩
        rw [wp_pure]
        refine ⟨fresh, ?_, by omega, ht⟩
        rw [drop_eq_getElem_cons ha]
        rfl
      · rintro e v' ⟨rfl, fresh, hlen, ht, hnone, hsame⟩
        exact ⟨rfl, fresh, by omega, ht, hnone, hsame⟩
    · rw [List.getElem?_eq_none (by omega)]
      refine wp_seq (allocSector_takes v) ?_ ?_
      · rintro _ v1 ⟨x, rfl, hx⟩
        refine wp_seq (ih (a + 1) v1) ?_ ?_
        · rintro r v' ⟨fresh, rfl, hlen, ht⟩
          rw [wp_pure]
          refine ⟨x :: fresh, ?_, by simp only [length_cons]; omega, hx.append ht⟩
          rw [drop_eq_nil_of_le (by omega), drop_eq_nil_of_le (by omega)]
          simp
        · rintro e v' ⟨rfl, fresh, hlen, ht, hnone, -⟩
          exact ⟨rfl, x :: fresh, by simp only [length_cons]; omega, hx.append ht, hnone, fun h => by cases h⟩
      · rintro e v' ⟨rfl, rfl, hnone⟩
        exact ⟨rfl, [], by simp; omega, Takes.nil _, hnone, fun _ => rfl⟩

theorem reuse_spec (l : List ℕ) (n a : ℕ) (hword : ∀ x, v.Free x → x < 2 ^ 64) :
    wp ((range' a n).mapM fun i =>
        match l[i]? with
        | some x => pure x
        | none => allocSector) v
      (fun r v' => ∃ fresh, r = (l.drop a).take n ++ fresh ∧ fresh.length = n - (l.length - a) ∧
        Takes fresh v v')
      (fun e v' => e = .fs .noSpace ∧ ∃ fresh, fresh.length < n - (l.length - a) ∧ Takes fresh v v' ∧
        v'.bitmap.available [] = [] ∧ (fresh = [] → v' = v)) := by
  refine wp_mono (reuse_takes l n a v) ?_ fun _ _ h => h
  rintro _ v' ⟨fresh, rfl, hlen, ht⟩
  refine ⟨fresh, ?_, hlen, ht⟩
  rw [map_congr_left fun x hx => Nat.mod_eq_of_lt (hword x (ht.wasFree x hx)), map_id']

theorem writeData_spec (sec : Sector) (hx : x < v.disk.sectorCount) :
    wp (writeData x sec) v (fun _ v' => Stores [x] (fun _ => sec) v v') (fun _ _ => False) := by
  have hpage : 1 * 512 ≤ (PhysPage.ofSector sec).count * PAGE_SIZE := by
    norm_num [PhysPage.ofSector, PAGE_SIZE]
  have hwrite := @writeSectors_spec v.disk x 1 (PhysPage.ofSector sec) hpage hx
  obtain ⟨d', hd', hcount, hsec⟩ := hwrite
  have hrun : writeData x sec v = (.ok (), { v with disk := d' }) := by
    rw [writeData, writeSectors, hd']
  simp only [wp, hrun]
  refine ⟨hcount, rfl, fun i y hy => ?_, fun y hy => ?_⟩
  · obtain ⟨-, rfl⟩ : i = 0 ∧ x = y := by
      cases i with
      | zero => exact ⟨rfl, by simpa using hy⟩
      | succ i => simp at hy
    rw [hsec, if_pos (by omega)]
    funext b
    simp [PhysPage.ofSector, Sector.byte]
  · rw [hsec, if_neg]
    rw [mem_singleton] at hy
    omega

theorem writeData_any (sec : Sector) (hx : x < 2 ^ 55) :
    wp (writeData x sec) v (fun _ v' => x < v.disk.sectorCount ∧ Stores [x] (fun _ => sec) v v')
      (fun e _ => e = .fs .ioError ∧ v.disk.sectorCount ≤ x) := by
  rcases lt_or_ge x v.disk.sectorCount with hlt | hge
  · exact wp_mono (writeData_spec sec hlt) (fun _ _ h => ⟨hlt, h⟩) fun _ _ h => h.elim
  · have hfail : v.disk.writeSectors x 1 (PhysPage.ofSector sec) = none := by
      unfold Disk.writeSectors
      rw [if_neg one_ne_zero, Nat.mod_eq_of_lt hx, if_neg (by norm_num [PhysPage.ofSector, PAGE_SIZE]),
        if_pos (by omega)]
    have hrun : writeData x sec v = (.error (.fs .ioError), v) := by rw [writeData, writeSectors, hfail]
    simp only [wp, hrun]
    exact ⟨trivial, hge⟩

theorem storeAll_any (l : List ℕ) (f : ℕ → Sector) (hnodup : l.Nodup) (hlt : ∀ x ∈ l, x < 2 ^ 55) :
    wp ((List.range l.length).forM fun i =>
        match l[i]? with
        | some lba => writeData lba (f i)
        | none => fail .panic) v (fun _ v' => (∀ x ∈ l, x < v.disk.sectorCount) ∧ Stores l f v v')
      (fun e _ => e = .fs .ioError ∧ ∃ x ∈ l, v.disk.sectorCount ≤ x) := by
  refine wp_mono (wp_forM (List.range l.length) (fun done v' =>
      (∀ i ∈ done, ∀ x, l[i]? = some x → x < v.disk.sectorCount) ∧
      v'.disk.sectorCount = v.disk.sectorCount ∧ v'.bitmap = v.bitmap ∧
      (∀ i ∈ done, ∀ x, l[i]? = some x → v'.disk.sectors x = f i) ∧
      ∀ x, (∀ i ∈ done, l[i]? ≠ some x) → v'.disk.sectors x = v.disk.sectors x) ?_
    ⟨by simp, rfl, rfl, by simp, by simp⟩) ?_ (fun _ _ h => h)
  · rintro done i rest v' hsplit ⟨hinside, hcount, hbitmap, hdone, hrest⟩
    have hi : i < l.length := mem_range.1 (by rw [hsplit]; simp)
    have hnew : i ∉ done := by
      have hr := nodup_range (n := l.length)
      rw [hsplit] at hr
      exact fun hmem => (disjoint_of_nodup_append hr) hmem (by simp)
    -- no earlier block went to the sector that is written now
    have hother : ∀ j ∈ done, l[j]? ≠ some (l[i]) := by
      intro j hj heq
      rw [← List.getElem?_eq_getElem hi] at heq
      obtain ⟨hj', -⟩ := List.getElem?_eq_some_iff.1 (heq.trans (List.getElem?_eq_getElem hi))
      exact hnew (((List.getElem?_inj hj' hnodup).1 heq) ▸ hj)
    have hwrite := writeData_any (v := v') (f i) (hlt _ (getElem_mem hi))
    simp only [List.getElem?_eq_getElem hi]
    refine wp_mono hwrite (fun _ v'' hw => ?_) (fun e _ h => ⟨h.1, l[i], getElem_mem hi, hcount ▸ h.2⟩)
    obtain ⟨hin, hw⟩ := hw
    refine ⟨fun j hj x hx => ?_, hw.sectorCount.trans hcount, hw.bitmap.trans hbitmap, fun j hj x hx => ?_,
      fun x hx => ?_⟩
    · rcases mem_append.1 hj with hj | hj
      · exact hinside j hj x hx
      · obtain rfl := mem_singleton.1 hj
        rw [List.getElem?_eq_getElem hi, Option.some.injEq] at hx
        rw [← hx, ← hcount]
        exact hin
    · rcases mem_append.1 hj with hj | hj
      · rw [hw.rest x, hdone j hj x hx]
        rw [mem_singleton]
        rintro rfl
        exact hother j hj hx
      · obtain rfl := mem_singleton.1 hj
        rw [List.getElem?_eq_getElem hi, Option.some.injEq] at hx
        exact hw.stored 0 x (by simp [hx])
    · rw [hw.rest x, hrest x fun j hj => hx j (by simp [hj])]
      rw [mem_singleton]
      rintro rfl
      exact hx i (by simp) (List.getElem?_eq_getElem hi)
  · rintro _ v' ⟨hinside, hcount, hbitmap, hdone, hrest⟩
    refine ⟨fun x hx => ?_, hcount, hbitmap, fun i x hx => ?_, fun x hx => hrest x fun i _ hi => ?_⟩
    · obtain ⟨i, hi⟩ := List.mem_iff_getElem?.1 hx
      exact hinside i (mem_range.2 (List.getElem?_eq_some_iff.1 hi).1) x hi
    · exact hdone i (mem_range.2 (List.getElem?_eq_some_iff.1 hx).1) x hx
    · exact hx (List.mem_of_getElem? hi)

end Volume

end MaramOS
