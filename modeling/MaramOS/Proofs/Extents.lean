import Mathlib.Data.List.GetD
import MaramOS.Sanity.Chains

/-! Extents: how a list of sectors is coalesced, stored in link blocks, and
found again when the link blocks are followed. -/

namespace MaramOS

open List Prog Volume

/-- An extent of whole sectors of a partition with `n` sectors. -/
def LinkPointer.Whole (n : ℕ) (p : LinkPointer) : Prop :=
  0 < p.start ∧ ∃ k, 0 < k ∧ p.size = 512 * k ∧ p.start + k ≤ n

variable {p : LinkPointer} {n : ℕ} {l : List ℕ} {v : Volume}

theorem LinkPointer.blocks_of_size {k : ℕ} (h : p.size = 512 * k) :
    p.blocks = range' p.start k := by
  have hk : divCeil p.size 512 = k := by
    rw [h, divCeil]
    omega
  rw [blocks, hk]

theorem fileBlocks_append (l l' : List LinkPointer) : fileBlocks (l ++ l') = fileBlocks l ++ fileBlocks l' :=
  flatMap_append

theorem fileBlocks_cons (p : LinkPointer) (l : List LinkPointer) :
    fileBlocks (p :: l) = p.blocks ++ fileBlocks l :=
  flatMap_cons

theorem fileBlocks_nil : fileBlocks [] = [] := rfl

theorem fileBlocks_singleton (p : LinkPointer) : fileBlocks [p] = p.blocks := flatMap_singleton _ _

theorem LinkPointer.sectors_eq {l : LinkPointer} (hn : n < 2 ^ 64) (hl : ∀ x ∈ l.blocks, x < n) :
    l.sectors = l.blocks := by
  rw [sectors, blocks, range'_eq_map_range]
  refine map_congr_left fun i hi => ?_
  have hlt := hl (l.start + i) (mem_range'_1.2 (by have := mem_range.1 hi; omega))
  exact Nat.mod_eq_of_lt (by omega)

theorem flatMap_sectors_eq {ext : List LinkPointer} (hn : n < 2 ^ 64) (hl : ∀ x ∈ fileBlocks ext, x < n) :
    ext.flatMap LinkPointer.sectors = fileBlocks ext := by
  refine flatMap_congr fun l hmem => LinkPointer.sectors_eq hn fun x hx => ?_
  exact hl x (mem_flatMap.2 ⟨l, hmem, hx⟩)

theorem length_blocks_le {l : List LinkPointer} (hp : p ∈ l) :
    p.blocks.length ≤ (fileBlocks l).length := by
  obtain ⟨l1, l2, rfl⟩ := append_of_mem hp
  rw [fileBlocks_append, fileBlocks_cons, length_append, length_append]
  omega

theorem sum_sizes (links : List LinkPointer) (h : ∀ p ∈ links, p.Whole n) :
    (links.map (·.size)).sum = 512 * (fileBlocks links).length := by
  induction links with
  | nil => rfl
  | cons p links ih =>
    obtain ⟨-, k, -, hsize, -⟩ := h p (by simp)
    have hrest := ih fun q hq => h q (by simp [hq])
    rw [map_cons, sum_cons, hrest, fileBlocks_cons, length_append,
      LinkPointer.blocks_of_size hsize, length_range', hsize]
    omega

/-- The extents stand for the same sectors in the same order, as long as no size wraps. -/
theorem coalesce_any (hn : n ≤ 2 ^ 64) (l : List ℕ) (hl : ∀ x ∈ l, 0 < x ∧ x < n)
    (hsize : ∀ k, k ≤ l.length → k ≤ n → 512 * k < 2 ^ 64) :
    fileBlocks (coalesce l) = l ∧ ∀ p ∈ coalesce l, p.Whole n := by
  induction l using reverseRecOn with
  | nil => exact ⟨rfl, by simp [coalesce]⟩
  | append_singleton l x ih =>
    rw [length_append, length_singleton] at hsize
    obtain ⟨hflat, hwhole⟩ := ih (fun y hy => hl y (by simp [hy])) fun k hk => hsize k (by omega)
    have hx := hl x (by simp)
    have hstep : coalesce (l ++ [x]) = coalesceStep (coalesce l) x := by simp [coalesce]
    have hnew : LinkPointer.Whole n ⟨x, 512⟩ := ⟨hx.1, 1, by omega, rfl, by simp only; omega⟩
    have hone : LinkPointer.blocks ⟨x, 512⟩ = [x] := by
      rw [LinkPointer.blocks_of_size (show LinkPointer.size ⟨x, 512⟩ = 512 * 1 from rfl)]
      rfl
    have hpush : fileBlocks (coalesce l ++ [LinkPointer.mk x 512]) = l ++ [x] ∧
        ∀ p ∈ coalesce l ++ [LinkPointer.mk x 512], p.Whole n := by
      refine ⟨?_, fun p hp => ?_⟩
      · rw [fileBlocks_append, hflat, fileBlocks_singleton, hone]
      · rcases mem_append.1 hp with hp | hp
        · exact hwhole p hp
        · rw [mem_singleton.1 hp]
          exact hnew
    rw [hstep, coalesceStep]
    cases hlast : (coalesce l).getLast? with
    | none => exact hpush
    | some p =>
      obtain ⟨ps, hps⟩ := List.getLast?_eq_some_iff.1 hlast
      have hmem : p ∈ coalesce l := by rw [hps]; simp
      obtain ⟨hstart, k, hk, hpsize, hend⟩ := hwhole p hmem
      have hshort := length_blocks_le hmem
      rw [hflat, LinkPointer.blocks_of_size hpsize, length_range'] at hshort
      -- at the end of the sector numbers the sum wraps to zero, which is no sector of the list
      have hnext : wadd p.start (p.size / 512) = x → p.start + k = x := by
        rw [hpsize, Nat.mul_div_cancel_left _ (by norm_num), wadd]
        omega
      simp only
      split_ifs with heq
      · have heq := hnext heq
        have hgrow : wadd p.size 512 = 512 * (k + 1) := by
          have := hsize (k + 1) (by omega) (by omega)
          rw [hpsize, wadd_of_lt (by omega)]
          omega
        rw [hps, dropLast_concat, hgrow]
        rw [hps, fileBlocks_append] at hflat
        refine ⟨?_, fun q hq => ?_⟩
        · rw [fileBlocks_append, ← hflat, append_assoc, fileBlocks_singleton, fileBlocks_singleton,
            LinkPointer.blocks_of_size hpsize,
            LinkPointer.blocks_of_size (show LinkPointer.size ⟨p.start, 512 * (k + 1)⟩ = 512 * (k + 1) from rfl),
            range'_1_concat, heq]
        · rcases mem_append.1 hq with hq | hq
          · exact hwhole q (by rw [hps]; simp [hq])
          · rw [mem_singleton.1 hq]
            exact ⟨hstart, k + 1, by omega, rfl, by simp only; omega⟩
      · exact hpush

theorem coalesce_spec (hn : n * 512 < 2 ^ 64) (l : List ℕ) (hl : ∀ x ∈ l, 0 < x ∧ x < n) :
    fileBlocks (coalesce l) = l ∧ ∀ p ∈ coalesce l, p.Whole n :=
  coalesce_any (by omega) l hl fun k _ hk => by omega

theorem coalesce_range' {n : ℕ} (hn : n * 512 < 2 ^ 64) (a k : ℕ) (hk : 0 < k) (hend : a + k ≤ n) :
    coalesce (range' a k) = [⟨a, 512 * k⟩] := by
  induction k with
  | zero => omega
  | succ k ih =>
    rw [range'_1_concat, coalesce, foldl_append]
    by_cases hk0 : k = 0
    · subst hk0
      rfl
    · have hih : (range' a k).foldl coalesceStep [] = [⟨a, 512 * k⟩] := ih (by omega) (by omega)
      have hnext : wadd a (512 * k / 512) = a + k := by
        rw [Nat.mul_div_cancel_left _ (by norm_num), wadd_of_lt (by omega)]
      have hgrow : wadd (512 * k) 512 = 512 * (k + 1) := by
        rw [wadd_of_lt (by omega)]
        omega
      rw [hih, foldl_cons, foldl_nil, coalesceStep]
      simp only [List.getLast?_singleton, hnext, hgrow, if_true]
      rfl

theorem coalesce_ne_nil (hl : l ≠ []) : coalesce l ≠ [] := by
  obtain ⟨ps, x, rfl⟩ := eq_nil_or_concat l |>.resolve_left hl
  rw [coalesce, concat_eq_append, foldl_append, foldl_cons, foldl_nil, coalesceStep]
  split
  · split_ifs <;> simp
  · simp

theorem direct_linkBlockAt (extents : List LinkPointer) (lbas : List ℕ) (i : ℕ)
    (hvalid : ∀ p ∈ extents, p.isValid = true ∧ p.isDirect = true) :
    (linkBlockAt extents lbas i).direct = (extents.drop (i * 31)).take 31 := by
  have hslots : (ofFn (linkBlockAt extents lbas i)).take 31 =
      (extents.drop (i * 31)).take 31 ++
        replicate (31 - ((extents.drop (i * 31)).take 31).length) ⟨0, 0⟩ := by
    apply ext_getElem
    · simp only [length_take, length_ofFn, length_append, length_replicate]
      omega
    · intro k h1 h2
      have hk : k < 31 := by simpa using h1
      rw [getElem_take, List.getElem_ofFn, linkBlockAt, if_pos hk, getElem_append]
      split_ifs with hlt
      · rw [getD_eq_getElem _ _ hlt]
      · rw [getD_eq_default _ _ (not_lt.1 hlt), getElem_replicate]
  rw [LinkBlock.direct, hslots, filter_append, filter_eq_self.2, filter_eq_nil_iff.2,
    append_nil]
  · intro p hp
    obtain rfl := eq_of_mem_replicate hp
    decide
  · intro p hp
    have := hvalid p (mem_of_mem_drop (mem_of_mem_take hp))
    simp [this.1, this.2]

theorem linkChain_of_stored {d : Disk} {extents : List LinkPointer} {lbas : List ℕ}
    (hlen : extents.length ≤ 31 * lbas.length)
    (hextents : ∀ p ∈ extents, (p.isValid = true ∧ p.isDirect = true) ∧ p.Fits)
    (hlt : ∀ x ∈ lbas, 0 < x ∧ x < d.sectorCount)
    (hstored : ∀ i x, lbas[i]? = some x → d.sectors x = (linkBlockAt extents lbas i).encode)
    (k : ℕ) : ∀ (i : ℕ) (x : ℕ), i + k + 1 = lbas.length → lbas[i]? = some x →
      LinkChain d ⟨x, 0⟩ (lbas.drop i) (extents.drop (i * 31)) := by
  have hdisk := d.fits
  have hfits : ∀ i (j : Fin 32), (linkBlockAt extents lbas i j).Fits := by
    intro i j
    unfold linkBlockAt
    split_ifs with hj
    · by_cases hmem : j.val < ((extents.drop (i * 31)).take 31).length
      · rw [getD_eq_getElem _ _ hmem]
        exact (hextents _ (mem_of_mem_drop (mem_of_mem_take (getElem_mem hmem)))).2
      · rw [getD_eq_default _ _ (by omega)]
        exact ⟨by decide, by decide⟩
    · split
      · rename_i lba hlba
        have := hlt lba (List.mem_of_getElem? hlba)
        exact ⟨by simp only; omega, by norm_num⟩
      · exact ⟨by decide, by decide⟩
  have hread : ∀ i x, lbas[i]? = some x → d.At x (linkBlockAt extents lbas i).encode := by
    intro i x hx
    exact ⟨(hlt x (List.mem_of_getElem? hx)).2, hstored i x hx⟩
  have hstep : ∀ i x ind ext, lbas[i]? = some x →
      LinkChain d (linkBlockAt extents lbas i).last ind ext →
      LinkChain d ⟨x, 0⟩ (x :: ind) ((extents.drop (i * 31)).take 31 ++ ext) := by
    intro i x ind ext hx hrest
    have hx0 := (hlt x (List.mem_of_getElem? hx)).1
    have hchain := @LinkChain.block d ⟨x, 0⟩ (linkBlockAt extents lbas i).encode ind ext
      (by simp only [LinkPointer.isValid, bne_iff_ne]; omega) rfl (hread i x hx)
    rw [LinkBlock.decode_encode _ (hfits i), direct_linkBlockAt extents lbas i fun p hp => (hextents p hp).1] at hchain
    exact hchain hrest
  induction k with
  | zero =>
    intro i x hi hx
    have hlast : (linkBlockAt extents lbas i).last = ⟨0, 0⟩ := by
      simp [LinkBlock.last, linkBlockAt, List.getElem?_eq_none (show lbas.length ≤ i + 1 by omega)]
    have hchain := hstep i x [] [] hx (by rw [hlast]; exact .none rfl)
    obtain ⟨h, heq⟩ := List.getElem?_eq_some_iff.1 hx
    rw [drop_eq_getElem_cons h, heq, drop_eq_nil_of_le (by omega)]
    rwa [append_nil, take_of_length_le (by rw [length_drop]; omega)] at hchain
  | succ k ih =>
    intro i x hi hx
    have hnext? : lbas[i + 1]? = some lbas[i + 1] := List.getElem?_eq_getElem (by omega)
    have hlast : (linkBlockAt extents lbas i).last = ⟨lbas[i + 1], 0⟩ := by
      simp [LinkBlock.last, linkBlockAt, hnext?]
    have hchain := hstep i x _ _ hx (by rw [hlast]; exact ih (i + 1) _ (by omega) hnext?)
    obtain ⟨h, heq⟩ := List.getElem?_eq_some_iff.1 hx
    have hsplit : (extents.drop (i * 31)).take 31 ++ extents.drop ((i + 1) * 31) = extents.drop (i * 31) := by
      rw [Nat.succ_mul, ← drop_drop, take_append_drop]
    rw [drop_eq_getElem_cons h, heq]
    rwa [hsplit] at hchain

/-- The number of link blocks a chain of sectors needs. -/
def linkBlocks (chain : List ℕ) : ℕ :=
  if (coalesce chain).length = 1 then 0 else divCeil (coalesce chain).length 31

theorem LinkPointer.Whole.valid (h : p.Whole n) : p.isValid = true ∧ p.isDirect = true := by
  obtain ⟨hstart, k, hk, hsize, -⟩ := h
  simp only [LinkPointer.isValid, LinkPointer.isDirect, bne_iff_ne]
  omega

/-- `build_file_chain` takes the link blocks it needs and stores the extents in them, or finds too few,
or finds one that is not on the partition. -/
theorem buildFileChain_any {v : Volume} (hfree : ∀ x, v.Free x → 0 < x ∧ x < 2 ^ 55) {chain : List ℕ} (hne : chain ≠ [])
    (hextents : ∀ p ∈ coalesce chain, (p.isValid = true ∧ p.isDirect = true) ∧ p.Fits) :
    wp (buildFileChain chain) v
      (fun head v' => head.Fits ∧ ∃ lbas v1 f, lbas.length = linkBlocks chain ∧ Takes lbas v v1 ∧
        Stores lbas f v1 v' ∧ LinkChain v'.disk head lbas (coalesce chain))
      (fun e v' => (e = .fs .noSpace ∧ ∃ lbas, lbas.length < linkBlocks chain ∧ Takes lbas v v' ∧
        v'.bitmap.available [] = []) ∨ e = .fs .ioError ∧ ∃ x, v.Free x ∧ v.disk.sectorCount ≤ x) := by
  have hexts := coalesce_ne_nil hne
  unfold buildFileChain
  split
  · rename_i extent hone
    obtain ⟨⟨hvalid, hdirect⟩, hfits⟩ := hextents extent (by rw [hone]; simp)
    rw [wp_pure]
    refine ⟨hfits, [], v, fun _ => Sector.zero, by simp [linkBlocks, hone], Takes.nil v,
      ⟨rfl, rfl, by simp, fun _ _ => rfl⟩, ?_⟩
    rw [hone]
    exact .extent hvalid hdirect
  · rename_i hmany
    have hlen : (coalesce chain).length ≠ 1 := fun h => by
      obtain ⟨p, hp⟩ := length_eq_one_iff.1 h
      exact hmany p hp
    have hpos := length_pos_iff.2 hexts
    have hneeded : linkBlocks chain = divCeil (coalesce chain).length 31 := if_neg hlen
    simp only [← hneeded, range_eq_range']
    have halloc := reuse_spec [] (linkBlocks chain) 0 fun x hx => (hfree x hx).2.trans (by norm_num)
    simp only [List.getElem?_nil, length_nil, Nat.sub_zero, drop_nil, take_nil,
      nil_append] at halloc
    refine wp_seq halloc ?_ ?_
    · rintro lbas v1 ⟨_, rfl, hcount, ht⟩
      have hstore := storeAll_any (v := v1) lbas (fun i => (linkBlockAt (coalesce chain) lbas i).encode) ht.nodup
        fun x hx => (hfree x (ht.wasFree x hx)).2
      rw [hcount, range_eq_range'] at hstore
      refine wp_seq hstore (fun _ v2 hs => ?_) fun e v2 he => ?_
      · obtain ⟨hinside, hs⟩ := hs
        have hlt : ∀ x ∈ lbas, 0 < x ∧ x < v1.disk.sectorCount := fun x hx =>
          ⟨(hfree x (ht.wasFree x hx)).1, hinside x hx⟩
        have hlbas : 0 < lbas.length := by
          rw [hcount, hneeded]
          unfold divCeil
          omega
        obtain ⟨lba, rest, rfl⟩ := exists_cons_of_length_pos hlbas
        rw [wp_pure]
        refine ⟨⟨?_, by norm_num⟩, lba :: rest, v1, _, hcount, ht, hs, ?_⟩
        · have := (hfree lba (ht.wasFree lba (by simp))).2
          simp only
          omega
        · have hlink := @linkChain_of_stored v2.disk (coalesce chain) (lba :: rest)
            (by rw [hcount, hneeded]; unfold divCeil; omega) hextents (by rw [hs.sectorCount]; exact hlt) hs.stored
            rest.length 0 lba (by simp) (by simp)
          simpa using hlink
      · obtain ⟨rfl, x, hx, hge⟩ := he
        exact .inr ⟨rfl, x, ht.wasFree x hx, ht.disk ▸ hge⟩
    · rintro e v' ⟨rfl, fresh, hlt, ht, hnone, -⟩
      exact .inl ⟨rfl, fresh, hlt, ht, hnone⟩

theorem buildFileChain_spec {lo hi : ℕ} (ha : Area lo hi v) {chain : List ℕ} (hne : chain ≠ [])
    (hchain : ∀ x ∈ chain, 0 < x ∧ x < v.disk.sectorCount) :
    wp (buildFileChain chain) v
      (fun head v' => head.Fits ∧ ∃ lbas v1 f, lbas.length = linkBlocks chain ∧ Takes lbas v v1 ∧
        Stores lbas f v1 v' ∧ LinkChain v'.disk head lbas (coalesce chain))
      (fun e v' => e = .fs .noSpace ∧ ∃ lbas, lbas.length < linkBlocks chain ∧ Takes lbas v v' ∧
        v'.bitmap.available [] = []) := by
  have hdisk := v.disk.fits
  obtain ⟨-, hwhole⟩ := coalesce_spec hdisk chain hchain
  have hinside : ∀ x, v.Free x → 0 < x ∧ x < v.disk.sectorCount := by
    intro x hfree
    have hstart := hfree.1
    have hpos := ha.pos
    have hlt := ha.free_lt x hfree
    have hend := ha.inside
    rw [ha.dataStart] at hstart
    omega
  have hbuild := @buildFileChain_any v (fun x hx => by have := hinside x hx; omega) chain hne fun p hp => by
    obtain ⟨hstart, k, hk, hsize, hend⟩ := hwhole p hp
    exact ⟨(hwhole p hp).valid, by omega, by omega⟩
  refine wp_mono hbuild (fun _ _ h => h) fun e v' he => he.resolve_right ?_
  rintro ⟨-, x, hx, hge⟩
  have := hinside x hx
  omega

theorem Volume.Stores.append {l' : List ℕ} {f f' : ℕ → Sector} {v' v'' : Volume} (h : Stores l f v v')
    (h' : Stores l' f' v' v'') (hdisj : ∀ x ∈ l, x ∉ l') :
    Stores (l ++ l') (fun i => if i < l.length then f i else f' (i - l.length)) v v'' := by
  refine ⟨h'.sectorCount.trans h.sectorCount, h'.bitmap.trans h.bitmap, fun i x hx => ?_, fun x hx => ?_⟩
  · rw [List.getElem?_append] at hx
    split_ifs at hx ⊢ with hi
    · rw [h'.rest x (hdisj x (List.mem_of_getElem? hx)), h.stored i x hx]
    · exact h'.stored _ x hx
  · rw [mem_append, not_or] at hx
    rw [h'.rest x hx.2, h.rest x hx.1]

/-- The data loop of `write` puts byte `offset + 512 * j + b` of the source at
byte `b` of sector number `j` of the extents. -/
theorem writeExtents_spec (src : PhysPage) (pages : ℕ) (links : List LinkPointer) :
    ∀ (offset : ℕ) (v : Volume), (∀ p ∈ links, p.Whole v.disk.sectorCount ∧ p.size ≤ pages * PAGE_SIZE) →
      (fileBlocks links).Nodup →
      wp (writeExtents src pages offset links) v
        (fun _ v' => Stores (fileBlocks links)
          (fun j b => src.bytes (offset + 512 * j + b.val)) v v')
        (fun _ _ => False) := by
  induction links with
  | nil =>
    intro offset v _ _
    rw [writeExtents, wp_pure, fileBlocks_nil]
    exact ⟨rfl, rfl, by simp, fun _ _ => rfl⟩
  | cons link rest ih =>
    intro offset v hlinks hnodup
    obtain ⟨⟨hstart, k, hk, hsize, hend⟩, hpages⟩ := hlinks link (by simp)
    have hcount : divCeil link.size 512 = k := by
      rw [hsize, divCeil]
      omega
    have hblocks := LinkPointer.blocks_of_size hsize
    rw [fileBlocks_cons] at hnodup ⊢
    have hsplit := nodup_append.1 hnodup
    have hwrite := @writeSectors_spec v.disk link.start k
      ⟨pages, fun i => if i < link.size then src.bytes (offset + i) else 0⟩
      (by simp only; omega) hend
    obtain ⟨d', hd', hcount', hsec⟩ := hwrite
    have hfirst : wp (Volume.writeSectors link.start k
        ⟨pages, fun i => if i < link.size then src.bytes (offset + i) else 0⟩) v
        (fun _ v' => Stores link.blocks (fun j b => src.bytes (offset + 512 * j + b.val)) v v')
        (fun _ _ => False) := by
      refine wp_of_run (by rw [Volume.writeSectors, hd']) ?_
      refine ⟨hcount', rfl, fun j x hx => ?_, fun x hx => ?_⟩
      · rw [hblocks] at hx
        obtain ⟨hj, rfl⟩ := List.getElem?_eq_some_iff.1 hx
        rw [length_range'] at hj
        rw [hsec, getElem_range', if_pos (by omega)]
        funext b
        have hb := b.isLt
        simp only
        rw [if_pos (by omega)]
        congr 1
        omega
      · rw [hblocks, mem_range'_1] at hx
        rw [hsec, if_neg hx]
    rw [writeExtents]
    simp only [hcount]
    refine wp_seq hfirst (fun _ v1 h₁ => ?_) (fun _ _ h => h)
    have hrest := ih (offset + link.size) v1 (fun p hp => by
      rw [h₁.sectorCount]
      exact hlinks p (by simp [hp])) hsplit.2.1
    refine wp_mono hrest (fun _ v2 h₂ => ?_) (fun _ _ h => h)
    have hboth := h₁.append h₂ fun x hx hx' => hsplit.2.2 x hx x hx' rfl
    refine ⟨hboth.sectorCount, hboth.bitmap, fun j x hx => ?_, hboth.rest⟩
    rw [hboth.stored j x hx, hblocks, length_range']
    split_ifs with hj
    · rfl
    · funext b
      rw [hsize, show offset + 512 * k + 512 * (j - k) + b.val = offset + 512 * j + b.val by omega]

end MaramOS
