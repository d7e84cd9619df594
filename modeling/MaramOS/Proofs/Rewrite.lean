import MaramOS.Proofs.Extents

/-! The part of `LemonFS::write` that works on the file alone. The old link
blocks are wiped, the old data sectors are reused and extended or cut, new link
blocks are built over the new list of sectors, and the source is copied there. -/

namespace MaramOS

open List Prog Volume

/-- The sectors a file gets for `n` sectors of data: its own ones first, then
those that `alloc(1)` finds once the old link blocks are given back. -/
def newChain (b : BitmapAllocator) (ind : List ℕ) (ext : List LinkPointer) (n : ℕ) : List ℕ :=
  (fileBlocks ext ++ b.available ind).take n

/-- There are sectors for the data, and then for the link blocks. -/
def HasRoom (b : BitmapAllocator) (ind : List ℕ) (ext : List LinkPointer) (n : ℕ) : Prop :=
  (newChain b ind ext n).length = n ∧
  (n - (fileBlocks ext).length) + linkBlocks (newChain b ind ext n) ≤
    (b.available (ind ++ (fileBlocks ext).drop n)).length

/-- A file with link blocks `ind` and extents `ext`, each sector in use once and in the data area. -/
structure FileAt (lo hi : ℕ) (v : Volume) (head : LinkPointer) (ind : List ℕ) (ext : List LinkPointer) :
    Prop where
  link : LinkChain v.disk head ind ext
  nodup : (ind ++ fileBlocks ext).Nodup
  placed : ∀ x ∈ ind ++ fileBlocks ext, lo ≤ x ∧ x < hi
  used : ∀ x ∈ ind ++ fileBlocks ext, ¬ v.Free x

/-- What a rewrite leaves behind: the new file with link blocks `lbas`. -/
structure Rewritten (ind : List ℕ) (ext : List LinkPointer) (src : PhysPage) (f f' : File) (lbas : List ℕ)
    (v v' : Volume) : Prop where
  length : (newChain v.bitmap ind ext (8 * src.count)).length = 8 * src.count
  file : f' = { f with head := f'.head, size := 4096 * src.count }
  fits : f'.head.Fits
  linkCount : lbas.length = linkBlocks (newChain v.bitmap ind ext (8 * src.count))
  linked : lbas <+: (v.bitmap.available (ind ++ (fileBlocks ext).drop (8 * src.count))).drop
    (8 * src.count - (fileBlocks ext).length)
  link : LinkChain v'.disk f'.head lbas (coalesce (newChain v.bitmap ind ext (8 * src.count)))
  covers : fileBlocks (coalesce (newChain v.bitmap ind ext (8 * src.count))) =
    newChain v.bitmap ind ext (8 * src.count)
  whole : ∀ p ∈ coalesce (newChain v.bitmap ind ext (8 * src.count)), p.Whole v'.disk.sectorCount
  stored : ∀ j x, (newChain v.bitmap ind ext (8 * src.count))[j]? = some x →
    v'.disk.sectors x = fun b => src.bytes (512 * j + b.val)
  nodup : (lbas ++ newChain v.bitmap ind ext (8 * src.count)).Nodup
  members : ∀ x ∈ lbas ++ newChain v.bitmap ind ext (8 * src.count),
    x ∈ ind ++ fileBlocks ext ∨ v.Free x
  free : ∀ x, v'.Free x ↔ (v.Free x ∨ x ∈ ind ++ fileBlocks ext) ∧
    x ∉ lbas ++ newChain v.bitmap ind ext (8 * src.count)
  touches : Touches (ind ++ fileBlocks ext) v v'

/-- What a rewrite that runs out of space leaves behind: the link blocks and, if
the file was to shrink, the surplus `w` are wiped, and everything that could be
allocated then is gone. -/
structure OutOfSpace (ind : List ℕ) (ext : List LinkPointer) (n : ℕ) (w taken : List ℕ) (v v1 v' : Volume) :
    Prop where
  noRoom : ¬ HasRoom v.bitmap ind ext n
  surplus : w = [] ∨ w = (fileBlocks ext).drop n ∧
    (coalesce ((fileBlocks ext).take n)).length ≠ 1
  wipes : Wipes (ind ++ w) v v1
  takes : Takes taken v1 v'
  empty : v'.bitmap.available [] = []

theorem wsum_eq_sum (l : List ℕ) (h : l.sum < 2 ^ 64) : wsum l = l.sum := by
  suffices hsuf : ∀ (l : List ℕ) (acc : ℕ), acc + l.sum < 2 ^ 64 → l.foldl wadd acc = acc + l.sum by
    have hsum := hsuf l 0 (by rwa [Nat.zero_add])
    rwa [Nat.zero_add] at hsum
  intro l
  induction l with
  | nil => simp
  | cons x l ih =>
    intro acc hacc
    rw [sum_cons] at hacc
    rw [foldl_cons, wadd_of_lt (by omega), ih _ (by omega), sum_cons]
    omega

theorem Disk.ext_sectors {d d' : Disk} (hn : d'.sectorCount = d.sectorCount)
    (hs : ∀ x, d'.sectors x = d.sectors x) : d' = d := by
  obtain ⟨n, h, sec⟩ := d
  obtain ⟨n', h', sec'⟩ := d'
  obtain rfl : n' = n := hn
  obtain rfl : sec' = sec := funext hs
  rfl

/-- Taking sectors and then wiping others can be seen the other way round, when
one of the two is nothing. -/
theorem Volume.Takes.commute {fresh w : List ℕ} {v v1 v2 : Volume} (ht : Takes fresh v v1) (hw : Wipes w v1 v2)
    (h : fresh = [] ∨ w = []) : ∃ v', Wipes w v v' ∧ Takes fresh v' v2 := by
  rcases h with rfl | rfl
  · refine ⟨v2, ⟨ht.shape.trans hw.shape, fun x => ?_, fun x => ?_⟩, Takes.nil v2⟩
    · rw [hw.disk, ht.disk]
    · rw [hw.free, ht.free]
      simp
  · have hfree : ∀ x, v2.Free x ↔ v1.Free x := by simpa using hw.free
    have hdisk : v2.disk = v1.disk := Disk.ext_sectors hw.shape.sectorCount (by simpa using hw.disk)
    refine ⟨v, Wipes.nil v, ht.shape.trans hw.shape, hdisk.trans ht.disk, fun x => ?_, ?_, ht.nodup, ht.wasFree⟩
    · rw [hfree, ht.free]
    · rw [available_of_free hw.shape hw.free, ht.available]
      rfl

variable {lo hi : ℕ} {v : Volume} {ind : List ℕ} {ext : List LinkPointer} {f : File} {src : PhysPage}

/-- The first half of a rewrite: the link blocks are wiped, the new list of
sectors is chosen and the surplus is wiped. -/
theorem lay_spec {α : Type} {K : List ℕ → FsProg α} {Q : α → Volume → Prop} {E : Fault → Volume → Prop}
    {n : ℕ} (ha : Area lo hi v) (hind : ∀ x ∈ ind, lo ≤ x ∧ x < hi)
    (hblocks : ∀ x ∈ fileBlocks ext, lo ≤ x ∧ x < hi)
    (hK : ∀ fresh v1 v2, newChain v.bitmap ind ext n = (fileBlocks ext).take n ++ fresh →
      fresh.length = n - (fileBlocks ext).length →
      Wipes (ind ++ (fileBlocks ext).drop n) v v1 → Takes fresh v1 v2 →
      wp (K (newChain v.bitmap ind ext n)) v2 Q E)
    (hE : ∀ taken v1 v2, (newChain v.bitmap ind ext n).length < n → Wipes ind v v1 → Takes taken v1 v2 →
      v2.bitmap.available [] = [] → E (.fs .noSpace) v2) :
    wp (do
        (ind.map fun x => (⟨x, 0⟩ : LinkPointer)).forM fun link => Volume.discard link.start 1
        let chain ← chooseChain (fileBlocks ext) n
        ((fileBlocks ext).drop n).forM fun block => Volume.discard block 1
        K chain) v Q E := by
  rw [forM_eq_forM, forM_map]
  refine wp_seq (discardAll_spec ind ha hind) (fun _ v1 h1 => ?_) (fun _ _ h => h.elim)
  have ha1 := h1.area ha fun x hx => (hind x hx).2
  have havail : v1.bitmap.available [] = v.bitmap.available ind := by
    rw [available_of_free h1.shape h1.free, append_nil]
  have htake : newChain v.bitmap ind ext n =
      (fileBlocks ext).take n ++ (v.bitmap.available ind).take (n - (fileBlocks ext).length) :=
    take_append
  have hreuse := reuse_spec (fileBlocks ext) n 0 ha1.word
  rw [← range_eq_range', drop_zero, Nat.sub_zero] at hreuse
  refine wp_seq hreuse ?_ ?_
  · rintro chain v2 ⟨fresh, rfl, hlen, ht⟩
    have hchain : newChain v.bitmap ind ext n = (fileBlocks ext).take n ++ fresh := by
      rw [htake, ← havail, ht.available, ← hlen, take_left]
    have ha2 := ht.area ha1
    refine wp_seq (discardAll_spec ((fileBlocks ext).drop n) ha2 fun x hx => hblocks x (mem_of_mem_drop hx))
      (fun _ v3 h3 => ?_) (fun _ _ h => h.elim)
    have hone : fresh = [] ∨ (fileBlocks ext).drop n = [] := by
      rw [drop_eq_nil_iff, ← length_eq_zero_iff]
      omega
    obtain ⟨v', hw, ht'⟩ := ht.commute h3 hone
    rw [← hchain]
    exact hK fresh v' v3 hchain hlen (h1.append hw) ht'
  · rintro e v2 ⟨rfl, fresh, hlen, ht, hnone, -⟩
    refine hE fresh v1 v2 ?_ h1 ht hnone
    rw [htake, ← havail, ht.available, hnone, append_nil, length_append, length_take,
      length_take]
    omega

/-- Between the two halves of a rewrite: the new sectors are chosen, the data is
not yet written. -/
structure Laid (lo hi : ℕ) (v : Volume) (ind : List ℕ) (ext : List LinkPointer) (n : ℕ)
    (fresh chain : List ℕ) (v1 v2 : Volume) : Prop where
  area : Area lo hi v
  nodup : (ind ++ fileBlocks ext).Nodup
  placed : ∀ x ∈ ind ++ fileBlocks ext, lo ≤ x ∧ x < hi
  used : ∀ x ∈ ind ++ fileBlocks ext, ¬ v.Free x
  chain_eq : chain = (fileBlocks ext).take n ++ fresh
  count : fresh.length = n - (fileBlocks ext).length
  wipes : Wipes (ind ++ (fileBlocks ext).drop n) v v1
  takes : Takes fresh v1 v2

namespace Laid

variable {n : ℕ} {fresh chain : List ℕ} {v1 v2 : Volume} {x : ℕ}

section

variable (h : Laid lo hi v ind ext n fresh chain v1 v2)
include h

theorem length : chain.length = n := by
  have := h.count
  rw [h.chain_eq, length_append, length_take]
  omega

theorem kept_used (hx : x ∈ (fileBlocks ext).take n) :
    ¬ v1.Free x := by
  intro hfree
  have hmem := mem_of_mem_take hx
  obtain ⟨-, hnodup, hdisj⟩ := nodup_append.1 h.nodup
  rcases (h.wipes.free x).1 hfree with hfree | hfree
  · exact h.used x (mem_append_right _ hmem) hfree
  · rcases mem_append.1 hfree with hfree | hfree
    · exact hdisj x hfree x hmem rfl
    · rw [← take_append_drop n (fileBlocks ext)] at hnodup
      exact (disjoint_of_nodup_append hnodup) hx hfree

theorem free_before (hx : v1.Free x) :
    x ∈ ind ++ fileBlocks ext ∨ v.Free x := by
  refine ((h.wipes.free x).1 hx).symm.imp (fun hmem => ?_) id
  rcases mem_append.1 hmem with hmem | hmem
  · exact mem_append_left _ hmem
  · exact mem_append_right _ (mem_of_mem_drop hmem)

theorem free_placed (hx : v1.Free x) :
    lo ≤ x ∧ x < hi := by
  rcases h.free_before hx with hx | hx
  · exact h.placed x hx
  · have hlo := hx.1
    rw [h.area.dataStart] at hlo
    exact ⟨hlo, h.area.free_lt x hx⟩

theorem area₁ : Area lo hi v1 :=
  h.area.of_free h.wipes.shape fun _ hx => Or.inr (h.free_placed hx).2

theorem mem_chain (hx : x ∈ chain) :
    x ∈ (fileBlocks ext).take n ∨ v1.Free x ∧ x ∈ fresh := by
  rw [h.chain_eq] at hx
  exact (mem_append.1 hx).imp id fun hx => ⟨h.takes.wasFree x hx, hx⟩

theorem chain_before (hx : x ∈ chain) :
    x ∈ ind ++ fileBlocks ext ∨ v.Free x := by
  rcases h.mem_chain hx with hx | hx
  · exact Or.inl (mem_append_right _ (mem_of_mem_take hx))
  · exact h.free_before hx.1

theorem chain_placed (hx : x ∈ chain) :
    lo ≤ x ∧ x < hi := by
  rcases h.mem_chain hx with hx | hx
  · exact h.placed x (mem_append_right _ (mem_of_mem_take hx))
  · exact h.free_placed hx.1

theorem chain_nodup : chain.Nodup := by
  rw [h.chain_eq]
  have hblocks := (nodup_append.1 h.nodup).2.1
  refine nodup_append.2 ⟨hblocks.sublist (take_sublist _ _), h.takes.nodup, ?_⟩
  rintro x hx _ hx' rfl
  exact h.kept_used hx (h.takes.wasFree x hx')

theorem not_mem_chain (hx : v2.Free x) : x ∉ chain := by
  intro hmem
  have hfree := (h.takes.free x).1 hx
  rcases h.mem_chain hmem with hmem | hmem
  · exact h.kept_used hmem hfree.1
  · exact hfree.2 hmem.2

theorem sectorCount :
    v2.disk.sectorCount = v.disk.sectorCount := by
  rw [h.takes.disk, h.wipes.shape.sectorCount]

theorem free_iff (x : ℕ) :
    v2.Free x ↔ (v.Free x ∨ x ∈ ind ++ fileBlocks ext) ∧ x ∉ chain := by
  constructor
  · intro hx
    exact ⟨(h.free_before ((h.takes.free x).1 hx).1).symm, h.not_mem_chain hx⟩
  · rintro ⟨hfree, hnew⟩
    rw [h.chain_eq, mem_append, not_or] at hnew
    refine (h.takes.free x).2 ⟨(h.wipes.free x).2 (hfree.imp id fun hx => ?_), hnew.2⟩
    rcases mem_append.1 hx with hx | hx
    · exact mem_append_left _ hx
    · rw [← take_append_drop n (fileBlocks ext)] at hx
      exact mem_append_right _ ((mem_append.1 hx).resolve_left hnew.1)

theorem available_eq :
    (v.bitmap.available (ind ++ (fileBlocks ext).drop n)).drop (n - (fileBlocks ext).length) =
      v2.bitmap.available [] := by
  have havail := h.takes.available
  rw [available_of_free h.wipes.shape h.wipes.free, append_nil] at havail
  rw [havail, ← h.count, drop_left]

theorem disk_eq (hx : x ∉ ind ++ fileBlocks ext) :
    v2.disk.sectors x = v.disk.sectors x := by
  rw [h.takes.disk, h.wipes.disk, if_neg]
  intro hmem
  rw [mem_append, not_or] at hx
  rcases mem_append.1 hmem with hmem | hmem
  · exact hx.1 hmem
  · exact hx.2 (mem_of_mem_drop hmem)

end

end Laid

theorem fill_spec {f : File} {src : PhysPage} {fresh chain : List ℕ} {v1 v2 : Volume} (hsrc : 0 < src.count)
    (hC : newChain v.bitmap ind ext (8 * src.count) = chain)
    (h : Laid lo hi v ind ext (8 * src.count) fresh chain v1 v2) :
    wp (do
        let head ← buildFileChain chain
        let links ← Prog.reads fun v => resolveLinks v.disk head
        match (links.map (·.size)).max? with
        | none => Prog.fail .panic
        | some maxSize =>
          writeExtents src (divCeil maxSize PAGE_SIZE) 0 links
          return { f with head := head, size := wsum (links.map (·.size)) }) v2
      (fun f' v' => ∃ lbas, Rewritten ind ext src f f' lbas v v')
      (fun e v' => e = .fs .noSpace ∧ ∃ lbas, lbas.length < linkBlocks chain ∧ Takes lbas v2 v' ∧
        v'.bitmap.available [] = []) := by
  have hdisk := v.disk.fits
  have hinside := h.area.inside
  have hpos := h.area.pos
  have hcount := h.sectorCount
  have hlength := h.length
  have hpositive : ∀ x ∈ chain, 0 < x ∧ x < v2.disk.sectorCount := by
    intro x hx
    have := h.chain_placed hx
    omega
  obtain ⟨hcovers, hwhole⟩ := coalesce_spec (hcount ▸ hdisk) chain hpositive
  have hne : chain ≠ [] := by
    rintro rfl
    simp only [length_nil] at hlength
    omega
  refine wp_seq (buildFileChain_spec (h.takes.area h.area₁) hne hpositive) ?_ (fun _ _ h => h)
  rintro head v4 ⟨hfits, lbas, v3, g, hfew, hl, hs, hlink⟩
  have hcount4 : v4.disk.sectorCount = v2.disk.sectorCount := by rw [hs.sectorCount, hl.disk]
  have hapart : ∀ x ∈ lbas, x ∉ chain := fun x hx => h.not_mem_chain (hl.wasFree x hx)
  have hresolve := hlink.resolveLinks (length_le_of_nodup hl.nodup fun x hx => by
    have := (h.takes.area h.area₁).free_lt x (hl.wasFree x hx)
    omega)
  refine wp_reads_seq ?_ hresolve
  cases hmax : ((coalesce chain).map (·.size)).max? with
  | none =>
    rw [List.max?_eq_none_iff, map_eq_nil_iff] at hmax
    exact absurd hmax (coalesce_ne_nil hne)
  | some m =>
    have hle : ∀ p ∈ coalesce chain, p.size ≤ divCeil m PAGE_SIZE * PAGE_SIZE := by
      intro p hp
      have := (List.max?_eq_some_iff.1 hmax).2 p.size (mem_map_of_mem hp)
      unfold divCeil PAGE_SIZE
      omega
    have hwrite := writeExtents_spec src (divCeil m PAGE_SIZE) (coalesce chain) 0 v4
      (fun p hp => ⟨by rw [hcount4]; exact hwhole p hp, hle p hp⟩) (by rw [hcovers]; exact h.chain_nodup)
    rw [hcovers] at hwrite
    refine wp_seq hwrite (fun _ v5 h5 => ?_) (fun _ _ h => h.elim)
    have hsum : wsum ((coalesce chain).map (·.size)) = 4096 * src.count := by
      have hsizes := sum_sizes (coalesce chain) hwhole
      have hshort := length_le_of_nodup h.chain_nodup fun x hx => (hpositive x hx).2
      rw [hcovers] at hsizes
      rw [wsum_eq_sum _ (by rw [hsizes]; omega), hsizes, hlength]
      omega
    have hfree : ∀ x, v5.Free x ↔ (v.Free x ∨ x ∈ ind ++ fileBlocks ext) ∧ x ∉ lbas ++ chain := by
      intro x
      have hsplit : x ∉ lbas ++ chain ↔ x ∉ chain ∧ x ∉ lbas := by rw [mem_append, not_or, and_comm]
      rw [h5.free, hs.free, hl.free, h.free_iff, hsplit, and_assoc]
    have hmembers : ∀ x ∈ lbas ++ chain, x ∈ ind ++ fileBlocks ext ∨ v.Free x := by
      intro x hx
      rcases mem_append.1 hx with hx | hx
      · exact h.free_before ((h.takes.free x).1 (hl.wasFree x hx)).1
      · exact h.chain_before hx
    have hshape : SameShape v v5 :=
      (((h.wipes.shape.trans h.takes.shape).trans hl.shape).trans hs.shape).trans h5.shape
    rw [wp_pure]
    refine ⟨lbas, hC ▸ hlength, by rw [hsum], hfits, by rw [hC, hfew], ?_, ?_, hC ▸ hcovers, ?_, ?_, ?_, hC ▸ hmembers,
      hC ▸ hfree, hshape, ?_, ?_⟩
    · rw [h.available_eq, hl.available]
      exact prefix_append _ _
    · rw [hC]
      exact hlink.frame h5.sectorCount fun x hx => h5.rest x (hapart x hx)
    · rw [hC, h5.sectorCount, hcount4]
      exact hwhole
    · rw [hC]
      intro j x hx
      rw [h5.stored j x hx]
      simp only [Nat.zero_add]
    · rw [hC]
      exact nodup_append.2 ⟨hl.nodup, h.chain_nodup, fun x hx y hy hxy => hapart x hx (hxy ▸ hy)⟩
    · intro x hx hnot
      have hout : x ∉ lbas ++ chain := fun hmem => (hmembers x hmem).elim hx hnot
      rw [mem_append, not_or] at hout
      rw [h5.rest x hout.2, hs.rest x hout.1, hl.disk, h.disk_eq hx]
    · intro x hx hfree'
      exact ((hfree x).1 hfree').1.resolve_right hx

section FileAt

variable {head : LinkPointer}

section

variable (hf : FileAt lo hi v head ind ext)
include hf

theorem FileAt.link_placed : ∀ x ∈ ind, lo ≤ x ∧ x < hi :=
  fun x hx => hf.placed x (mem_append_left _ hx)

theorem FileAt.blocks_placed : ∀ x ∈ fileBlocks ext, lo ≤ x ∧ x < hi :=
  fun x hx => hf.placed x (mem_append_right _ hx)

theorem FileAt.trace (ha : Area lo hi v) :
    MaramOS.trace v.disk head = .ok (ext, ind.map fun x => ⟨x, 0⟩) :=
  hf.link.trace (length_le_of_nodup (nodup_append.1 hf.nodup).1 fun x hx =>
    lt_trans (hf.link_placed x hx).2 ha.inside)

theorem FileAt.sectors (ha : Area lo hi v) :
    ext.flatMap LinkPointer.sectors = fileBlocks ext := by
  have hdisk := v.disk.fits
  have hinside := ha.inside
  exact flatMap_sectors_eq (show hi < 2 ^ 64 by omega) fun x hx => (hf.blocks_placed x hx).2

end

end FileAt

theorem rewrite_spec (ha : Area lo hi v) (hf : FileAt lo hi v f.head ind ext) (hsrc : 0 < src.count) :
    wp (f.rewrite src) v (fun f' v' => ∃ lbas, Rewritten ind ext src f f' lbas v v')
      (fun e v' => e = .fs .noSpace ∧ ∃ w taken v1, OutOfSpace ind ext (8 * src.count) w taken v v1 v') := by
  have hcount : divCeil (src.count * PAGE_SIZE) 512 = 8 * src.count := by
    unfold divCeil PAGE_SIZE
    omega
  unfold File.rewrite
  refine wp_reads_seq ?_ (hf.trace ha)
  simp only [hf.sectors ha, hcount]
  refine lay_spec ha hf.link_placed hf.blocks_placed ?_ ?_
  · intro fresh v1 v2 hchain hfresh hw ht
    have hlaid : Laid lo hi v ind ext (8 * src.count) fresh _ v1 v2 :=
      ⟨ha, hf.nodup, hf.placed, hf.used, hchain, hfresh, hw, ht⟩
    refine wp_mono (fill_spec hsrc rfl hlaid) (fun _ _ h => h) ?_
    rintro e v3 ⟨rfl, lbas, hfew, hl, hnone⟩
    have htaken := ht.append hl
    have havail : v.bitmap.available (ind ++ (fileBlocks ext).drop (8 * src.count)) = fresh ++ lbas := by
      have h1 := htaken.available
      rwa [hnone, append_nil, available_of_free hw.shape hw.free, append_nil] at h1
    refine ⟨rfl, (fileBlocks ext).drop (8 * src.count), fresh ++ lbas, v1, fun hroom => ?_, ?_, hw, htaken,
      hnone⟩
    · have hneeds := hroom.2
      rw [havail, length_append, hfresh] at hneeds
      omega
    · by_cases hsurplus : (fileBlocks ext).drop (8 * src.count) = []
      · exact Or.inl hsurplus
      · refine Or.inr ⟨rfl, fun hone => ?_⟩
        have hnofresh : fresh = [] := by
          rw [drop_eq_nil_iff] at hsurplus
          rw [← length_eq_zero_iff, hfresh]
          omega
        rw [hnofresh, append_nil] at hchain
        rw [hchain, linkBlocks, if_pos hone] at hfew
        omega
  · intro taken v1 v2 hshort hw ht hnone
    refine ⟨rfl, [], taken, v1, fun hroom => ?_, Or.inl rfl, by rwa [append_nil], ht, hnone⟩
    exact absurd hroom.1 (by omega)

theorem rewrite_empty (ha : Area lo hi v) (hf : FileAt lo hi v f.head ind ext) (hsrc : src.count = 0) :
    wp (f.rewrite src) v (fun _ _ => False) (fun e _ => e = .panic) := by
  have hcount : divCeil (src.count * PAGE_SIZE) 512 = 0 := by
    unfold divCeil
    rw [hsrc]
    omega
  unfold File.rewrite
  refine wp_reads_seq ?_ (hf.trace ha)
  simp only [hf.sectors ha, hcount]
  refine lay_spec ha hf.link_placed hf.blocks_placed ?_ ?_
  · intro fresh v1 v2 _ _ _ _
    have hnil : newChain v.bitmap ind ext 0 = [] := take_zero
    have hrun : buildFileChain [] v2 = (.error .panic, v2) := rfl
    rw [hnil, wp_bind]
    simp only [wp, hrun]
  · intro taken v1 v2 hshort
    exact absurd hshort (Nat.not_lt_zero _)

end MaramOS
