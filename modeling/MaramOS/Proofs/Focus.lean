import MaramOS.Sanity.Chains

/-! The invariant of a mounted file system and how a change of one directory
keeps it. Every operation works on one directory: it touches the blocks of that
directory, sectors below it and free sectors. `Focus` cuts that part out of the
tree, and `Focus.update` puts the changed part back. -/

namespace MaramOS

open List

open DirectoryEntry renaming slot → slotOf

variable {d d' : Disk} {ptr : LinkPointer} {chain : List ℕ} {es : List Slot}

theorem DirChain.fits (h : DirChain d ptr chain es) : ∀ e ∈ es, e.link.Fits := by
  induction h with
  | done => simp
  | block _ _ _ ih =>
    intro e he
    rcases mem_append.1 he with he | he
    · obtain ⟨entry, hentry, rfl⟩ := mem_map.1 (mem_filter.1 he).1
      obtain ⟨k, rfl⟩ := mem_ofFn.1 hentry
      exact DirBlock.fits_decode_entry _ k
    · exact ih e he

theorem Sector.length_slots (sec : Sector) : sec.slots.length ≤ 8 := by
  refine le_trans (length_filter_le _ _) ?_
  simp

theorem DirChain.length_le (h : DirChain d ptr chain es) : es.length ≤ 8 * chain.length := by
  induction h with
  | done => simp
  | @block _ sec _ _ _ _ _ ih =>
    have := sec.length_slots
    simp only [length_append, length_cons]
    omega

theorem readData_congr {x : ℕ} (hn : d'.sectorCount = d.sectorCount)
    (hs : x % 2 ^ 55 < d.sectorCount → d'.sectors (x % 2 ^ 55) = d.sectors (x % 2 ^ 55)) :
    readData d' x = readData d x := by
  simp only [readData, Disk.readSectors, if_neg one_ne_zero, hn]
  by_cases hx : x % 2 ^ 55 < d.sectorCount
  · rw [if_neg (by omega), if_neg (by omega)]
    refine congrArg Except.ok (funext fun i => ?_)
    simp only [Nat.div_eq_of_lt i.isLt, Nat.add_zero, hs hx]
  · rw [if_pos (by omega), if_pos (by omega)]

theorem getSuperblock_congr (hn : d'.sectorCount = d.sectorCount) (h0 : d'.sectors 0 = d.sectors 0)
    (hlast : d'.sectors (wsub d.sectorCount 1) = d.sectors (wsub d.sectorCount 1)) :
    getSuperblock d' = getSuperblock d := by
  have hfits := d.fits
  have hback : readData d' (wsub d.sectorCount 1) = readData d (wsub d.sectorCount 1) := by
    refine readData_congr hn fun hlt => ?_
    have hsmall : wsub d.sectorCount 1 % 2 ^ 55 = wsub d.sectorCount 1 := by
      rw [wsub_of_le (by omega)]
      omega
    rw [hsmall, hlast]
  unfold getSuperblock
  rw [hn, readData_congr hn fun _ => h0, hback]

namespace LemonFS

/-- What every call keeps: a sound tree, and a cached root that shows what the
disk does. The cache may hold entries whose name is all zero, which the blocks of
the root have room for, and its symlinks may point elsewhere. -/
structure Inv (s : LemonFS) : Prop where
  mounted : s.Mounted
  tree : ∃ chain es owned, s.Holds chain es owned ∧
    Agree es (visible (s.root.map slotOf)) ∧ s.root.length ≤ 8 * chain.length
  fits : ∀ c ∈ s.root, c.slot.link.Fits

theorem Consistent.inv {s : LemonFS} (h : s.Consistent) : s.Inv := by
  obtain ⟨hm, chain, es, owned, hh, hcache, -⟩ := h
  refine ⟨hm, ⟨chain, es, owned, hh, ?_, ?_⟩, fun c hc => ?_⟩
  · rw [hcache, hh.listing.visible]
    exact Agree.refl es
  · have := hh.listing.length_le
    rwa [← hcache, length_map] at this
  refine hh.listing.fits _ ?_
  rw [← hcache]
  exact mem_map_of_mem hc

/-- A directory as `getParent` hands it out: the cached root, or a directory
below it with its children parsed from disk. -/
inductive Opened (s : LemonFS) (es : List Slot) : Directory → Prop
  | root : Opened s es s.rootDir
  | sub {dir : Directory} {chain : List ℕ} {slots : List Slot} : LiveDir s.disk es dir.head →
      DirChain s.disk dir.head chain slots → dir.children.map slotOf = slots →
      (∀ c ∈ dir.children, Parsed s.disk c) → Opened s es dir

/-- The part of the tree that belongs to one directory. -/
structure Focus (s : LemonFS) (chain0 : List ℕ) (es : List Slot) (owned0 : List ℕ) (dir : Directory)
    (before chain : List ℕ) (slots : List Slot) (inner after : List ℕ) : Prop where
  split : chain0 ++ owned0 = before ++ (chain ++ inner) ++ after
  direct : dir.head.isDirect = true
  listing : DirChain s.disk dir.head chain slots
  shown : Agree slots (visible (dir.children.map slotOf))
  owns : Owns s.disk (visible (dir.children.map slotOf)) inner
  fits : ∀ c ∈ dir.children, c.slot.link.Fits
  room : dir.children.length ≤ 8 * chain.length
  root_mem : dir.head = s.rootPtr ∨ dir.head ≠ s.rootPtr ∧ s.rootPtr.start ∈ before ++ after
  rebuild : ∀ (d' : Disk) (chain' : List ℕ) (slots' : List Slot) (inner' : List ℕ),
    d'.sectorCount = s.disk.sectorCount → (∀ x ∈ before ++ after, d'.sectors x = s.disk.sectors x) →
    DirChain d' dir.head chain' slots' → Owns d' slots' inner' →
    ∃ chain1 es1 owned1, DirChain d' s.rootPtr chain1 es1 ∧ Owns d' es1 owned1 ∧
      chain1 ++ owned1 = before ++ (chain' ++ inner') ++ after ∧
      (chain1, es1) = if dir.head = s.rootPtr then (chain', slots') else (chain0, es)

variable {s s' : LemonFS} {chain0 owned0 : List ℕ} {es : List Slot} {dir : Directory} {x : ℕ} {t : List ℕ}

theorem rootPtr_direct (s : LemonFS) : s.rootPtr.isDirect = true := rfl

section

variable (h : s.Holds chain0 es owned0)
include h

theorem Holds.root_mem : s.superblock.dataEnd ∈ chain0 := by
  obtain ⟨rest, rfl⟩ := h.listing.cons_of_direct s.rootPtr_direct
  exact mem_cons_self

theorem Holds.mem_placed (hx : x ∈ chain0 ++ owned0) :
    x = s.superblock.dataEnd ∨ s.superblock.dataStart ≤ x ∧ x < s.superblock.dataEnd := by
  obtain ⟨rest, rfl⟩ := h.listing.cons_of_direct s.rootPtr_direct
  rw [cons_append, mem_cons] at hx
  exact hx.imp id (h.placed x)

theorem Holds.live_ne_root {ptr : LinkPointer} (hlive : LiveDir s.disk es ptr) :
    ptr ≠ s.rootPtr := by
  rintro rfl
  obtain ⟨e, hin, hk, hlink⟩ := hlive
  obtain ⟨before, chain, slots, inner, after, hsplit, hd, hchain, -, -⟩ := h.owns.focus hin hk
  obtain ⟨rest, rfl⟩ := hchain.cons_of_direct hd
  have hmem : s.superblock.dataEnd ∈ owned0 := by
    rw [hsplit, hlink]
    simp [rootPtr]
  exact (disjoint_of_nodup_append h.nodup) h.root_mem hmem

theorem Holds.focus (hi : s.Inv)
    (hcache : Agree es (visible (s.root.map slotOf))) (hroom : s.root.length ≤ 8 * chain0.length)
    (ho : Opened s es dir) :
    ∃ before chain slots inner after,
      Focus s chain0 es owned0 dir before chain slots inner after := by
  cases ho with
  | root =>
    refine ⟨[], chain0, es, owned0, [], by simp, rfl, h.listing, hcache, h.owns.agree hcache, hi.fits,
      hroom, Or.inl rfl, ?_⟩
    intro d' chain' slots' inner' _ _ hchain' howns'
    exact ⟨chain', slots', inner', hchain', howns', by simp, (if_pos rfl).symm⟩
  | @sub _ chain1 _ hlive hchain1 hslots _ =>
    have hne := h.live_ne_root hlive
    obtain ⟨e, hin, hk, hlink⟩ := hlive
    obtain ⟨before, chain, slots, inner, after, hsplit, hd, hchain, howns, hput⟩ := h.owns.focus hin hk
    rw [hlink] at hd hchain hput
    obtain ⟨rfl, rfl⟩ := hchain.unique hchain1
    have hshown : visible (dir.children.map slotOf) = slots := by
      rw [hslots]
      exact hchain.visible
    refine ⟨chain0 ++ before, chain, slots, inner, after, by simp [hsplit], hd, hchain, ?_, ?_, ?_, ?_, ?_, ?_⟩
    · rw [hshown]
      exact Agree.refl slots
    · rw [hshown]
      exact howns
    · intro c hc
      refine hchain.fits _ ?_
      rw [← hslots]
      exact mem_map_of_mem hc
    · have := hchain.length_le
      rwa [← hslots, length_map] at this
    · exact Or.inr ⟨hne, by simp only [mem_append]; exact Or.inl (Or.inl h.root_mem)⟩
    · intro d' chain' slots' inner' hn hs hchain' howns'
      simp only [mem_append] at hs
      refine ⟨chain0, es, before ++ (chain' ++ inner') ++ after, ?_, ?_, by simp, by rw [if_neg hne]⟩
      · exact h.listing.frame hn fun x hx => hs x (Or.inl (Or.inl hx))
      · refine hput d' chain' slots' inner' hn (fun x hx => hs x ?_) hchain' howns'
        rcases mem_append.1 hx with hx | hx
        · exact Or.inl (Or.inr hx)
        · exact Or.inr hx

end

theorem Mounted.outside (hm : s.Mounted) (ht : s.toVolume.Touches t s'.toVolume)
    (hlo : ∀ x ∈ t, s.superblock.dataStart ≤ x ∧ x ≤ s.superblock.dataEnd)
    (hx : x < s.superblock.dataStart ∨ s.superblock.dataEnd < x) : s'.disk.sectors x = s.disk.sectors x := by
  have hend := hm.dataStart_le
  refine ht.disk x (fun hmem => ?_) fun hfree => ?_
  · have := hlo x hmem
    omega
  · have hfree' := hm.area.free_lt x hfree
    have hstart := hfree.1
    rw [hm.area.dataStart] at hstart
    omega

theorem Mounted.update (hm : s.Mounted) (hsb : s'.superblock = s.superblock) (ht : s.toVolume.Touches t s'.toVolume)
    (hlo : ∀ x ∈ t, s.superblock.dataStart ≤ x ∧ x ≤ s.superblock.dataEnd)
    (hhi : ∀ x ∈ t, s'.toVolume.Free x → x < s.superblock.dataEnd) : s'.Mounted := by
  have hcount := ht.shape.sectorCount
  have hlt := hm.dataEnd_lt
  have hpos := hm.bitmapStart_pos
  have hle := hm.bitmapStart_le
  have hend := hm.dataStart_le
  obtain ⟨sb, backup, hget, hbs, hds, hde⟩ := hm.stored
  have hget' : getSuperblock s'.disk = .ok (sb, backup) := by
    rw [getSuperblock_congr hcount (hm.outside ht hlo (by omega)) (hm.outside ht hlo (Or.inr ?_)), hget]
    rw [wsub_of_le (by omega)]
    omega
  refine ⟨?_, ?_, ?_, ?_, ?_, ⟨sb, backup, hget', ?_, ?_, ?_⟩⟩ <;> rw [hsb]
  · exact hpos
  · exact hle
  · exact hend
  · rw [hcount]
    exact hlt
  · exact ht.area hm.area hhi
  · exact hbs
  · exact hds
  · exact hde

theorem Focus.update {before chain inner after : List ℕ} {slots : List Slot} (hm : s.Mounted)
    (h : s.Holds chain0 es owned0) (hf : Focus s chain0 es owned0 dir before chain slots inner after)
    (hsb : s'.superblock = s.superblock) (ht : s.toVolume.Touches t s'.toVolume) (hts : t ⊆ chain ++ inner)
    {chain' inner' : List ℕ} {slots' : List Slot} (hchain' : DirChain s'.disk dir.head chain' slots')
    (howns' : Owns s'.disk slots' inner') (hmem : ∀ x ∈ chain' ++ inner', x ∈ chain ++ inner ∨ s.toVolume.Free x)
    (hnodup : (chain' ++ inner').Nodup) (hused : ∀ x ∈ chain' ++ inner', ¬ s'.toVolume.Free x) :
    s'.Mounted ∧ ∃ chain1 es1 owned1, s'.Holds chain1 es1 owned1 ∧
      chain1 ++ owned1 = before ++ (chain' ++ inner') ++ after ∧
      (chain1, es1) = if dir.head = s.rootPtr then (chain', slots') else (chain0, es) := by
  have hrootPtr : s'.rootPtr = s.rootPtr := by rw [rootPtr, rootPtr, hsb]
  have htotal : ∀ x, x ∈ chain ++ inner ∨ x ∈ before ++ after ↔ x ∈ chain0 ++ owned0 := by
    intro x
    rw [hf.split]
    simp only [mem_append]
    tauto
  -- the two parts of the old tree have no sector in common
  have hold := h.nodup
  rw [hf.split] at hold
  have hapart : ∀ x ∈ before ++ after, x ∉ chain ++ inner := by
    intro x hx hx'
    rw [nodup_append, nodup_append] at hold
    rcases mem_append.1 hx with hx | hx
    · exact hold.1.2.2 x hx x hx' rfl
    · exact hold.2.2 x (mem_append_right _ hx') x hx rfl
  have hrest : ∀ x ∈ before ++ after, s'.disk.sectors x = s.disk.sectors x ∧ ¬ s'.toVolume.Free x := by
    intro x hx
    have hx' : x ∉ t := fun hm => hapart x hx (hts hm)
    have hfree := h.used x ((htotal x).1 (Or.inr hx))
    exact ⟨ht.disk x hx' hfree, fun hf' => hfree (ht.free x hx' hf')⟩
  have hlo : ∀ x ∈ t, s.superblock.dataStart ≤ x ∧ x ≤ s.superblock.dataEnd := by
    intro x hx
    have hle := hm.dataStart_le
    rcases h.mem_placed ((htotal x).1 (Or.inl (hts hx))) with rfl | hx
    · exact ⟨hle, le_rfl⟩
    · exact ⟨hx.1, hx.2.le⟩
  have hroot : ¬ s'.toVolume.Free s.superblock.dataEnd := by
    rcases hf.root_mem with heq | ⟨-, hmem⟩
    · obtain ⟨rest, rfl⟩ := hchain'.cons_of_direct hf.direct
      rw [heq] at hused
      exact hused _ (by simp [rootPtr])
    · exact (hrest _ hmem).2
  have hm' : s'.Mounted := by
    refine hm.update hsb ht hlo fun x hx hfree => ?_
    have hne : x ≠ s.superblock.dataEnd := by
      rintro rfl
      exact hroot hfree
    have := (hlo x hx).2
    omega
  obtain ⟨chain1, es1, owned1, hchain1, howns1, hsplit1, hes1⟩ := hf.rebuild s'.disk chain' slots' inner'
    ht.shape.sectorCount (fun x hx => (hrest x hx).1) hchain' howns'
  have hnew : ∀ x ∈ before ++ after, x ∉ chain' ++ inner' := by
    intro x hx hx'
    rcases hmem x hx' with hx' | hx'
    · exact hapart x hx hx'
    · exact h.used x ((htotal x).1 (Or.inr hx)) hx'
  have hnodup1 : (chain1 ++ owned1).Nodup := by
    rw [hsplit1]
    rw [nodup_append, nodup_append] at hold ⊢
    refine ⟨⟨hold.1.1, hnodup, ?_⟩, hold.2.1, ?_⟩
    · rintro x hx _ hx' rfl
      exact hnew x (mem_append_left _ hx) hx'
    · rintro x hx _ hx' rfl
      rcases mem_append.1 hx with hx | hx
      · exact hold.2.2 x (mem_append_left _ hx) x hx' rfl
      · exact hnew x (mem_append_right _ hx') hx
  refine ⟨hm', chain1, es1, owned1, ⟨by rwa [hrootPtr], howns1, hnodup1, ?_, ?_⟩, hsplit1, hes1⟩
  · intro x hx
    rw [hsb]
    obtain ⟨rest, hrest1⟩ := hchain1.cons_of_direct s.rootPtr_direct
    rw [hrest1] at hx hnodup1
    have hne : x ≠ s.superblock.dataEnd := by
      rintro rfl
      exact (nodup_cons.1 hnodup1).1 hx
    have hx1 : x ∈ chain1 ++ owned1 := by
      rw [hrest1]
      exact mem_cons_of_mem _ hx
    rw [hsplit1] at hx1
    have hcases : x ∈ chain0 ++ owned0 ∨ s.toVolume.Free x := by
      simp only [mem_append] at hx1
      rcases hx1 with (hx1 | hx1) | hx1
      · exact Or.inl ((htotal x).1 (Or.inr (mem_append_left _ hx1)))
      · rcases hmem x (mem_append.2 hx1) with hx1 | hx1
        · exact Or.inl ((htotal x).1 (Or.inl hx1))
        · exact Or.inr hx1
      · exact Or.inl ((htotal x).1 (Or.inr (mem_append_right _ hx1)))
    rcases hcases with hx1 | hx1
    · exact (h.mem_placed hx1).resolve_left hne
    · have := hx1.1
      rw [hm.area.dataStart] at this
      exact ⟨this, hm.area.free_lt x hx1⟩
  · intro x hx
    rw [hsplit1] at hx
    simp only [mem_append] at hx
    rcases hx with (hx | hx) | hx
    · exact (hrest x (mem_append_left _ hx)).2
    · exact hused x (mem_append.2 hx)
    · exact (hrest x (mem_append_right _ hx)).2

end LemonFS

end MaramOS
