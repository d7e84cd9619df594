import MaramOS.Proofs.Sync
import MaramOS.Proofs.Walk

/-! The common end of `create`, `write`, `delete` and `route_symlink`: something
below one directory has been changed, and then the directory is written back
with a new list of children. -/

namespace MaramOS

open List

namespace LemonFS

open Prog Volume

/-- A directory that an operation can work on. Its blocks and the sectors below its children are
referred to once, marked used and, the first block excepted, in the data area. Nothing is said of
entries on disk that are not among the children, or of the rest of the tree. -/
structure Ready (s : LemonFS) (dir : Directory) (chain : List ℕ) (slots : List Slot) (inner : List ℕ) : Prop where
  area : s.toVolume.Area s.superblock.dataStart s.superblock.dataEnd
  direct : dir.head.isDirect = true
  listing : DirChain s.disk dir.head chain slots
  owns : Owns s.disk (visible (dir.children.map DirectoryEntry.slot)) inner
  fits : ∀ c ∈ dir.children, c.slot.link.Fits
  rootFits : ∀ c ∈ s.root, c.slot.link.Fits
  room : dir.children.length ≤ 8 * chain.length
  nodup : (chain ++ inner).Nodup
  used : ∀ x ∈ chain ++ inner, ¬ s.toVolume.Free x
  pos : 0 ∉ chain
  placed : ∀ x ∈ chain.tail ++ inner, s.superblock.dataStart ≤ x ∧ x < s.superblock.dataEnd

/-- A sound state, and the directory an operation works on. -/
structure At (s : LemonFS) (dir : Directory) (chain0 : List ℕ) (es : List Slot) (owned0 before chain : List ℕ)
    (slots : List Slot) (inner after : List ℕ) : Prop where
  inv : s.Inv
  holds : s.Holds chain0 es owned0
  cache : Agree es (visible (s.root.map DirectoryEntry.slot))
  cacheRoom : s.root.length ≤ 8 * chain0.length
  focus : Focus s chain0 es owned0 dir before chain slots inner after

variable {s s' : LemonFS} {dir : Directory} {chain0 owned0 before chain inner after : List ℕ}
  {es slots : List Slot}

theorem Inv.at (hi : s.Inv) (ho : ∀ chain es, DirChain s.disk s.rootPtr chain es → Opened s es dir) :
    ∃ chain0 es owned0 before chain slots inner after,
      At s dir chain0 es owned0 before chain slots inner after := by
  obtain ⟨chain0, es, owned0, hh, hagree, hroom⟩ := hi.tree
  obtain ⟨before, chain, slots, inner, after, hf⟩ := hh.focus hi hagree hroom (ho chain0 es hh.listing)
  exact ⟨chain0, es, owned0, before, chain, slots, inner, after, hi, hh, hagree, hroom, hf⟩

namespace Ready

variable (h : Ready s dir chain slots inner) {t : List ℕ} {v1 : Volume} {children' : List DirectoryEntry} {x : ℕ}

include h

theorem chain_not_inner (hx : x ∈ chain) : x ∉ inner := fun hx' =>
  (nodup_append.1 h.nodup).2.2 x hx x hx' rfl

theorem inner_placed : ∀ x ∈ inner, s.superblock.dataStart ≤ x ∧ x < s.superblock.dataEnd := fun x hx =>
  h.placed x (mem_append_right _ hx)

theorem area₁ (ht : s.toVolume.Touches t v1) (hts : t ⊆ inner) :
    v1.Area s.superblock.dataStart s.superblock.dataEnd :=
  ht.area h.area fun x hx _ => (h.inner_placed x (hts hx)).2

theorem chain_kept (ht : s.toVolume.Touches t v1) (hts : t ⊆ inner) (hx : x ∈ chain) :
    v1.disk.sectors x = s.disk.sectors x ∧ ¬ v1.Free x := by
  have hused := h.used x (mem_append_left _ hx)
  have hout : x ∉ t := fun hm => h.chain_not_inner hx (hts hm)
  exact ⟨ht.disk x hout hused, fun hfree => hused (ht.free x hout hfree)⟩

theorem sync_spec (ht : s.toVolume.Touches t v1) (hts : t ⊆ inner)
    (hfits : ∀ c ∈ children', c.slot.link.Fits) :
    wp { dir with children := children' }.sync v1
      (fun _ v2 => ∃ chain', Synced { dir with children := children' } chain chain' v1 v2)
      (fun e v2 => e = .fs .noSpace ∧ ∃ l, l.length < max (divCeil children'.length 8) 1 - chain.length ∧
        Takes l v1 v2 ∧ v2.bitmap.available [] = []) := by
  have hlisting : DirChain v1.disk dir.head chain slots :=
    h.listing.frame ht.shape.sectorCount fun x hx => (h.chain_kept ht hts hx).1
  refine MaramOS.sync_spec (h.area₁ ht hts) h.direct hlisting (nodup_append.1 h.nodup).1 h.pos ?_ ?_ hfits
  · exact fun x hx => h.placed x (mem_append_left _ hx)
  · exact fun x hx => (h.chain_kept ht hts hx).2

theorem no_growth {n : ℕ} (hn : n ≤ dir.children.length) : ¬ chain.length < max (divCeil n 8) 1 := by
  have hroom := h.room
  obtain ⟨rest, hrest⟩ := h.listing.cons_of_direct h.direct
  have hpos : 0 < chain.length := by
    rw [hrest]
    simp
  unfold divCeil
  omega

end Ready

namespace At

variable (h : At s dir chain0 es owned0 before chain slots inner after) {x : ℕ}

include h

theorem mem_total (hx : x ∈ chain ++ inner) : x ∈ chain0 ++ owned0 := by
  rw [h.focus.split]
  exact mem_append_left _ (mem_append_right _ hx)

theorem nodup : (chain ++ inner).Nodup := by
  have hnodup := h.holds.nodup
  rw [h.focus.split] at hnodup
  exact (nodup_append.1 (nodup_append.1 hnodup).1).2.1

theorem chain_not_inner (hx : x ∈ chain) : x ∉ inner := fun hx' =>
  (nodup_append.1 h.nodup).2.2 x hx x hx' rfl

theorem used (hx : x ∈ chain ++ inner) : ¬ s.toVolume.Free x := h.holds.used x (h.mem_total hx)

theorem root_not_mem (hx : x ∈ chain.tail ++ inner) : x ≠ s.superblock.dataEnd := by
  rintro rfl
  obtain ⟨rest, hrest⟩ := h.focus.listing.cons_of_direct h.focus.direct
  have hmem : s.superblock.dataEnd ∈ chain ++ inner := by
    rw [hrest] at hx ⊢
    exact mem_cons_of_mem _ hx
  rcases h.focus.root_mem with heq | ⟨-, hout⟩
  · have hnodup := h.nodup
    rw [hrest, heq] at hnodup
    rw [hrest] at hx
    exact (nodup_cons.1 hnodup).1 hx
  · have hnodup := h.holds.nodup
    rw [h.focus.split, nodup_append, nodup_append] at hnodup
    rcases mem_append.1 hout with hout | hout
    · exact hnodup.1.2.2 _ hout _ hmem rfl
    · exact hnodup.2.2 _ (mem_append_right _ hmem) _ hout rfl

theorem placed (hx : x ∈ chain.tail ++ inner) :
    s.superblock.dataStart ≤ x ∧ x < s.superblock.dataEnd := by
  have hmem : x ∈ chain ++ inner := by
    rcases mem_append.1 hx with hx | hx
    · exact mem_append_left _ (mem_of_mem_tail hx)
    · exact mem_append_right _ hx
  exact (h.holds.mem_placed (h.mem_total hmem)).resolve_left (h.root_not_mem hx)

theorem inner_placed : ∀ x ∈ inner, s.superblock.dataStart ≤ x ∧ x < s.superblock.dataEnd := fun _ hx =>
  h.placed (mem_append_right _ hx)

theorem ready : Ready s dir chain slots inner where
  area := h.inv.mounted.area
  direct := h.focus.direct
  listing := h.focus.listing
  owns := h.focus.owns
  fits := h.focus.fits
  rootFits := h.inv.fits
  room := h.focus.room
  nodup := h.nodup
  used _ hx := h.used hx
  pos h0 := by
    have hpos := h.inv.mounted.area.pos
    rcases h.holds.mem_placed (h.mem_total (mem_append_left _ h0)) with h0 | h0
    · have := h.inv.mounted.dataStart_le
      omega
    · omega
  placed _ hx := h.placed hx

variable {t : List ℕ} {v1 : Volume} {children' : List DirectoryEntry}

/-- The state after the directory has been written back is sound again, provided
its new children own sectors that were below it or free. -/
theorem relist (ht : s.toVolume.Touches t v1) (hts : t ⊆ inner) {chain' inner' : List ℕ}
    (hs : Synced { dir with children := children' } chain chain' v1 s'.toVolume)
    (hsb : s'.superblock = s.superblock)
    (howns : Owns v1.disk (visible (children'.map DirectoryEntry.slot)) inner')
    (hmem : ∀ x ∈ inner', x ∈ inner ∨ s.toVolume.Free x) (hnodup : inner'.Nodup)
    (hused : ∀ x ∈ inner', ¬ v1.Free x) :
    s'.Mounted ∧ ∃ chain1 es1 owned1, s'.Holds chain1 es1 owned1 ∧
      chain1 ++ owned1 = before ++ (chain' ++ inner') ++ after ∧
      (chain1, es1) = if dir.head = s.rootPtr then (chain', visible (children'.map DirectoryEntry.slot))
        else (chain0, es) := by
  have hout : ∀ x ∈ inner', x ∉ chain := by
    intro x hx hx'
    rcases hmem x hx with hx | hx
    · exact h.chain_not_inner hx' hx
    · exact h.used (mem_append_left _ hx') hx
  have hapart : ∀ x ∈ inner', x ∉ chain' := by
    intro x hx hx'
    rcases hs.members x hx' with hx' | hx'
    · exact hout x hx hx'
    · exact hused x hx hx'
  have htouch : s.toVolume.Touches (chain ++ t) s'.toVolume :=
    (ht.mono (subset_append_right _ _)).trans (hs.touches.mono (subset_append_left _ _))
  refine h.focus.update h.inv.mounted h.holds hsb htouch ?_ hs.listing
    (howns.frame hs.shape.sectorCount fun x hx => hs.rest x (hapart x hx)) ?_ ?_ ?_
  · intro x hx
    rcases mem_append.1 hx with hx | hx
    · exact mem_append_left _ hx
    · exact mem_append_right _ (hts hx)
  · intro x hx
    rcases mem_append.1 hx with hx | hx
    · rcases hs.members x hx with hx | hx
      · exact Or.inl (mem_append_left _ hx)
      · by_cases hm : x ∈ t
        · exact Or.inl (mem_append_right _ (hts hm))
        · exact Or.inr (ht.free x hm hx)
    · exact (hmem x hx).imp (mem_append_right _) id
  · exact nodup_append.2 ⟨hs.nodup, hnodup, fun x hx y hy hxy => hapart y hy (hxy ▸ hx)⟩
  · intro x hx hfree
    have hfree' := (hs.free x).1 hfree
    rcases mem_append.1 hx with hx | hx
    · exact hfree'.2 hx
    · rcases hfree'.1 with hfree' | hfree'
      · exact hused x hx hfree'
      · exact hout x hx (mem_of_mem_drop hfree')

end At

end LemonFS

end MaramOS
