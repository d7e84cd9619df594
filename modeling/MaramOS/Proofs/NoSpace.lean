import MaramOS.Proofs.Undisturbed

/-! A write that runs out of space. The link blocks of the file are given back and wiped before the new data
sectors are taken, and whatever has been taken until then is not given back. So the file keeps its bytes only if it
has no link blocks or no data, and the bitmap is as before only if what was taken is what had been given back. -/

namespace MaramOS

open List Prog Volume LemonFS
open PhysPage (zeroed)

/-- Both disks can be mounted, and then reading the path gives the same on both. -/
def ReadSame (d d' : Disk) (path : Path) : Prop :=
  ∃ t t', init d = .ok t ∧ init d' = .ok t' ∧ ∀ dest, ∃ out, t.read path dest = .ok out ∧ t'.read path dest = .ok out

variable {d : Disk} {ext : List LinkPointer} {path : Path}

theorem Leads.unique {ptr ptr1 ptr2 : LinkPointer} {es es₁ es₂ : List Slot} {comps : List Str}
    (h1 : Leads d ptr es comps ptr1 es₁) (h2 : Leads d ptr es comps ptr2 es₂) : ptr1 = ptr2 ∧ es₁ = es₂ := by
  induction h1 with
  | here =>
    cases h2
    exact ⟨rfl, rfl⟩
  | step hl _ hchain _ ih =>
    cases h2 with
    | step hl' _ hchain' hrest' =>
      rw [hl] at hl'
      cases hl'
      obtain ⟨-, rfl⟩ := hchain.unique hchain'
      exact ih hrest'

section OutOfSpace

variable {n : ℕ} {ind w taken : List ℕ} {ext : List LinkPointer} {v v₁ v' : Volume}

theorem OutOfSpace.taken_eq (h : OutOfSpace ind ext n w taken v v₁ v') :
    taken = v.bitmap.available (ind ++ w) := by
  have havail := h.takes.available
  rw [h.empty, append_nil, available_of_free h.wipes.shape h.wipes.free, append_nil] at havail
  exact havail.symm

theorem OutOfSpace.free_iff (h : OutOfSpace ind ext n [] taken v v₁ v') (hused : ∀ x ∈ ind, ¬v.Free x) :
    (∀ x, v'.Free x ↔ v.Free x) ↔ ∀ x, x ∈ v.bitmap.available ind ↔ x ∈ ind := by
  have htaken := h.taken_eq
  rw [append_nil] at htaken
  have hfree : ∀ x, v'.Free x ↔ (v.Free x ∨ x ∈ ind) ∧ x ∉ taken := by
    intro x
    rw [h.takes.free, h.wipes.free, append_nil]
  rw [← htaken]
  constructor
  · intro hsame x
    constructor
    · intro hx
      have hwas := (h.wipes.free x).1 (h.takes.wasFree x hx)
      rw [append_nil] at hwas
      exact hwas.resolve_left fun hv => ((hfree x).1 ((hsame x).2 hv)).2 hx
    · intro hx
      by_contra hout
      exact hused x hx ((hsame x).1 ((hfree x).2 ⟨.inr hx, hout⟩))
  · intro hset x
    rw [hfree, hset]
    refine ⟨fun hx => hx.1.resolve_right hx.2, fun hx => ⟨.inl hx, fun hin => hused x hin hx⟩⟩

end OutOfSpace

theorem wsum_pos (hne : ext ≠ []) (hdirect : ∀ l ∈ ext, l.isDirect = true) (hnodup : (fileBlocks ext).Nodup)
    (hlt : ∀ x ∈ fileBlocks ext, x < d.sectorCount) :
    0 < wsum (ext.map (·.size)) := by
  have hlen : ∀ l : List LinkPointer, (l.map (·.size)).sum ≤ 512 * (fileBlocks l).length := by
    intro l
    induction l with
    | nil => rfl
    | cons p l ih =>
      rw [map_cons, sum_cons, fileBlocks_cons, length_append, LinkPointer.blocks, length_range']
      unfold divCeil
      omega
  have hle := length_le_of_nodup hnodup hlt
  have hsum := hlen ext
  have hfits := d.fits
  rw [wsum_eq_sum _ (by omega)]
  cases ext with
  | nil => exact absurd rfl hne
  | cons p l =>
    have hp := hdirect p mem_cons_self
    simp only [LinkPointer.isDirect, bne_iff_ne] at hp
    rw [map_cons, sum_cons]
    omega

theorem write_root (s : LemonFS) (src : PhysPage) (h : path.isRoot = true) :
    write path src s = (.error (.fs .isRoot), s) := by
  unfold write
  rw [if_pos h]
  rfl

theorem OneFile.noSpace {s : LemonFS} (h : OneFile s) :
    ∃ s', LemonFS.write ⟨[0x2F, 0x61]⟩ (zeroed 600) s = (.error (.fs .noSpace), s') ∧ s.toVolume.Free 4 ∧
      ¬s'.toVolume.Free 4 := by
  obtain ⟨chain₀, es, owned₀, before, chain, slots, inner, after, hat⟩ := h.small.inv.at fun _ _ _ => .root
  have hpar : s.getParent ⟨[0x2F, 0x61]⟩ = .ok s.rootDir := getParent_root rfl
  have hget := h.getChild
  have hlink : LinkChain s.disk ⟨3, 1⟩ [] [⟨3, 1⟩] := .extent rfl rfl
  have havail := h.small.filled.available
  have hspec := write_spec hat.ready hpar (zeroed 600)
  rcases hrun : LemonFS.write ⟨[0x2F, 0x61]⟩ (zeroed 600) s with ⟨err | _, s'⟩
  · cases wp_error hspec hrun with
    | isRoot h' => exact absurd h' (by decide)
    | fileNotFound h' => simp [hget] at h'
    | badFileType h' hf =>
      rw [hget] at h'
      exact absurd (Option.some.inj h').symm (hf _)
    | noPages h' => cases h'
    | noSpace hc hlink' _ hout _ _ =>
      have hget' := hc.getChild
      rw [hget] at hget'
      cases hget'
      obtain ⟨rfl, rfl⟩ := hlink.unique hlink'
      refine ⟨s', rfl, (h.small.filled.free 4).2 (by norm_num), fun hfree => ?_⟩
      refine ((hout.takes.free 4).1 hfree).2 ?_
      have hw := hout.surplus_nil (by norm_num [zeroed]) hlink fun x hx => by
        rw [h.small.filled.sectorCount, mem_singleton.1 (show x ∈ [3] from hx)]
        norm_num
      rw [hout.taken_eq, hw, append_nil, havail, mem_range'_1]
      norm_num
  · obtain ⟨l₁, f, l₂, i₁, ind, ext, i₂, f', lbas, v₁, chain', hw⟩ := wp_ok hspec hrun
    have hget' := hw.child.getChild
    rw [hget] at hget'
    cases hget'
    obtain ⟨rfl, rfl⟩ := hlink.unique hw.link
    have hlen := hw.rewritten.length
    rw [newChain, havail, length_take, length_append, length_range'] at hlen
    have hblocks : (fileBlocks [⟨3, 1⟩]).length = 1 := rfl
    rw [hblocks] at hlen
    simp only [zeroed] at hlen
    omega

/-- What `read` gives on a file with the extents `ext`. -/
def LemonFS.ReadsAs (t : LemonFS) (path : Path) (ext : List LinkPointer) : Prop :=
  ∀ dest, t.read path dest = .ok (min (wsum (ext.map (·.size))) (dest.count * PAGE_SIZE),
    copied t.disk (min (wsum (ext.map (·.size))) (dest.count * PAGE_SIZE)) 0 ext dest)

/-- A file that loses its extents with its link blocks reads the same if it has none of the one or of the other. -/
theorem readSame_iff {d' : Disk} {t t' : LemonFS} {ind : List ℕ} (hmount : init d = .ok t)
    (hmount' : init d' = .ok t') (hread : t.ReadsAs path ext)
    (hread' : t'.ReadsAs path (if ind = [] then ext else [])) (hpos : ext ≠ [] → 0 < wsum (ext.map (·.size)))
    (hkept : ind = [] ∨ ext = [] → ∀ x ∈ fileBlocks ext, t'.disk.sectors x = t.disk.sectors x) :
    ReadSame d d' path ↔ ind = [] ∨ ext = [] := by
  constructor
  · rintro ⟨t1, t1', hmount1, hmount1', hsame⟩
    obtain rfl := Except.ok.inj (hmount.symm.trans hmount1)
    obtain rfl := Except.ok.inj (hmount'.symm.trans hmount1')
    by_contra hnot
    obtain ⟨hne, hne'⟩ := not_or.1 hnot
    obtain ⟨out, ho, ho'⟩ := hsame (zeroed 1)
    rw [hread] at ho
    rw [hread', if_neg hne, ← ho] at ho'
    have hlen := congrArg Prod.fst (Except.ok.inj ho')
    have hpos := hpos hne'
    simp only [map_nil, wsum, foldl_nil, zeroed, PAGE_SIZE] at hlen hpos
    omega
  · intro hcase
    have hext : (if ind = [] then ext else []) = ext := by
      rcases hcase with h | h <;> simp [h]
    refine ⟨t, t', hmount, hmount', fun dest => ⟨_, hread dest, ?_⟩⟩
    rw [hread', hext, copied_congr (hkept hcase)]

/-- A write to an existing file runs out of space. A fresh mount reads what it read before and the same sectors are in
use, if and only if the file has no link blocks or no data and `alloc(1)` finds, once the link blocks are given back,
them and nothing else. -/
theorem write_noSpace_iff (s s' : LemonFS) (path : Path) (src : PhysPage) (e : Slot) (ind : List ℕ)
    (ext : List LinkPointer) (hi : s.Inv) (hq : s.HasFile path e) (hlink : LinkChain s.disk e.link ind ext)
    (hrun : write path src s = (.error (.fs .noSpace), s')) :
    (ReadSame s.disk s'.disk path ∧ ∀ x, s'.toVolume.Free x ↔ s.toVolume.Free x) ↔
      (ind = [] ∨ ext = []) ∧ ∀ x, x ∈ s.bitmap.available ind ↔ x ∈ ind := by
  have hplain : (Call.write path src).Plain s := @HasFile.plain s e (.write path src) hq hi
  have hroot : path.isRoot = false := by
    cases hroot : path.isRoot with
    | false => rfl
    | true =>
      rw [write_root s src hroot] at hrun
      cases hrun
  obtain ⟨t, hmount, hdisk, hshows⟩ := hq.shows hi
  obtain ⟨own, hown, hnodup, hlt⟩ := hq.owned hi
  -- the directory that the file is in
  obtain ⟨chain₀, es, owned₀, hh, hagree, -⟩ := hi.tree
  obtain ⟨chain₁, es₁, ptr, sub, hchain₁, hleads, hl, hfile⟩ := hq
  obtain ⟨-, rfl⟩ := hchain₁.unique hh.listing
  have hn := (List.nodup_append.1 hh.nodup).2.1
  obtain ⟨dir, hpar, -⟩ := hleads.walk hh.owns hn (fun _ hc => Path.component_ne_nil hc)
    (show s.rootDir.head = _ from rfl) hagree
  have hpar : s.getParent path = .ok dir := hpar
  obtain ⟨chain₂, es₂, owned₂, before, chain, slots, inner, after, hloc⟩ := hi.located hplain.live hpar
  have hat := hloc.at_dir
  obtain ⟨-, rfl⟩ := hat.holds.listing.unique hh.listing
  obtain ⟨-, rfl⟩ := (hloc.leads hplain).unique hleads
  cases wp_error (write_spec hat.ready hpar src) hrun with
  | @noSpace l₁ l₂ f i₁ ind₁ i₂ w taken ext₁ v₁ _ hc hlink₁ hpos hout hsb _ =>
    -- its slot
    have hslot : e = (DirectoryEntry.file f).slot := by
      have hchild := (hat.lookup_iff (by rw [hfile]; decide)).1 hl
      rw [lookup_visible path.name_ne_nil, ← getChild_slot, hc.getChild] at hchild
      exact (Option.some.inj hchild).symm
    subst hslot
    obtain ⟨rfl, rfl⟩ := hlink.unique hlink₁
    obtain rfl := hown.unique hc.owns
    obtain ⟨hind, hblocks, -⟩ := List.nodup_append.1 hnodup
    have hused : ∀ x ∈ ind, ¬s.toVolume.Free x := fun x hx =>
      hat.used (List.mem_append_right _ (hc.own_subset (List.mem_append_left _ hx)))
    have hinside : ∀ x ∈ fileBlocks ext, x < s.disk.sectorCount := fun x hx => hlt x (List.mem_append_right _ hx)
    have hw : ind = [] ∨ ext = [] → w = [] := by
      rintro (rfl | rfl)
      · exact hout.surplus_nil (by omega) hlink hinside
      · rcases hout.surplus with hw | ⟨hw, -⟩
        · exact hw
        · exact hw.trans List.drop_nil
    -- what is read before and after
    have hspoilt := hloc.spoilt hc hlink hout
    have hchange := (hat.change_of_touches hspoilt.touches hspoilt.listing).mono (List.subset_append_right _ _)
    have hway := ((hloc.leads hplain).change hat.holds.owns (List.nodup_append.1 hat.holds.nodup).2.1 hchange).2
      hspoilt.readable
    obtain ⟨t', hmount', hdisk', hafter⟩ := hloc.remounted hplain hspoilt.touches hsb hspoilt.head hspoilt.listing
      hspoilt.readable
    have hcount : t'.disk.sectorCount = s.disk.sectorCount := by rw [hdisk', hchange.sectorCount]
    obtain ⟨-, hread⟩ := hshows.read hroot (by rwa [hdisk]) hind (by rwa [hdisk])
    obtain ⟨-, hread'⟩ := (hafter path _ slots _ hway hl hfile).read hroot (by rw [hdisk']; exact hout.link_after hlink)
      (hind.sublist (List.take_sublist 1 ind)) (by
        rw [hcount]
        split_ifs
        · exact hinside
        · simp [fileBlocks])
    have hkept : ind = [] ∨ ext = [] → ∀ x ∈ fileBlocks ext, t'.disk.sectors x = t.disk.sectors x := by
      intro hcase x hx
      rw [hdisk', hdisk, hout.takes.disk, hout.wipes.disk, hw hcase, List.append_nil, if_neg]
      rcases hcase with rfl | rfl
      · exact List.not_mem_nil
      · cases hx
    have hreads : ReadSame s.disk s'.disk path ↔ ind = [] ∨ ext = [] :=
      readSame_iff hmount hmount' hread hread'
        (fun hne => wsum_pos hne (fun l hl => (hlink.mem_ext l hl).2) hblocks hinside) hkept
    rw [hreads]
    refine and_congr_right fun hcase => ?_
    obtain rfl := hw hcase
    exact hout.free_iff hused

/-- The new file `a`, of one sector, on the sample partition. -/
theorem write_noSpace_600_pages :
    ∃ s s', s.Inv ∧ write ⟨[0x2F, 0x61]⟩ (PhysPage.zeroed 600) s = (.error (.fs .noSpace), s') ∧
      ((ReadSame s.disk s'.disk ⟨[0x2F, 0x61]⟩ ∧ ∀ x, s'.toVolume.Free x ↔ s.toVolume.Free x) ↔
        (([] : List ℕ) = [] ∨ [(⟨3, 1⟩ : LinkPointer)] = []) ∧ ∀ x, x ∈ s.bitmap.available [] ↔ x ∈ []) := by
  obtain ⟨s, hs⟩ := exists_oneFile
  obtain ⟨s', hrun, -⟩ := hs.noSpace
  exact ⟨s, s', hs.small.inv, hrun, write_noSpace_iff s s' ⟨[0x2F, 0x61]⟩ (zeroed 600) _ [] [⟨3, 1⟩]
    hs.small.inv hs.hasFile (.extent rfl rfl) hrun⟩

/-- A write of 600 pages fails, and the sectors that were free are used afterwards. -/
theorem failed_write_keeps_sectors :
    ∃ s s' e, s.Consistent ∧ s.HasFile ⟨[0x2F, 0x61]⟩ e ∧
      write ⟨[0x2F, 0x61]⟩ (PhysPage.zeroed 600) s = (.error (.fs .noSpace), s') ∧
      s.toVolume.Free 4 ∧ ¬s'.toVolume.Free 4 := by
  obtain ⟨s, hs⟩ := exists_oneFile
  obtain ⟨s', hrun, hfree, hused⟩ := hs.noSpace
  exact ⟨s, s', _, hs.consistent, hs.hasFile, hrun, hfree, hused⟩

end MaramOS
