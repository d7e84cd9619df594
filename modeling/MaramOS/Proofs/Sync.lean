import Mathlib.Data.List.GetD
import MaramOS.Sanity.Chains

/-! `Directory::sync` rewrites the chain of a directory so that it lists exactly
the given children. It keeps the first blocks of the old chain, gives back the
surplus or allocates what is missing, and writes nothing else. -/

namespace MaramOS

open List Prog Volume

theorem DirEntryFlags.contains_stored :
    contains 0 .isSymlink = false ∧ contains 0 .isDir = false ∧ contains .isDir .isSymlink = false ∧
      contains .isDir .isDir = true ∧ contains .isSymlink .isSymlink = true := by
  decide

theorem DirectoryEntry.slot_toDentry (c : DirectoryEntry) : c.toDentry.slot = c.slot := by
  cases c with
  | file f => simp [toDentry, DirEntry.slot, slot, DirEntryFlags.contains_stored]
  | directory name link => simp [toDentry, DirEntry.slot, slot, DirEntryFlags.contains_stored]
  | symLink name dest => simp [toDentry, DirEntry.slot, slot, DirEntryFlags.contains_stored]

theorem ofFn_getD (l : List DirEntry) (hl : l.length ≤ 8) :
    ofFn (fun k : Fin 8 => l.getD k.val DirEntry.zero) =
      l ++ replicate (8 - l.length) DirEntry.zero := by
  apply ext_getElem
  · simp only [length_ofFn, length_append, length_replicate]
    omega
  · intro i h1 h2
    rw [List.getElem_ofFn, getElem_append]
    split_ifs with hi
    · rw [getD_eq_getElem _ _ hi]
    · rw [getD_eq_default _ _ (by simpa using hi), getElem_replicate]

theorem visible_replicate_zero (n : ℕ) :
    visible ((replicate n DirEntry.zero).map DirEntry.slot) = [] := by
  rw [visible, filter_eq_nil_iff]
  intro e he
  obtain ⟨entry, hentry, rfl⟩ := mem_map.1 he
  obtain rfl := eq_of_mem_replicate hentry
  decide

section

variable (b : DirBlock) (cs : List DirectoryEntry)
  (hentries : ∀ k : Fin 8, b.entries k = (cs.map DirectoryEntry.toDentry).getD k.val DirEntry.zero)
  (hfits : ∀ c ∈ cs, c.slot.link.Fits)
include hentries hfits

theorem entries_encode : (DirBlock.decode b.encode).entries = b.entries := by
  funext k
  refine DirBlock.entries_decode_encode b k ?_
  rw [hentries]
  by_cases hk : k.val < (cs.map DirectoryEntry.toDentry).length
  · rw [getD_eq_getElem _ _ hk, getElem_map]
    have hmem := hfits _ (getElem_mem (by simpa using hk : k.val < cs.length))
    rwa [← DirectoryEntry.slot_toDentry] at hmem
  · rw [getD_eq_default _ _ (by omega)]
    exact ⟨by decide, by decide⟩

theorem slots_encode (hlen : cs.length ≤ 8) : b.encode.slots = visible (cs.map DirectoryEntry.slot) := by
  rw [Sector.slots, entries_encode b cs hentries hfits, funext hentries, ofFn_getD _ (by simpa using hlen),
    map_append, visible_append, visible_replicate_zero, append_nil, map_map]
  congr 1
  exact map_congr_left fun c _ => c.slot_toDentry

end

namespace Directory

variable {dir : Directory} {chain : List ℕ} {d : Disk}

theorem blocksNeeded_pos (dir : Directory) : 0 < dir.blocksNeeded := by
  unfold blocksNeeded
  omega

theorem length_le_blocks (dir : Directory) : dir.children.length ≤ 8 * dir.blocksNeeded := by
  unfold blocksNeeded divCeil ENTRIES_PER_DIRENTRY
  omega

theorem dirChain_of_stored (hlen : chain.length = dir.blocksNeeded)
    (hfits : ∀ c ∈ dir.children, c.slot.link.Fits) (hlt : ∀ x ∈ chain, x < d.sectorCount)
    (hstored : ∀ i x, chain[i]? = some x → d.sectors x = (dir.blockAt chain i).encode)
    (k : ℕ) : ∀ (i : ℕ) (ptr : LinkPointer), i + k + 1 = chain.length → chain[i]? = some ptr.start →
      ptr.isDirect = true → DirChain d ptr (chain.drop i)
        (visible ((dir.children.drop (i * 8)).map DirectoryEntry.slot)) := by
  have hcover := dir.length_le_blocks
  have hblock : ∀ i, (dir.blockAt chain i).encode.slots =
      visible (((dir.children.drop (i * 8)).take 8).map DirectoryEntry.slot) := by
    intro i
    refine slots_encode _ _ (fun k => rfl) (fun c hc => ?_) (by simp)
    exact hfits c (mem_of_mem_drop (mem_of_mem_take hc))
  induction k with
  | zero =>
    intro i ptr hi hptr hd
    have hlast : chain[i + 1]? = none := List.getElem?_eq_none (by omega)
    have hnext : (DirBlock.decode (dir.blockAt chain i).encode).next = ⟨0, 0⟩ := by
      rw [DirBlock.next_decode_encode] <;> simp [blockAt, hlast, LinkPointer.Fits]
    have hread : d.At ptr.start (dir.blockAt chain i).encode := ⟨hlt _ (List.mem_of_getElem? hptr), hstored i _ hptr⟩
    have hdrop : chain.drop i = [ptr.start] := by
      obtain ⟨h, heq⟩ := List.getElem?_eq_some_iff.1 hptr
      rw [drop_eq_getElem_cons h, heq, drop_eq_nil_of_le (by omega)]
    have htake : (dir.children.drop (i * 8)).take 8 = dir.children.drop (i * 8) :=
      take_of_length_le (by rw [length_drop]; omega)
    have hdone : DirChain d (DirBlock.decode (dir.blockAt chain i).encode).next [] [] :=
      .done (by rw [hnext]; rfl)
    have hchain := DirChain.block hd hread hdone
    rwa [hblock, htake, append_nil, ← hdrop] at hchain
  | succ k ih =>
    intro i ptr hi hptr hd
    have hnext? : chain[i + 1]? = some chain[i + 1] := List.getElem?_eq_getElem (by omega)
    have hfit : chain[i + 1] < d.sectorCount := hlt _ (getElem_mem _)
    have hnext : (DirBlock.decode (dir.blockAt chain i).encode).next = ⟨chain[i + 1], 512⟩ := by
      have hdisk := d.fits
      rw [DirBlock.next_decode_encode] <;> simp only [blockAt, hnext?, LinkPointer.Fits]
      omega
    have hread : d.At ptr.start (dir.blockAt chain i).encode := ⟨hlt _ (List.mem_of_getElem? hptr), hstored i _ hptr⟩
    have hdrop : chain.drop i = ptr.start :: chain.drop (i + 1) := by
      obtain ⟨h, heq⟩ := List.getElem?_eq_some_iff.1 hptr
      rw [drop_eq_getElem_cons h, heq]
    have hsplit : dir.children.drop (i * 8) =
        (dir.children.drop (i * 8)).take 8 ++ dir.children.drop ((i + 1) * 8) := by
      rw [Nat.succ_mul, ← drop_drop, take_append_drop]
    have hrest := ih (i + 1) ⟨chain[i + 1], 512⟩ (by omega) hnext? rfl
    have hchain := DirChain.block hd hread (hnext ▸ hrest)
    rwa [hblock, ← visible_append, ← map_append, ← hsplit, ← hdrop] at hchain

theorem writeChain_spec {v : Volume} {rest : List ℕ} (hlen : (dir.head.start :: rest).length = dir.blocksNeeded)
    (hnodup : (dir.head.start :: rest).Nodup) (hlt : ∀ x ∈ dir.head.start :: rest, x < 2 ^ 55) :
    wp (do
        (List.range (divCeil dir.children.length ENTRIES_PER_DIRENTRY)).forM
          (dir.writeBlock (dir.head.start :: rest))
        if dir.children.isEmpty then
          Volume.writeData dir.head.start (DirBlock.encode ⟨dir.parent, fun _ => DirEntry.zero, ⟨0, 0⟩⟩)) v
      (fun _ v' => (∀ x ∈ dir.head.start :: rest, x < v.disk.sectorCount) ∧ Stores (dir.head.start :: rest)
        (fun i => (dir.blockAt (dir.head.start :: rest) i).encode) v v')
      (fun e _ => e = .fs .ioError ∧ ∃ x ∈ dir.head.start :: rest, v.disk.sectorCount ≤ x) := by
  by_cases hempty : dir.children = []
  · have hneeded : dir.blocksNeeded = 1 := by simp [blocksNeeded, hempty, divCeil, ENTRIES_PER_DIRENTRY]
    have hrest : rest = [] := by
      rw [hneeded] at hlen
      simpa using hlen
    subst hrest
    have hblock : dir.blockAt [dir.head.start] 0 = ⟨dir.parent, fun _ => DirEntry.zero, ⟨0, 0⟩⟩ := by
      simp [blockAt, hempty]
    have hzero : divCeil dir.children.length ENTRIES_PER_DIRENTRY = 0 := by
      simp [hempty, divCeil, ENTRIES_PER_DIRENTRY]
    have hwrite := writeData_any (v := v) (dir.blockAt [dir.head.start] 0).encode (hlt _ mem_cons_self)
    rw [hzero, range_zero, List.forM, pure_bind, hempty, isEmpty_nil, if_pos rfl]
    rw [hblock] at hwrite
    refine wp_mono hwrite (fun _ v' h => ⟨?_, h.2.sectorCount, h.2.bitmap, fun i x hx => ?_, h.2.rest⟩)
      (fun _ _ h => ⟨h.1, _, mem_cons_self, h.2⟩)
    · intro x hx
      rw [mem_singleton.1 hx]
      exact h.1
    · cases i with
      | zero => rw [h.2.stored 0 x hx, hblock]
      | succ i => simp at hx
  · have hcount : divCeil dir.children.length ENTRIES_PER_DIRENTRY = (dir.head.start :: rest).length := by
      have hpos := length_pos_iff.2 hempty
      rw [hlen, blocksNeeded]
      unfold divCeil ENTRIES_PER_DIRENTRY
      omega
    have hstore := storeAll_any (v := v) (dir.head.start :: rest)
      (fun i => (dir.blockAt (dir.head.start :: rest) i).encode) hnodup hlt
    rw [hcount]
    refine wp_seq hstore (fun _ v' h => ?_) (fun _ _ h => h)
    rw [if_neg (by simpa using hempty), wp_pure]
    exact h

end Directory

structure Synced (dir : Directory) (chain chain' : List ℕ) (v v' : Volume) : Prop where
  shape : SameShape v v'
  stored : ∀ i x, chain'[i]? = some x → v'.disk.sectors x = (dir.blockAt chain' i).encode
  listing : DirChain v'.disk dir.head chain' (visible (dir.children.map DirectoryEntry.slot))
  length : chain'.length = dir.blocksNeeded
  kept : chain.take dir.blocksNeeded <+: chain'
  members : ∀ x ∈ chain', x ∈ chain ∨ v.Free x
  nodup : chain'.Nodup
  rest : ∀ x, x ∉ chain' → v'.disk.sectors x = v.disk.sectors x
  free : ∀ x, v'.Free x ↔ (v.Free x ∨ x ∈ chain.drop dir.blocksNeeded) ∧ x ∉ chain'

variable {dir : Directory} {chain chain' : List ℕ} {v v' : Volume}

theorem Synced.touches (h : Synced dir chain chain' v v') : Touches chain v v' where
  shape := h.shape
  disk x hx hf := h.rest x fun hm => (h.members x hm).elim hx hf
  free x hx hf := ((h.free x).1 hf).1.resolve_right fun hm => hx (mem_of_mem_drop hm)

theorem Synced.chain_eq (h : Synced dir chain chain' v v') (hlen : dir.blocksNeeded ≤ chain.length) :
    chain' = chain.take dir.blocksNeeded := by
  refine (h.kept.eq_of_length ?_).symm
  rw [h.length, length_take, Nat.min_eq_left hlen]

theorem collectChain_head {d : Disk} {k : ℕ} {ptr : LinkPointer} (hd : ptr.isDirect = true) (hv : ptr.isValid = true)
    (h : collectChain d k ptr = .ok chain) : ∃ rest, chain = ptr.start :: rest := by
  cases k with
  | zero => cases h
  | succ k =>
    rw [collectChain, hd, hv, Bool.and_self, if_pos rfl, LinkPointer.read] at h
    cases hread : readData d ptr.start with
    | error e =>
      rw [hread, error_bind] at h
      cases h
    | ok sec =>
      rw [hread, ok_bind] at h
      simp only at h
      cases hrest : collectChain d k (DirBlock.decode sec).next with
      | error e =>
        rw [hrest, error_bind] at h
        cases h
      | ok rest =>
        rw [hrest, ok_bind] at h
        exact ⟨rest, (Except.ok.inj h).symm⟩

/-- `sync` on any volume, given what giving back the surplus does. It runs out of space only for a longer
chain, and nothing is written before. -/
theorem sync_any {E : Fault → Volume → Prop} (hd : dir.head.isDirect = true) (hv : dir.head.isValid = true)
    (hcollect : collectChain v.disk v.disk.fuel dir.head = .ok chain) (hnodup : chain.Nodup)
    (hin : ∀ x ∈ chain, x < v.disk.sectorCount) (hused : ∀ x ∈ chain, ¬ v.Free x)
    (hoffer : ∀ x, v.Free x → x < 2 ^ 55) (hfits : ∀ c ∈ dir.children, c.slot.link.Fits)
    (hsurplus : wp ((chain.drop dir.blocksNeeded).forM fun lba => Volume.free lba 1) v
      (fun _ v' => Frees (chain.drop dir.blocksNeeded) v v') E) :
    wp dir.sync v (fun _ v' => ∃ chain', Synced dir chain chain' v v')
      (fun e v' => E e v' ∨ (e = .fs .noSpace ∧ ∃ l, l.length < dir.blocksNeeded - chain.length ∧ Takes l v v' ∧
        v'.bitmap.available [] = []) ∨ e = .fs .ioError ∧ ∃ x, v.Free x ∧ v.disk.sectorCount ≤ x) := by
  have hdisk := v.disk.fits
  obtain ⟨rest, hrest⟩ := collectChain_head hd hv hcollect
  have hpos := dir.blocksNeeded_pos
  unfold Directory.sync
  refine wp_reads_seq ?_ hcollect
  refine wp_seq hsurplus (fun _ v1 h₁ => ?_) (fun _ _ h => .inl h)
  have hword : ∀ x, v1.Free x → x < 2 ^ 64 := by
    intro x hx
    rcases (h₁.free x).1 hx with hx | hx
    · exact (hoffer x hx).trans (by norm_num)
    · have hlt := hin x (mem_of_mem_drop hx)
      omega
  refine wp_seq (reuse_spec chain (dir.blocksNeeded - 1) 1 hword) ?_ ?_
  · rintro r v2 ⟨fresh, rfl, hlen, h₂⟩
    have hkept : dir.head.start :: ((chain.drop 1).take (dir.blocksNeeded - 1) ++ fresh) =
        chain.take dir.blocksNeeded ++ fresh := by
      rw [hrest, drop_one, tail_cons, ← cons_append, ← take_succ_cons,
        show dir.blocksNeeded - 1 + 1 = dir.blocksNeeded by omega]
    have hlen' : (chain.take dir.blocksNeeded ++ fresh).length = dir.blocksNeeded := by
      rw [length_append, length_take, hlen, hrest, length_cons]
      omega
    have hfree1 : ∀ x ∈ fresh, v.Free x ∨ x ∈ chain.drop dir.blocksNeeded := fun x hx =>
      (h₁.free x).1 (h₂.wasFree x hx)
    have hcut : ∀ x ∈ chain.take dir.blocksNeeded, x ∉ chain.drop dir.blocksNeeded := by
      have hsplit := hnodup
      rw [← take_append_drop dir.blocksNeeded chain] at hsplit
      exact fun x hx hx' => (disjoint_of_nodup_append hsplit) hx hx'
    have hnodup' : (chain.take dir.blocksNeeded ++ fresh).Nodup := by
      refine nodup_append.2 ⟨hnodup.sublist (take_sublist _ _), h₂.nodup, ?_⟩
      rintro x hx _ hx' rfl
      rcases hfree1 x hx' with hfree | hfree
      · exact hused x (mem_of_mem_take hx) hfree
      · exact hcut x hx hfree
    have hsame : v2.disk = v.disk := by rw [h₂.disk, h₁.disk]
    have hmembers : ∀ x ∈ chain.take dir.blocksNeeded ++ fresh, x ∈ chain ∨ v.Free x := by
      intro x hx
      rcases mem_append.1 hx with hx | hx
      · exact Or.inl (mem_of_mem_take hx)
      · rcases hfree1 x hx with hfree | hfree
        · exact Or.inr hfree
        · exact Or.inl (mem_of_mem_drop hfree)
    have hlt : ∀ x ∈ chain.take dir.blocksNeeded ++ fresh, x < 2 ^ 55 := by
      intro x hx
      rcases hmembers x hx with hx | hx
      · have := hin x hx
        omega
      · exact hoffer x hx
    have hwrite := @Directory.writeChain_spec dir v2 ((chain.drop 1).take (dir.blocksNeeded - 1) ++ fresh)
    rw [hkept] at hwrite
    simp only [hkept]
    refine wp_mono (hwrite hlen' hnodup' hlt) (fun _ v3 h3 => ?_) (fun e v3 h => ?_)
    · obtain ⟨hinside, h3⟩ := h3
      have hfree3 : ∀ x, v3.Free x ↔ (v.Free x ∨ x ∈ chain.drop dir.blocksNeeded) ∧ x ∉ fresh := fun x => by
        rw [h3.free, h₂.free, h₁.free]
      refine ⟨chain.take dir.blocksNeeded ++ fresh, (h₁.shape.trans h₂.shape).trans h3.shape, h3.stored, ?_, hlen',
        prefix_append _ _, hmembers, hnodup', ?_, ?_⟩
      · have hhead : (chain.take dir.blocksNeeded ++ fresh)[0]? = some dir.head.start := by
          rw [← hkept]
          rfl
        have := Directory.dirChain_of_stored hlen' hfits (by rwa [h3.sectorCount]) h3.stored
          (dir.blocksNeeded - 1) 0 dir.head (by omega) hhead hd
        simpa using this
      · intro x hx
        rw [h3.rest x hx, hsame]
      · intro x
        rw [hfree3, mem_append, not_or]
        refine and_congr_right fun hfree => ⟨fun hx => ⟨fun hx' => ?_, hx⟩, And.right⟩
        exact hfree.elim (hused x (mem_of_mem_take hx')) (hcut x hx')
    · obtain ⟨rfl, x, hx, hge⟩ := h
      rw [hsame] at hge
      refine .inr (.inr ⟨rfl, x, (hmembers x hx).resolve_left fun hx => ?_, hge⟩)
      have := hin x hx
      omega
  · rintro e v2 ⟨rfl, fresh, hlen, h₂, hnone, -⟩
    have hshort : fresh.length < dir.blocksNeeded - chain.length := by
      rw [hrest] at hlen ⊢
      simp only [length_cons] at hlen ⊢
      omega
    rw [drop_eq_nil_of_le (by omega)] at h₁
    exact .inr (.inl ⟨rfl, fresh, hshort, Takes.of_frees h₁ h₂, hnone⟩)

theorem sync_spec {lo hi : ℕ} {v : Volume} {dir : Directory} {chain : List ℕ} {slots : List Slot}
    (ha : Area lo hi v) (hd : dir.head.isDirect = true) (hchain : DirChain v.disk dir.head chain slots)
    (hnodup : chain.Nodup) (h0 : 0 ∉ chain) (hplaced : ∀ x ∈ chain.tail, lo ≤ x ∧ x < hi)
    (hused : ∀ x ∈ chain, ¬ v.Free x) (hfits : ∀ c ∈ dir.children, c.slot.link.Fits) :
    wp dir.sync v (fun _ v' => ∃ chain', Synced dir chain chain' v v')
      (fun e v' => e = .fs .noSpace ∧ ∃ l, l.length < dir.blocksNeeded - chain.length ∧ Takes l v v' ∧
        v'.bitmap.available [] = []) := by
  have hdisk := v.disk.fits
  have hinside := ha.inside
  obtain ⟨rest, hrest⟩ := hchain.cons_of_direct hd
  have hpos := dir.blocksNeeded_pos
  have hvalid : dir.head.isValid = true := by
    rw [hrest, mem_cons, not_or] at h0
    simpa [LinkPointer.isValid] using Ne.symm h0.1
  have hdrop : ∀ x ∈ chain.drop dir.blocksNeeded, lo ≤ x ∧ x < hi := by
    intro x hx
    refine hplaced x ?_
    rw [← drop_one]
    exact mem_of_mem_drop (by rwa [drop_drop, show 1 + (dir.blocksNeeded - 1) = dir.blocksNeeded by omega])
  have hcollect : collectChain v.disk v.disk.fuel dir.head = .ok chain :=
    hchain.collectChain h0 _ (by
      have := length_le_of_nodup hnodup hchain.mem_lt
      unfold Disk.fuel
      omega)
  have hsync := sync_any hd hvalid hcollect hnodup hchain.mem_lt hused
    (fun x hx => by have := ha.free_lt x hx; omega) hfits (freeAll_spec _ ha hdrop)
  refine wp_mono hsync (fun _ _ h => h) fun e v' h => ?_
  rcases h with h | h | ⟨-, x, hx, hge⟩
  · exact h.elim
  · exact h
  · have := ha.free_lt x hx
    omega

end MaramOS
