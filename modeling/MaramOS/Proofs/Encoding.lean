import MaramOS.Proofs.Links
import MaramOS.Proofs.Sync

/-! What `Directory::sync` stores is what `from_dir_block` reads, on any disk. The
blocks that are written may be link blocks of the directory's own files; their
chains then end there, so every file is still found. -/

namespace MaramOS

open Prog Volume
open DirectoryEntry renaming slot → slotOf

theorem DirBlock.last_encode (b : DirBlock) :
    (LinkBlock.decode b.encode).last.isValid = true ∧ (LinkBlock.decode b.encode).last.isDirect = true := by
  have hpad : ∀ j < 16, b.encode.byte (496 + j) = 0xBA := by
    intro j hj
    rw [byte_of_lt _ (by omega)]
    simp only [encode]
    rw [if_neg (by omega), dif_neg (by omega), if_neg (by omega)]
  have hlast : (LinkBlock.decode b.encode).last = ⟨0xBABABABABABABABA, 0xBABABABABABABABA⟩ := by
    refine LinkPointer.decode_of_bytes _ _ _ ⟨by norm_num, by norm_num⟩ fun j hj => ?_
    refine (hpad j hj).trans ?_
    interval_cases j <;> rfl
  rw [hlast]
  exact ⟨rfl, rfl⟩

theorem resolveLinksLoop_cut {d d' : Disk} (hn : d'.sectorCount = d.sectorCount)
    (hcut : ∀ x, d'.sectors x = d.sectors x ∨ ∃ b : DirBlock, d'.sectors x = b.encode) {k : ℕ} :
    ∀ {stack stack' : List LinkPointer} {ptr : LinkPointer} {links : List LinkPointer},
      (∀ l ∈ stack, l.isValid = true ∧ l.isDirect = true) → (∀ l ∈ stack', l.isValid = true ∧ l.isDirect = true) →
      resolveLinksLoop d k (stack ++ [ptr]) = .ok links →
        ∃ links', resolveLinksLoop d' k (stack' ++ [ptr]) = .ok links' := by
  induction k with
  | zero =>
    intro stack stack' ptr links _ _ h
    cases h
  | succ k ih =>
    intro stack stack' ptr links hstack hstack' h
    cases hv : ptr.isValid with
    | false => exact ⟨stack', by simp [resolveLinksLoop, hv]⟩
    | true =>
    cases hd : ptr.isDirect with
    | true => exact ⟨stack' ++ [ptr], by simp [resolveLinksLoop, hv, hd]⟩
    | false =>
    rw [resolveLinksLoop_block hv hd, resolveLink_block hv hd] at h ⊢
    cases hread : readData d ptr.start with
    | error e =>
      rw [hread, error_bind, error_bind] at h
      cases h
    | ok sec =>
      have hlt := (readData_key hread).1
      have hsec : sec = d.sectors (ptr.start % 2 ^ 55) := by
        have hlow := (readData_key hread).2 (ptr.start % 2 ^ 55) (Nat.mod_mod _ _)
        rw [readData_eq hlt] at hlow
        exact (Except.ok.inj hlow).symm
      have hread' : readData d' ptr.start = .ok (d'.sectors (ptr.start % 2 ^ 55)) :=
        (readData_key (readData_eq (hn ▸ hlt))).2 ptr.start (Nat.mod_mod _ _).symm
      have hmore : ∀ {st : List LinkPointer} (b : LinkBlock), (∀ l ∈ st, l.isValid = true ∧ l.isDirect = true) →
          ∀ l ∈ st ++ b.direct, l.isValid = true ∧ l.isDirect = true := by
        intro st b hst l hl
        rcases List.mem_append.1 hl with hl | hl
        · exact hst l hl
        · exact LinkBlock.mem_direct hl
      rw [hread, ok_bind, ok_bind] at h
      rw [hread', ok_bind, ok_bind]
      obtain ⟨k, rfl⟩ : ∃ n, k = n + 1 := by
        cases k with
        | zero => cases h
        | succ k => exact ⟨k, rfl⟩
      rcases hcut (ptr.start % 2 ^ 55) with hsame | ⟨b, hb⟩
      · rw [hsame, ← hsec]
        generalize LinkBlock.decode sec = block at h ⊢
        by_cases hlast : block.last.isValid = true
        · rw [if_pos hlast, ← List.append_assoc] at h ⊢
          exact ih (hmore block hstack) (hmore block hstack') h
        · rw [if_neg hlast, List.append_nil]
          exact ⟨_, resolveLinksLoop_extents (hmore block hstack')⟩
      · rw [hb, if_pos b.last_encode.1, ← List.append_assoc]
        refine ⟨_, resolveLinksLoop_extents fun l hl => ?_⟩
        rcases List.mem_append.1 hl with hl | hl
        · exact hmore _ hstack' l hl
        · rw [List.mem_singleton.1 hl]
          exact b.last_encode

/-- From the stored children `from_dir_block` makes the same children again, in the same order; the chain has
as many blocks as they need, the bitmap differs by the blocks that the chain gained or lost, and nothing else is
written. -/
theorem directory_round_trip {dir : Directory} {v v' : Volume} {chain : List ℕ} (hv : dir.head.isValid = true)
    (hd : dir.head.isDirect = true) (hparent : dir.parent < 2 ^ 64) (hfits : ∀ c ∈ dir.children, c.slot.link.Fits)
    (hchain : collectChain v.disk v.disk.fuel dir.head = .ok chain) (hnodup : chain.Nodup)
    (hin : ∀ x ∈ chain, x < v.disk.sectorCount) (hused : ∀ x ∈ chain, ¬ v.Free x)
    (hbits : v.bitmap.dataStart + 4096 * v.bitmap.blocks.length ≤ 2 ^ 55)
    (hnames : ∀ c ∈ dir.children, c.filename.isEmpty = false)
    (hfiles : ∀ f, .file f ∈ dir.children → ∃ links, resolveLinks v.disk f.head = .ok links)
    (hrun : dir.sync v = (.ok (), v')) :
    ∃ chain' children', Directory.openAt v'.disk dir.name dir.head = .ok { dir with children := children' } ∧
      children'.map slotOf = dir.children.map slotOf ∧
      DirChain v'.disk dir.head chain' (dir.children.map slotOf) ∧
      chain'.length = max 1 (divCeil dir.children.length 8) ∧
      (∀ x, v'.Free x ↔ (v.Free x ∨ x ∈ chain) ∧ x ∉ chain' ) ∧
      ∀ x, x ∉ chain' → v'.disk.sectors x = v.disk.sectors x := by
  have hoffer : ∀ x, v.Free x → x < 2 ^ 55 := by
    intro x hx
    have hlt := BitmapAllocator.lt_of_bit_false hx.2
    have hge := hx.1
    omega
  obtain ⟨chain', hs⟩ := wp_ok (sync_any hd hv hchain hnodup hin hused hoffer hfits (freeAll_any _ hbits)) hrun
  have hvisible : visible (dir.children.map slotOf) = dir.children.map slotOf := by
    rw [visible, List.filter_eq_self]
    intro e he
    obtain ⟨c, hc, rfl⟩ := List.mem_map.1 he
    have hname := hnames c hc
    cases c <;> simpa [slotOf, DirectoryEntry.filename] using hname
  have hlisting := hs.listing
  rw [hvisible] at hlisting
  have hshort := length_le_of_nodup hs.nodup hlisting.mem_lt
  have hcut : ∀ x, v'.disk.sectors x = v.disk.sectors x ∨ ∃ b : DirBlock, v'.disk.sectors x = b.encode := by
    intro x
    by_cases hx : x ∈ chain'
    · obtain ⟨i, hi⟩ := List.mem_iff_getElem?.1 hx
      exact .inr ⟨_, hs.stored i x hi⟩
    · exact .inl (hs.rest x hx)
  have hreadable : Readable v'.disk (dir.children.map slotOf) := by
    intro e he hk
    obtain ⟨c, hc, rfl⟩ := List.mem_map.1 he
    cases c with
    | directory => cases hk
    | symLink => cases hk
    | file f =>
      obtain ⟨links, hlinks⟩ := hfiles f hc
      have hfuel : v'.disk.fuel = v.disk.fuel := by rw [Disk.fuel, Disk.fuel, hs.shape.sectorCount]
      have hres := @resolveLinksLoop_cut _ _ hs.shape.sectorCount hcut v.disk.fuel [] [] f.head links (by simp)
        (by simp) hlinks
      rw [← hfuel] at hres
      exact hres
  obtain ⟨cs, hcs, hslots, -⟩ := hlisting.addChildrenFromLink hreadable v'.disk.fuel (by unfold Disk.fuel; omega)
  have hfirst : chain'[0]? = some dir.head.start := by
    obtain ⟨rest, hrest⟩ := hlisting.cons_of_direct hd
    rw [hrest]
    rfl
  have hhead : readData v'.disk dir.head.start = .ok (dir.blockAt chain' 0).encode := by
    rw [← hs.stored 0 _ hfirst]
    exact readData_eq (hlisting.mem_lt _ (List.mem_of_getElem? hfirst))
  refine ⟨chain', cs, ?_, hslots, hlisting, by rw [hs.length, Directory.blocksNeeded, max_comm]; rfl, fun x => ?_, hs.rest⟩
  · rw [Directory.openAt, LinkPointer.read, hhead, ok_bind, Directory.fromDirBlock, hcs, ok_bind,
      DirBlock.parent_decode_encode _ hparent]
    rfl
  · rw [hs.free]
    refine and_congr_left fun hx => or_congr_right ⟨List.mem_of_mem_drop, fun hmem => ?_⟩
    rw [← List.take_append_drop dir.blocksNeeded chain, List.mem_append] at hmem
    exact hmem.resolve_left fun hkept => hx (hs.kept.subset hkept)

/-- Nine symlinks in a directory of one block, and a partition with free sectors from 3 on. -/
def nine : Directory where
  name := Filename.fromStr []
  parent := 7
  children := (List.range 9).map fun i => .symLink (Filename.fromStr [0x61 + .ofNat i]) ⟨9 + i, 512⟩
  head := ⟨2, 512⟩

def roomy : Volume := ⟨⟨4099, by norm_num, fun _ => Sector.zero⟩, ⟨[.free], 3⟩⟩

theorem directory_round_trip_nine :
    ∃ v' chain' children', collectChain roomy.disk roomy.disk.fuel nine.head = .ok [2] ∧ nine.sync roomy = (.ok (), v') ∧
      Directory.openAt v'.disk nine.name nine.head = .ok { nine with children := children' } ∧
      children'.map slotOf = nine.children.map slotOf ∧
      DirChain v'.disk nine.head chain' (nine.children.map slotOf) ∧ chain'.length = 2 := by
  have hrun : nine.sync roomy = (.ok (), (nine.sync roomy).2) := run_of_result (by decide +kernel)
  have hchain : collectChain roomy.disk roomy.disk.fuel nine.head = .ok [2] := by decide +kernel
  have hchild : ∀ c ∈ nine.children, ∃ i < 9, c = .symLink (Filename.fromStr [0x61 + .ofNat i]) ⟨9 + i, 512⟩ := by
    intro c hc
    obtain ⟨i, hi, rfl⟩ := List.mem_map.1 hc
    exact ⟨i, List.mem_range.1 hi, rfl⟩
  have hfits : ∀ c ∈ nine.children, c.slot.link.Fits := by
    intro c hc
    obtain ⟨i, hi, rfl⟩ := hchild c hc
    exact ⟨by show 9 + i < 2 ^ 64; omega, show 512 < 2 ^ 64 by norm_num⟩
  have hused : ∀ x ∈ [2], ¬ roomy.Free x := by
    intro x hx hfree
    rw [List.mem_singleton.1 hx] at hfree
    exact absurd hfree.1 (by decide)
  have hnames : ∀ c ∈ nine.children, c.filename.isEmpty = false := by
    intro c hc
    obtain ⟨i, hi, rfl⟩ := hchild c hc
    interval_cases i <;> decide
  have hfiles : ∀ f, .file f ∈ nine.children → ∃ links, resolveLinks roomy.disk f.head = .ok links := by
    intro f hf
    obtain ⟨i, -, h⟩ := hchild _ hf
    cases h
  obtain ⟨chain', children', hopen, hslots, hlisting, hlength, -⟩ := @directory_round_trip nine roomy _ [2] rfl rfl
    (by decide) hfits hchain (by decide) (by decide) hused (by decide) hnames hfiles hrun
  exact ⟨_, chain', children', hchain, hrun, hopen, hslots, hlisting, hlength⟩

def lonely (x : ℕ) : Directory := ⟨Filename.fromStr [], 7, [.symLink (Filename.fromStr [0x61]) ⟨9, 512⟩], ⟨x, 512⟩⟩

/-- A disk of zeros whose bitmap begins at `start` and has no free bit. -/
def allUsed (start : ℕ) : Volume := ⟨⟨16, fits_16, fun _ => Sector.zero⟩, ⟨[.full], start⟩⟩

theorem not_free_allUsed (start x : ℕ) (hx : x < start + 4096) : ¬ (allUsed start).Free x := by
  rintro ⟨hge, hbit⟩
  change start ≤ x at hge
  have hused := BitmapAllocator.bit_block (b := (allUsed start).bitmap) (k := 0) rfl (show x - start < 4096 by omega)
  rw [Nat.zero_mul, Nat.zero_add] at hused
  rw [show (allUsed start).bitmap.dataStart = start from rfl, hused] at hbit
  cases hbit

/-- Sector numbers from `2 ^ 55` on are read with their low bits but not written, so the child is lost. -/
theorem far_directory_loses_child : ∃ v' dir', (lonely (2 ^ 55 + 5)).sync (allUsed (2 ^ 55)) = (.ok (), v') ∧
    collectChain (allUsed (2 ^ 55)).disk (allUsed (2 ^ 55)).disk.fuel (lonely (2 ^ 55 + 5)).head = .ok [2 ^ 55 + 5] ∧
    ¬ (allUsed (2 ^ 55)).Free (2 ^ 55 + 5) ∧
    Directory.openAt v'.disk (lonely (2 ^ 55 + 5)).name (lonely (2 ^ 55 + 5)).head = .ok dir' ∧ dir'.children = [] := by
  have hrun : (lonely (2 ^ 55 + 5)).sync (allUsed (2 ^ 55)) =
      (.ok (), ((lonely (2 ^ 55 + 5)).sync (allUsed (2 ^ 55))).2) := run_of_result (by decide +kernel)
  have hlost : (Directory.openAt ((lonely (2 ^ 55 + 5)).sync (allUsed (2 ^ 55))).2.disk (lonely (2 ^ 55 + 5)).name
      (lonely (2 ^ 55 + 5)).head).toOption.map (fun dir => dir.children.length) = some 0 := by decide +kernel
  cases hopen : Directory.openAt ((lonely (2 ^ 55 + 5)).sync (allUsed (2 ^ 55))).2.disk (lonely (2 ^ 55 + 5)).name
    (lonely (2 ^ 55 + 5)).head with
  | error e =>
    rw [hopen] at hlost
    cases hlost
  | ok dir' =>
    rw [hopen] at hlost
    exact ⟨_, dir', hrun, by decide +kernel, not_free_allUsed _ _ (by omega), hopen,
      List.length_eq_zero_iff.1 (Option.some.inj hlost)⟩

end MaramOS
