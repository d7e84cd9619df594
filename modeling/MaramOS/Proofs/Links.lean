import MaramOS.Lib.Walk
import MaramOS.Proofs.Extents

/-! Link chains on any disk. `resolve_links` with its stack and `trace` with its cursor
read the same link blocks in the same order and find the same extents, and what
`build_file_chain` stores is found again by both. -/

namespace MaramOS

open Prog Volume
open LinkBlock (decode)

section Traversals

variable {d : Disk} {ptr : LinkPointer} {k : ℕ} {stack : List LinkPointer}

/-- The 32nd pointer of the link block at `ptr`, if there is a link block to be read. -/
def nextLink (d : Disk) (ptr : LinkPointer) : Option LinkPointer :=
  if ptr.isValid = true ∧ ptr.isDirect = false then
    match readData d ptr.start with
    | .ok sec => some (decode sec).last
    | .error _ => none
  else none

theorem readData_error {x : ℕ} {e : Fault} (h : readData d x = .error e) : e = .fs .ioError := by
  unfold readData at h
  split at h
  · cases h
    rfl
  · cases h

theorem readData_key {x : ℕ} {sec : Sector} (h : readData d x = .ok sec) :
    x % 2 ^ 55 < d.sectorCount ∧ ∀ y, y % 2 ^ 55 = x % 2 ^ 55 → readData d y = .ok sec := by
  have hsame : ∀ y, y % 2 ^ 55 = x % 2 ^ 55 → readData d y = readData d x := fun y hy => by
    unfold readData Disk.readSectors
    rw [hy]
  refine ⟨?_, fun y hy => (hsame y hy).trans h⟩
  unfold readData Disk.readSectors at h
  by_contra hge
  rw [if_neg one_ne_zero, if_pos (by omega)] at h
  cases h

theorem nextLink_some {next : LinkPointer} (h : nextLink d ptr = some next) :
    ∃ sec, readData d ptr.start = .ok sec ∧ next = (decode sec).last := by
  unfold nextLink at h
  split_ifs at h
  cases hread : readData d ptr.start with
  | ok sec =>
    rw [hread] at h
    exact ⟨sec, rfl, (Option.some.inj h).symm⟩
  | error e =>
    rw [hread] at h
    cases h

theorem chain_short (h : Walk.Ends (nextLink d) ptr) : Walk.after (nextLink d) (d.sectorCount + 1) ptr = none := by
  refine Walk.ends_within (fun p => p.start % 2 ^ 55) (fun b c hbc => ?_) (fun b b' c c' hbc hbc' hkey => ?_) h
  · obtain ⟨sec, hread, -⟩ := nextLink_some hbc
    exact (readData_key hread).1
  · obtain ⟨sec, hread, rfl⟩ := nextLink_some hbc
    obtain ⟨sec', hread', rfl⟩ := nextLink_some hbc'
    rw [(readData_key hread).2 _ hkey.symm] at hread'
    cases hread'
    rfl

section

variable (hv : ptr.isValid = true) (hd : ptr.isDirect = false)
include hv hd

theorem traceLoop_block :
    traceLoop d (k + 1) ptr = readData d ptr.start >>= fun sec =>
      traceLoop d k (decode sec).last >>= fun r => .ok ((decode sec).direct ++ r.1, ptr :: r.2) := by
  rw [traceLoop, hv, hd]
  rfl

theorem resolveLink_block :
    resolveLink d ptr = readData d ptr.start >>= fun sec => .ok ((decode sec).direct ++
      if (decode sec).last.isValid then [(decode sec).last] else []) := by
  rw [resolveLink, hv, hd]
  rfl

theorem resolveLinksLoop_block :
    resolveLinksLoop d (k + 1) (stack ++ [ptr]) =
      resolveLink d ptr >>= fun links => resolveLinksLoop d k (stack ++ links) := by
  rw [resolveLinksLoop, List.getLast?_concat, List.dropLast_concat]
  simp only [hv, hd]
  rfl

end

theorem resolveLinksLoop_extents (hstack : ∀ l ∈ stack, l.isValid = true ∧ l.isDirect = true) :
    resolveLinksLoop d (k + 1) stack = .ok stack := by
  rw [resolveLinksLoop]
  cases htop : stack.getLast? with
  | none =>
    rw [List.getLast?_eq_none_iff] at htop
    rw [htop]
  | some l =>
    have hl := hstack l (List.mem_of_getLast? htop)
    simp [hl.1, hl.2]

/-- The cursor of `trace` against the stack of `resolve_links`, which holds extents below the
pointer it follows. -/
theorem traversals_agree (hstack : ∀ l ∈ stack, l.isValid = true ∧ l.isDirect = true)
    (h : Walk.after (nextLink d) k ptr = none) :
    (∃ ext ind, traceLoop d k ptr = .ok (ext, ind) ∧ resolveLinksLoop d (k + 1) (stack ++ [ptr]) = .ok (stack ++ ext)) ∨
    traceLoop d k ptr = .error (.fs .ioError) ∧ resolveLinksLoop d (k + 1) (stack ++ [ptr]) = .error (.fs .ioError) := by
  induction k generalizing ptr stack with
  | zero => cases h
  | succ k ih =>
    cases hv : ptr.isValid with
    | false => exact .inl ⟨[], [], by simp [traceLoop, hv], by simp [resolveLinksLoop, hv]⟩
    | true =>
    cases hd : ptr.isDirect with
    | true => exact .inl ⟨[ptr], [], by simp [traceLoop, hv, hd], by simp [resolveLinksLoop, hv, hd]⟩
    | false =>
    rw [traceLoop_block hv hd, resolveLinksLoop_block hv hd, resolveLink_block hv hd]
    cases hread : readData d ptr.start with
    | error e =>
      obtain rfl := readData_error hread
      refine .inr ⟨?_, ?_⟩
      · rw [error_bind]
      · rw [error_bind, error_bind]
    | ok sec =>
      have hnext : nextLink d ptr = some (decode sec).last := by
        rw [nextLink, if_pos ⟨hv, hd⟩, hread]
      rw [Walk.after_succ_of_some hnext] at h
      rw [ok_bind, ok_bind, ok_bind]
      generalize decode sec = block at h ⊢
      have hstack' : ∀ l ∈ stack ++ block.direct, l.isValid = true ∧ l.isDirect = true := by
        intro l hl
        rcases List.mem_append.1 hl with hl | hl
        · exact hstack l hl
        · exact LinkBlock.mem_direct hl
      by_cases hlast : block.last.isValid = true
      · rw [if_pos hlast, ← List.append_assoc]
        rcases ih hstack' h with ⟨ext, ind, htr, hres⟩ | ⟨htr, hres⟩
        · refine .inl ⟨block.direct ++ ext, ptr :: ind, ?_, ?_⟩
          · rw [htr, ok_bind]
          · rw [hres, List.append_assoc]
        · refine .inr ⟨?_, hres⟩
          rw [htr, error_bind]
      · -- the chain ends here, and what is left on the stack are extents
        rw [if_neg hlast, List.append_nil]
        cases k with
        | zero => cases h
        | succ k =>
          refine .inl ⟨block.direct, [ptr], ?_, resolveLinksLoop_extents hstack'⟩
          have hend : traceLoop d (k + 1) block.last = .ok ([], []) := by simp [traceLoop, hlast]
          rw [hend, ok_bind, List.append_nil]

theorem traceLoop_succ (h : Walk.after (nextLink d) k ptr = none) : traceLoop d (k + 1) ptr = traceLoop d k ptr := by
  induction k generalizing ptr with
  | zero => cases h
  | succ k ih =>
    cases hv : ptr.isValid with
    | false => simp [traceLoop, hv]
    | true =>
    cases hd : ptr.isDirect with
    | true => simp [traceLoop, hv, hd]
    | false =>
    rw [traceLoop_block hv hd, traceLoop_block hv hd]
    cases hread : readData d ptr.start with
    | error e => rw [error_bind, error_bind]
    | ok sec =>
      have hnext : nextLink d ptr = some (decode sec).last := by
        rw [nextLink, if_pos ⟨hv, hd⟩, hread]
      rw [Walk.after_succ_of_some hnext] at h
      rw [ok_bind, ok_bind, ih h]

/-- On a chain that ends, both traversals succeed and find the same extents in the same order, or
both fail because a link block cannot be read. -/
theorem link_traversals_agree {start : LinkPointer} (h : Walk.Ends (nextLink d) start) :
    (∃ ext ind, resolveLinks d start = .ok ext ∧ trace d start = .ok (ext, ind)) ∨
    resolveLinks d start = .error (.fs .ioError) ∧ trace d start = .error (.fs .ioError) := by
  have hshort := chain_short h
  have htrace : trace d start = traceLoop d (d.sectorCount + 1) start := traceLoop_succ hshort
  rcases @traversals_agree d start _ [] (fun l hl => absurd hl List.not_mem_nil) hshort with
    ⟨ext, ind, htr, hres⟩ | ⟨htr, hres⟩
  · exact .inl ⟨ext, ind, hres, htrace.trans htr⟩
  · exact .inr ⟨hres, htrace.trans htr⟩

/-- A link block with a hole, a stray indirect pointer and an extent in its first slots, and an extent in its last. -/
def oddBlock : LinkBlock := fun i =>
  if i.val = 1 then ⟨4, 0⟩ else if i.val = 2 then ⟨9, 1024⟩ else if i.val = 31 then ⟨12, 512⟩ else ⟨0, 0⟩

theorem fits_16 : 16 * 512 < 2 ^ 64 := by norm_num

def oddDisk : Disk := ⟨16, fits_16, fun _ => oddBlock.encode⟩

theorem oddDisk_ends : Walk.Ends (nextLink oddDisk) ⟨1, 0⟩ := by
  have hread : readData oddDisk 1 = .ok oddBlock.encode := readData_eq (by decide)
  have hdecode : decode oddBlock.encode = oddBlock := LinkBlock.decode_encode _ (by unfold LinkPointer.Fits; decide)
  have hnext : nextLink oddDisk ⟨1, 0⟩ = some ⟨12, 512⟩ := by
    rw [nextLink, if_pos (by decide), hread]
    exact congrArg some ((congrArg LinkBlock.last hdecode).trans rfl)
  exact ⟨2, by rw [Walk.after_succ_of_some hnext]; rfl⟩

theorem link_traversals_agree_odd :
    (∃ ext ind, resolveLinks oddDisk ⟨1, 0⟩ = .ok ext ∧ trace oddDisk ⟨1, 0⟩ = .ok (ext, ind)) ∨
    resolveLinks oddDisk ⟨1, 0⟩ = .error (.fs .ioError) ∧ trace oddDisk ⟨1, 0⟩ = .error (.fs .ioError) :=
  link_traversals_agree oddDisk_ends

end Traversals

section RoundTrip

/-- What `build_file_chain` stores is found again: both traversals give the coalesced extents, which
stand for the blocks in their order, and the link blocks are those newly taken from the allocator. -/
theorem chain_round_trip {blocks : List ℕ} {v v' : Volume} {head : LinkPointer} (hne : blocks ≠ [])
    (hblocks : ∀ x ∈ blocks, 0 < x ∧ x < 2 ^ 64) (hlen : blocks.length < 2 ^ 55)
    (hfree : ∀ x, v.Free x → 0 < x ∧ x < 2 ^ 55) (hrun : buildFileChain blocks v = (.ok head, v')) :
    fileBlocks (coalesce blocks) = blocks ∧ ((coalesce blocks).map (·.size)).sum = 512 * blocks.length ∧
    resolveLinks v'.disk head = .ok (coalesce blocks) ∧
    ∃ lbas : List ℕ, trace v'.disk head = .ok (coalesce blocks, lbas.map fun x => ⟨x, 0⟩) ∧ lbas.Nodup ∧
      (∀ x ∈ lbas, v.Free x) ∧ (∀ x, v'.Free x ↔ v.Free x ∧ x ∉ lbas) ∧
      ((coalesce blocks).length = 1 → lbas = []) := by
  obtain ⟨hcovers, hwhole⟩ := coalesce_any le_rfl blocks hblocks fun k hk _ => by omega
  have hextents : ∀ p ∈ coalesce blocks, (p.isValid = true ∧ p.isDirect = true) ∧ p.Fits := by
    intro p hp
    obtain ⟨hstart, k, hk, hsize, hend⟩ := hwhole p hp
    have hshort := length_blocks_le hp
    rw [hcovers, LinkPointer.blocks_of_size hsize, List.length_range'] at hshort
    exact ⟨(hwhole p hp).valid, by omega, by omega⟩
  obtain ⟨-, lbas, v₁, f, hcount, ht, hs, hlink⟩ := wp_ok (buildFileChain_any hfree hne hextents) hrun
  have hshort : lbas.length ≤ v'.disk.sectorCount := length_le_of_nodup ht.nodup fun x hx => (hlink.mem_ind x hx).2
  refine ⟨hcovers, by rw [sum_sizes _ hwhole, hcovers], hlink.resolveLinks hshort, lbas, hlink.trace hshort, ht.nodup,
    ht.wasFree, fun x => by rw [hs.free, ht.free], fun hone => ?_⟩
  rw [linkBlocks, if_pos hone] at hcount
  exact List.length_eq_zero_iff.1 hcount

/-- A disk of zeros with 4096 sectors on offer from `start` on. -/
def offered (start : ℕ) : Volume := ⟨⟨16, by norm_num, fun _ => Sector.zero⟩, ⟨[.free], start⟩⟩

theorem chain_round_trip_adjacent : ∃ head v', buildFileChain [5, 7, 8] (offered 3) = (.ok head, v') ∧
    fileBlocks (coalesce [5, 7, 8]) = [5, 7, 8] ∧ resolveLinks v'.disk head = .ok (coalesce [5, 7, 8]) := by
  have hrun : buildFileChain [5, 7, 8] (offered 3) = (.ok ⟨3, 0⟩, (buildFileChain [5, 7, 8] (offered 3)).2) :=
    run_of_result (by decide +kernel)
  have htrip := chain_round_trip (by decide) (by decide) (by decide) (fun x hx => ?_) hrun
  · exact ⟨_, _, hrun, htrip.1, htrip.2.2.1⟩
  · have hlt := BitmapAllocator.lt_of_bit_false hx.2
    have hge := hx.1
    simp only [offered, List.length_singleton] at hlt hge
    omega

/-- A link block in sector 0 is lost: its pointer is the invalid one. -/
theorem chain_lost_in_sector_zero : ∃ head v', buildFileChain [5, 7] (offered 0) = (.ok head, v') ∧
    resolveLinks v'.disk head = .ok [] ∧ coalesce [5, 7] = [⟨5, 512⟩, ⟨7, 512⟩] := by
  have hrun : buildFileChain [5, 7] (offered 0) = (.ok ⟨0, 0⟩, (buildFileChain [5, 7] (offered 0)).2) :=
    run_of_result (by decide +kernel)
  exact ⟨_, _, hrun, rfl, by decide⟩

end RoundTrip

end MaramOS
