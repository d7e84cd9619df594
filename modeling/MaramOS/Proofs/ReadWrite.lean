import MaramOS.Proofs.Nested
import MaramOS.Proofs.Reading

/-! Reading back what was written. After a `write` the disk holds the source in
the sectors of the file, a fresh mount finds it there, and so does a `read` on the
same value, unless the file lies in the root: there the cached record keeps the
extents that it had before. -/

namespace MaramOS

open List Prog Volume LemonFS
open DirectoryEntry (slot_name)
open PhysPage (zeroed)

section Addresses

variable {links : List LinkPointer} {chain : List ℕ} {d : Disk} {src : PhysPage}

theorem length_addrs (links : List LinkPointer) : (addrs links).length = (links.map (·.size)).sum := by
  simp [addrs, length_flatMap]

theorem length_flatMap_sectorAddrs (chain : List ℕ) : (chain.flatMap sectorAddrs).length = 512 * chain.length := by
  induction chain with
  | nil => rfl
  | cons x chain ih =>
    rw [flatMap_cons, length_append, length_sectorAddrs, ih, length_cons]
    ring

theorem blocks_of_addrs (haddrs : addrs links = chain.flatMap sectorAddrs) {x : ℕ} (hx : x ∈ fileBlocks links) :
    x ∈ chain := by
  obtain ⟨l, hl, hx⟩ := mem_flatMap.1 hx
  rw [LinkPointer.blocks, mem_range'_1] at hx
  have hmem : (x, 0) ∈ addrs links := by
    refine mem_flatMap.2 ⟨l, hl, mem_map.2 ⟨512 * (x - l.start), ?_, ?_⟩⟩
    · rw [mem_range]
      unfold divCeil at hx
      omega
    · simp only [Prod.mk.injEq]
      omega
  rw [haddrs] at hmem
  obtain ⟨y, hy, hmem⟩ := mem_flatMap.1 hmem
  obtain ⟨b, -, heq⟩ := mem_map.1 hmem
  exact (Prod.mk.inj heq).1 ▸ hy

theorem wsum_of_addrs (haddrs : addrs links = chain.flatMap sectorAddrs) (hnodup : chain.Nodup)
    (hlt : ∀ x ∈ chain, x < d.sectorCount) : wsum (links.map (·.size)) = 512 * chain.length := by
  have hlen := length_addrs links
  rw [haddrs, length_flatMap_sectorAddrs] at hlen
  have hfits := d.fits
  have hle := length_le_of_nodup hnodup hlt
  rw [wsum_eq_sum _ (by omega), ← hlen]

/-- The first bytes of a source, copied into a destination. -/
def filled (src : PhysPage) (size : ℕ) (dest : PhysPage) : PhysPage where
  count := dest.count
  bytes := fun i => if i < size then src.bytes i else dest.bytes i

theorem copied_stored {n size : ℕ} (haddrs : addrs links = chain.flatMap sectorAddrs) (hlen : chain.length = 8 * n)
    (hstored : ∀ j x, chain[j]? = some x → d.sectors x = fun b => src.bytes (512 * j + b.val))
    (hsize : size ≤ 4096 * n) (dest : PhysPage) : copied d size 0 links dest = filled src size dest := by
  refine PhysPage.ext_bytes rfl fun i => ?_
  simp only [copied, filled, Nat.zero_le, true_and, Nat.sub_zero]
  split_ifs with hi
  · have hj : i / 512 < chain.length := by omega
    rw [haddrs, getElem?_sectorAddrs, List.getElem?_eq_getElem hj, Option.map_some, Option.map_some, Option.getD_some,
      Disk.byteAt]
    simp only
    rw [hstored (i / 512) _ (List.getElem?_eq_getElem hj), byte_of_lt _ (Nat.mod_lt _ (by norm_num))]
    simp only
    rw [Nat.div_add_mod]
  · rfl

theorem read_stored {t : LemonFS} {path : Path} {dir : Directory} {f : File} (hroot : path.isRoot = false)
    (hpar : t.getParent path = .ok dir) (hget : dir.getChild path.name = some (.file f))
    (hdirect : ∀ l ∈ f.links, l.isDirect = true) (haddrs : addrs f.links = chain.flatMap sectorAddrs)
    (hlen : chain.length = 8 * src.count) (hnodup : chain.Nodup) (hlt : ∀ x ∈ chain, x < t.disk.sectorCount)
    (hstored : ∀ j x, chain[j]? = some x → t.disk.sectors x = fun b => src.bytes (512 * j + b.val)) (dest : PhysPage) :
    t.read path dest = .ok (min src.count dest.count * PAGE_SIZE,
      filled src (min src.count dest.count * PAGE_SIZE) dest) := by
  have hinside := inside_of_blocks hdirect fun x hx => hlt x (blocks_of_addrs haddrs hx)
  have hsum : min (wsum (f.links.map (·.size))) (dest.count * PAGE_SIZE) = min src.count dest.count * PAGE_SIZE := by
    rw [wsum_of_addrs haddrs hnodup hlt, hlen, ← Nat.mul_min_mul_right, PAGE_SIZE]
    congr 1
    ring
  rw [read_of_child hroot hpar hget hinside, hsum, copied_stored haddrs hlen hstored]
  rw [PAGE_SIZE]
  have := Nat.min_le_left src.count dest.count
  omega

end Addresses

/-- Mounting the disk of `s` afresh gives `t`, which shows the root that is on disk. -/
structure Remount (s : LemonFS) (chain : List ℕ) (es : List Slot) (owned : List ℕ) (t : LemonFS) : Prop where
  run : init s.disk = .ok t
  disk : t.disk = s.disk
  rootPtr : t.rootPtr = s.rootPtr
  holds : s.Holds chain es owned
  slots : t.root.map DirectoryEntry.slot = es
  parsed : ∀ c ∈ t.root, Parsed s.disk c

section Remount

variable {s t : LemonFS} {chain owned : List ℕ} {es : List Slot} {path : Path}

theorem LemonFS.Holds.remount (hm : s.Mounted) (hh : s.Holds chain es owned) : ∃ t, Remount s chain es owned t := by
  obtain ⟨hn, hn', -⟩ := nodup_append.1 hh.nodup
  obtain ⟨t, hrun, hdisk, hptr, hslots, hparsed⟩ := init_spec hm hh.listing (hh.owns.readable hn')
    (length_le_of_nodup hn hh.listing.mem_lt)
  exact ⟨t, hrun, hdisk, hptr, hh, hslots, hparsed⟩

theorem Remount.shown (h : Remount s chain es owned t) : Agree es (visible (t.root.map DirectoryEntry.slot)) := by
  rw [h.slots, h.holds.listing.visible]
  exact Agree.refl es

theorem Remount.walk (h : Remount s chain es owned t) {ptr : LinkPointer} {sub : List Slot}
    (hleads : Leads s.disk s.rootPtr es path.parent.components ptr sub) :
    ∃ dir, t.getParent path = .ok dir ∧ Agree sub (visible (dir.children.map DirectoryEntry.slot)) ∧
      ∀ c ∈ dir.children, Parsed s.disk c := by
  have hnodup := (nodup_append.1 h.holds.nodup).2.1
  obtain ⟨dir, hwalk, -, hshow, hlast⟩ := hleads.walk h.holds.owns hnodup (fun _ hc => Path.component_ne_nil hc)
    (show t.rootDir.head = _ from h.rootPtr) h.shown
  have hpar : t.getParent path = .ok dir := by rwa [getParent, h.disk]
  refine ⟨dir, hpar, hshow, ?_⟩
  cases hcomps : path.parent.components with
  | nil =>
    rw [hcomps] at hwalk
    cases hwalk
    exact h.parsed
  | cons c cs => exact (hlast (by simp [hcomps])).2

theorem Remount.file (h : Remount s chain es owned t) {ptr : LinkPointer} {sub : List Slot} {e : Slot}
    (hleads : Leads s.disk s.rootPtr es path.parent.components ptr sub) (hl : lookup sub path.name = some e)
    (hk : e.kind = .file) :
    ∃ dir f, t.getParent path = .ok dir ∧ dir.getChild path.name = some (.file f) ∧ f.head = e.link ∧
      Parsed s.disk (.file f) := by
  obtain ⟨dir, hpar, hshow, hparsed⟩ := h.walk hleads
  obtain ⟨child, hget, hchild⟩ := getChild_of_lookup hshow path.name_ne_nil hl
  obtain ⟨f, rfl, hhead⟩ := hchild.file hk
  exact ⟨dir, f, hpar, hget, hhead, hparsed _ (List.mem_of_find?_eq_some hget)⟩

theorem links_of_parsed {d : Disk} {f : File} {ind : List ℕ} {ext : List LinkPointer} (h : Parsed d (.file f))
    (hlink : LinkChain d f.head ind ext) (hlen : ind.length ≤ d.sectorCount) : f.links = ext := by
  have hresolve := h.1
  rw [hlink.resolveLinks hlen] at hresolve
  exact (Except.ok.inj hresolve).symm

end Remount

theorem LinkPointer.Whole.isDirect {n : ℕ} {p : LinkPointer} (h : p.Whole n) : p.isDirect = true := by
  obtain ⟨-, k, hk, hsize, -⟩ := h
  rw [LinkPointer.isDirect, bne_iff_ne]
  omega

section Written

variable {s s' : LemonFS} {path : Path} {src : PhysPage} {dir : Directory}
  {chain₀ owned₀ before chain inner after : List ℕ} {es slots : List Slot} {l₁ l₂ : List DirectoryEntry} {f f' : File}
  {i₁ ind i₂ lbas : List ℕ} {ext : List LinkPointer} {v₁ : Volume} {chain' : List ℕ} {g : File}
  (h : At s dir chain₀ es owned₀ before chain slots inner after)
  (hw : Written s dir chain inner path src l₁ f l₂ i₁ ind ext i₂ f' lbas v₁ chain' s')

include hw

theorem LemonFS.Written.lookup :
    lookup (visible ((l₁ ++ .file f' :: l₂).map DirectoryEntry.slot)) path.name = some (DirectoryEntry.file f').slot := by
  have hname : (DirectoryEntry.file f').slot.name.toStr = path.name := by
    rw [slot_name, ← hw.child.named, hw.rewritten.file]
    rfl
  have hnone : (l₁.map DirectoryEntry.slot).find? (fun e => e.name.toStr == path.name) = none := by
    rw [List.find?_eq_none]
    intro e he heq
    obtain ⟨x, hx, rfl⟩ := mem_map.1 he
    rw [slot_name] at heq
    exact hw.child.first x hx (by simpa using heq)
  rw [lookup_visible path.name_ne_nil, MaramOS.lookup, map_append, List.find?_append, hnone, Option.none_or,
    map_cons, List.find?_cons_of_pos]
  rw [hname]
  simp

theorem LemonFS.Written.addrs_new :
    addrs (coalesce (newChain s.bitmap ind ext (8 * src.count))) =
      (newChain s.bitmap ind ext (8 * src.count)).flatMap sectorAddrs := by
  rw [addrs_whole _ hw.rewritten.whole, hw.rewritten.covers]

theorem LemonFS.Written.cached (hroot : path.parent.isRoot = true) : s'.rootDir.getChild path.name = some (.file f') := by
  have hnamed : f'.name.toStr = path.name := by
    have := hw.child.named
    rw [hw.rewritten.file]
    exact this
  rw [Directory.getChild, rootDir, hw.root, if_pos hroot]
  exact find?_split hnamed hw.child.first

theorem LemonFS.Written.reopened (hloc : Located s path dir chain₀ es owned₀ before chain slots inner after)
    (hplain : (Call.write path src).Plain s) (hroot : path.parent.isRoot = false) :
    ∃ dir' g, s'.getParent path = .ok dir' ∧ dir'.getChild path.name = some (.file g) ∧ g.head = f'.head ∧
      Parsed s'.disk (.file g) := by
  obtain ⟨dir', hpar, -, hshow, hparsed⟩ := @Located.reopened _ _ _ _ _ _ _ _ _ _ _ _ _ _ _ (.write path src) hloc
    hplain (hw.update hloc.at_dir hloc.head_iff)
  obtain ⟨child, hget, hchild⟩ := getChild_of_lookup hshow path.name_ne_nil hw.lookup
  obtain ⟨g, rfl, hhead⟩ := hchild.file rfl
  exact ⟨dir', g, hpar, hget, hhead, hparsed hroot _ (List.mem_of_find?_eq_some hget)⟩

include h

theorem LemonFS.Written.same_new {x : ℕ} (hx : x ∈ lbas ++ newChain s.bitmap ind ext (8 * src.count)) :
    s'.disk.sectors x = v₁.disk.sectors x := by
  refine hw.synced.rest x fun hmem => ?_
  rcases hw.synced.members x hmem with hin | hfree
  · rcases hw.rewritten.members x hx with hold | hfree
    · exact h.chain_not_inner hin (hw.child.own_subset hold)
    · exact h.used (mem_append_left _ hin) hfree
  · exact ((hw.rewritten.free x).1 hfree).2 hx

theorem LemonFS.Written.link_after :
    LinkChain s'.disk f'.head lbas (coalesce (newChain s.bitmap ind ext (8 * src.count))) :=
  hw.rewritten.link.frame hw.synced.shape.sectorCount fun _ hx => hw.same_new h (mem_append_left _ hx)

theorem LemonFS.Written.newChain_lt :
    ∀ x ∈ lbas ++ newChain s.bitmap ind ext (8 * src.count), x < s'.disk.sectorCount := by
  intro x hx
  have harea := h.inv.mounted.area
  have hinside := harea.inside
  rw [hw.synced.shape.sectorCount, hw.rewritten.touches.shape.sectorCount]
  rcases hw.rewritten.members x hx with hold | hfree
  · have := h.inner_placed x (hw.child.own_subset hold)
    omega
  · have := harea.free_lt x hfree
    omega

theorem LemonFS.Written.read {t : LemonFS} (hdisk : t.disk = s'.disk) {dir' : Directory}
    (hpar : t.getParent path = .ok dir') (hget : dir'.getChild path.name = some (.file g))
    (hdirect : ∀ l ∈ g.links, l.isDirect = true)
    (haddrs : addrs g.links = (newChain s.bitmap ind ext (8 * src.count)).flatMap sectorAddrs) (dest : PhysPage) :
    t.read path dest =
      .ok (min src.count dest.count * PAGE_SIZE, filled src (min src.count dest.count * PAGE_SIZE) dest) := by
  have hr := hw.rewritten
  refine read_stored hw.notRoot hpar hget hdirect haddrs hr.length (nodup_append.1 hr.nodup).2.1 ?_ ?_ dest
  · rw [hdisk]
    exact fun x hx => hw.newChain_lt h x (mem_append_right _ hx)
  · rw [hdisk]
    intro j x hx
    rw [hw.same_new h (mem_append_right _ (List.mem_of_getElem? hx))]
    exact hr.stored j x hx

theorem LemonFS.Written.current (hhead : g.head = f'.head) (hparsed : Parsed s'.disk (.file g)) :
    (∀ l ∈ g.links, l.isDirect = true) ∧
      addrs g.links = (newChain s.bitmap ind ext (8 * src.count)).flatMap sectorAddrs := by
  have hlink := hw.link_after h
  rw [← hhead] at hlink
  have hlinks := links_of_parsed hparsed hlink
    (length_le_of_nodup (nodup_append.1 hw.rewritten.nodup).1 fun x hx => (hlink.mem_ind x hx).2)
  rw [hlinks]
  exact ⟨fun l hl => (hw.rewritten.whole l hl).isDirect, hw.addrs_new⟩

end Written

variable {s : LemonFS}

theorem LemonFS.Consistent.noSymlink (h : s.Consistent) : Listings NoSymlink s := by
  obtain ⟨chain, es, owned, hh, -, hfree⟩ := h.tree
  intro chain' es' sub hlisting hbelow e he
  obtain ⟨-, rfl⟩ := hlisting.unique hh.listing
  exact hfree e (hbelow.slotIn he)

/-- Whatever the file was before, after a successful `write` a fresh mount reads the source. -/
theorem write_durable (s s' : LemonFS) (path : Path) (src : PhysPage) (hs : s.Consistent)
    (hrun : write path src s = (.ok (), s')) :
    ∃ t, init s'.disk = .ok t ∧ ∀ dest, src.count ≤ dest.count →
      t.read path dest = .ok (src.count * 4096, filled src (src.count * 4096) dest) := by
  have hi := hs.inv
  have hplain : (Call.write path src).Plain s := plain_of_noSymlink hi hs.noSymlink
  have hcall : (Call.write path src).run s = (.ok (), s') := hrun
  cases outcome_of_run hi hplain.live hcall with
  | @written _ _ dir chain₀ owned₀ before chain inner after chain' es slots l₁ l₂ f f' i₁ ind i₂ lbas ext v₁ _ hloc hw =>
    have hat := hloc.at_dir
    have hu := hw.update hat hloc.head_iff
    obtain ⟨chain₁, owned₁, hh, -⟩ := hloc.new_tree hu
    obtain ⟨t, ht⟩ := hh.remount (hu.inv hat).mounted
    have hleads := @Located.leads_after _ _ _ _ _ _ _ _ _ _ _ _ _ _ _ (.write path src) hloc hplain hu
    obtain ⟨dir', g, hpar, hget, hhead, hparsed⟩ := ht.file hleads hw.lookup rfl
    obtain ⟨hdirect, haddrs⟩ := hw.current hat hhead hparsed
    refine ⟨t, ht.run, fun dest hle => ?_⟩
    rw [hw.read hat ht.disk hpar hget hdirect haddrs, Nat.min_eq_left hle]
    rfl

/-- One page written to a new file. -/
theorem write_durable_page :
    ∃ s s' t, s.Consistent ∧ write ⟨[0x2F, 0x61]⟩ (PhysPage.zeroed 1) s = (.ok (), s') ∧ init s'.disk = .ok t ∧
      t.read ⟨[0x2F, 0x61]⟩ (PhysPage.zeroed 1) =
        .ok (1 * 4096, filled (PhysPage.zeroed 1) (1 * 4096) (PhysPage.zeroed 1)) := by
  obtain ⟨s, s', hs, hrun⟩ := exists_written
  obtain ⟨t, hinit, hread⟩ := write_durable s s' ⟨[0x2F, 0x61]⟩ (zeroed 1) hs.consistent hrun
  exact ⟨s, s', t, hs.consistent, hrun, hinit, hread (zeroed 1) le_rfl⟩

/-- The cached record of a file in the root already has the extents that a `write` of `n` pages
gives it. -/
def LemonFS.CacheCurrent (s : LemonFS) (path : Path) (n : ℕ) : Prop :=
  ∀ f ind ext, s.rootDir.getChild path.name = some (.file f) → LinkChain s.disk f.head ind ext →
    (∀ l ∈ f.links, l.isDirect = true) ∧ addrs f.links = (newChain s.bitmap ind ext (8 * n)).flatMap sectorAddrs

/-- After a successful `write` the size is right, and `read` on the same value gives the source if the
file is not in the root or its cached extents are current. -/
theorem read_after_write (s s' : LemonFS) (path : Path) (src : PhysPage) (hs : s.Consistent)
    (hrun : write path src s = (.ok (), s')) :
    s'.fileSize path = .ok (src.count * 4096) ∧
    (path.parent.isRoot = false ∨ s.CacheCurrent path src.count → ∀ dest, s'.read path dest =
      .ok (min src.count dest.count * 4096, filled src (min src.count dest.count * 4096) dest)) := by
  have hi := hs.inv
  have hplain : (Call.write path src).Plain s := plain_of_noSymlink hi hs.noSymlink
  have hcall : (Call.write path src).run s = (.ok (), s') := hrun
  cases outcome_of_run hi hplain.live hcall with
  | @written _ _ dir chain₀ owned₀ before chain inner after chain' es slots l₁ l₂ f f' i₁ ind i₂ lbas ext v₁ _ hloc hw =>
    have hat := hloc.at_dir
    have hsize : f'.size = 4096 * src.count := by rw [hw.rewritten.file]
    cases hroot : path.parent.isRoot with
    | true =>
      -- the cached record keeps its extents
      have hlinks : f'.links = f.links := by rw [hw.rewritten.file]
      have hget := hw.cached hroot
      refine ⟨?_, fun hcond dest => ?_⟩
      · rw [fileSize_of_child hw.notRoot (getParent_root hroot) hget, hsize, Nat.mul_comm]
      · have hold : s.rootDir.getChild path.name = some (.file f) := by
          rw [← hloc.root_eq (hloc.head_iff.1 hroot)]
          exact hw.child.getChild
        obtain ⟨hdirect, haddrs⟩ := hcond.resolve_left (by simp) f ind ext hold hw.link
        rw [← hlinks] at hdirect haddrs
        exact hw.read hat rfl (getParent_root hroot) hget hdirect haddrs dest
    | false =>
      obtain ⟨dir', g, hpar, hget, hhead, hparsed⟩ := hw.reopened hloc hplain hroot
      obtain ⟨hdirect, haddrs⟩ := hw.current hat hhead hparsed
      refine ⟨?_, fun _ dest => hw.read hat rfl hpar hget hdirect haddrs dest⟩
      have hgsize : g.size = 4096 * src.count := by
        rw [hparsed.2, wsum_of_addrs haddrs (List.nodup_append.1 hw.rewritten.nodup).2.1
          (fun x hx => hw.newChain_lt hat x (List.mem_append_right _ hx)), hw.rewritten.length]
        ring
      rw [fileSize_of_child hw.notRoot hpar hget, hgsize, Nat.mul_comm]

theorem NestedFile.write (h : NestedFile s) {src : PhysPage} (hpos : 0 < src.count) (hle : src.count ≤ 500) :
    ∃ s', LemonFS.write ⟨[0x2F, 0x64, 0x2F, 0x74]⟩ src s = (.ok (), s') ∧ s'.root = s.root ∧
      s'.disk.sectorCount = 4101 ∧ ∀ dest, s'.read ⟨[0x2F, 0x64, 0x2F, 0x74]⟩ dest =
        .ok (min src.count dest.count * 4096, filled src (min src.count dest.count * 4096) dest) := by
  have hi := h.small.inv
  have hfill := h.small.filled
  have hplain : (Call.write ⟨[0x2F, 0x64, 0x2F, 0x74]⟩ src).Plain s :=
    @HasFile.plain s _ (.write ⟨[0x2F, 0x64, 0x2F, 0x74]⟩ src) h.file hi
  obtain ⟨dir, f, hpar, hget, hhead, -⟩ := h.file.open hi (by decide)
  obtain ⟨chain₀, es, owned₀, before, chain, slots, inner, after, hloc⟩ := hi.located hplain.live hpar
  have hlink : LinkChain s.disk f.head [] [⟨4, 1⟩] := by
    rw [hhead]
    exact .extent rfl rfl
  have hroom : HasRoom s.bitmap [] [⟨4, 1⟩] (8 * src.count) := (hfill.room (n := 8 * src.count) (by omega) (by omega)).2.2
  obtain ⟨s', l₁, l₂, i₁, i₂, f', lbas, v₁, chain', hrun, hw⟩ := write_ok hloc.at_dir hpar rfl hpos hget hlink hroom
  obtain ⟨dir', g, hpar', hget', hhead', hparsed⟩ := hw.reopened hloc hplain (by decide)
  obtain ⟨hdirect, haddrs⟩ := hw.current hloc.at_dir hhead' hparsed
  refine ⟨s', hrun, ?_, ?_, hw.read hloc.at_dir rfl hpar' hget' hdirect haddrs⟩
  · rw [hw.root]
    exact if_neg (by decide)
  · rw [hw.synced.shape.sectorCount, hw.rewritten.touches.shape.sectorCount, hfill.sectorCount]

/-- One page that counts its bytes, written to a file below the root and read into two pages. -/
theorem read_after_write_below_root :
    ∃ s s' page, s.Consistent ∧ Path.isRoot (Path.parent ⟨[0x2F, 0x64, 0x2F, 0x74]⟩) = false ∧
      write ⟨[0x2F, 0x64, 0x2F, 0x74]⟩ ⟨1, fun i => .ofNat i⟩ s = (.ok (), s') ∧
      s'.fileSize ⟨[0x2F, 0x64, 0x2F, 0x74]⟩ = .ok 4096 ∧
      s'.read ⟨[0x2F, 0x64, 0x2F, 0x74]⟩ (PhysPage.zeroed 2) = .ok (4096, page) ∧
      ∀ i, page.bytes i = if i < 4096 then .ofNat i else 0 := by
  obtain ⟨s, hs, hfile⟩ := exists_nested
  obtain ⟨s', hrun, -⟩ := @NestedFile.write s hfile ⟨1, fun i => .ofNat i⟩ Nat.one_pos (show 1 ≤ 500 by norm_num)
  obtain ⟨hsize, hread⟩ := read_after_write s s' ⟨[0x2F, 0x64, 0x2F, 0x74]⟩ ⟨1, fun i => .ofNat i⟩ hs hrun
  have hmin : min 1 (zeroed 2).count * 4096 = 4096 := by decide
  have hpage := hread (.inl (by decide)) (zeroed 2)
  simp only [hmin] at hpage
  exact ⟨s, s', _, hs, by decide, hrun, hsize, hpage, fun i => rfl⟩

/-- The cached record of a new file in the root has no extents, so what was just written to it reads
as nothing. -/
theorem root_file_reads_nothing :
    ∃ s₀ s s', Fresh (disk4101 fun _ => Sector.zero) s₀ ∧ create ⟨[0x2F, 0x61]⟩ 0 s₀ = (.ok (), s) ∧
      s.Consistent ∧ write ⟨[0x2F, 0x61]⟩ (PhysPage.zeroed 1) s = (.ok (), s') ∧
      s'.read ⟨[0x2F, 0x61]⟩ (PhysPage.zeroed 1) = .ok (0, PhysPage.zeroed 1) := by
  obtain ⟨s₀, h₀⟩ := exists_blank
  obtain ⟨s, hcreate, hs, -⟩ := create_file h₀
  obtain ⟨s', hrun, hroot⟩ := @OneFile.write s hs (zeroed 1) Nat.one_pos (show 1 ≤ 512 by norm_num)
  refine ⟨s₀, s, s', h₀, hcreate, hs.consistent, hrun, ?_⟩
  have hget : s'.rootDir.getChild (Path.name ⟨[0x2F, 0x61]⟩) =
      some (.file ⟨Filename.fromStr [0x61], 4096 * 1, ⟨3, 4096 * 1⟩, []⟩) := getChild_rootDir hroot rfl
  have hinside : Inside s'.disk [] := fun l hl => absurd hl List.not_mem_nil
  have hsum : wsum ([] : List ℕ) = 0 := rfl
  rw [read_of_child rfl (getParent_root rfl) hget hinside, List.map_nil, hsum, Nat.zero_min]
  simp only [copied, Nat.not_lt_zero, and_false, if_false]

end MaramOS
