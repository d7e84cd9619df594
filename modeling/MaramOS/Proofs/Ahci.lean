import MaramOS.Spec.Ahci
import Mathlib.Data.Nat.Bitwise

/-! A transfer is split twice: into commands by the sectors and bytes a command can carry, and
each command into descriptors. The commands that are issued cover the requested blocks in
order, and the descriptors of each cover its part of the buffer. -/

namespace MaramOS

open List Prog

section Descriptors

/-- The number of blocks the device takes from the frame. -/
def FISRegisterH2D.lba (fis : FISRegisterH2D) : ℕ :=
  fis.lba0.toNat + fis.lba1.toNat * 2 ^ 8 + fis.lba2.toNat * 2 ^ 16 + fis.lba3.toNat * 2 ^ 24 + fis.lba4.toNat * 2 ^ 32 +
    fis.lba5.toNat * 2 ^ 40

theorem FISRegisterH2D.lba_new (portMult command icc control : UInt8) (feature lba count : ℕ) :
    (FISRegisterH2D.new portMult command feature lba count icc control).lba = lba % 2 ^ 48 := by
  simp only [FISRegisterH2D.lba, FISRegisterH2D.new, UInt8.toNat_ofNat', Nat.shiftRight_eq_div_pow]
  omega

def PhysRegionDescTableEntry.byteCount (p : PhysRegionDescTableEntry) : ℕ := p.dbc % 2 ^ 22 + 1

def PhysRegionDescTableEntry.bytes (p : PhysRegionDescTableEntry) : List ℕ := List.range' p.dataBaseAddr p.byteCount

theorem setDescriptorByteCount_of_le {old n : ℕ} (hpos : 0 < n) (hn : n ≤ 2 ^ 22) :
    ∃ dbc, setDescriptorByteCount old n = some dbc ∧ dbc % 2 ^ 22 + 1 = n := by
  refine ⟨_, if_pos ⟨hpos, hn⟩, ?_⟩
  have hmask : 0xFFC00000 % 2 ^ 22 = 0 := rfl
  rw [Nat.or_mod_two_pow, Nat.and_mod_two_pow, hmask, Nat.and_zero, Nat.zero_or, Nat.mod_eq_of_lt (by omega)]
  omega

/-- Descriptors number `i` and on for `n` bytes from `data`. -/
structure Scattered (slot i data n : ℕ) (prds : List PhysRegionDescTableEntry) : Prop where
  bytes : prds.flatMap PhysRegionDescTableEntry.bytes = List.range' data n
  each : ∀ p ∈ prds, 1 ≤ p.byteCount ∧ p.byteCount ≤ PRD_MAX_BYTES ∧ (2 ∣ n → 2 ∣ p.byteCount)
  offsets : prds.map PhysRegionDescTableEntry.offset =
    (List.range' i prds.length).map fun j => slot * PRD_STRIDE + 0x80 + j * 16

theorem setPrd_spec (slot i : ℕ) {st : PrdState} (hpos : 0 < st.rem)
    (hfits : st.physOffset + st.rem < 2 ^ 64) :
    ∃ st' p, setPrd slot i st = some st' ∧ st'.rem = st.rem - min st.rem PRD_MAX_BYTES ∧
      st'.physOffset = st.physOffset + min st.rem PRD_MAX_BYTES ∧ st'.prds = st.prds ++ [p] ∧
      p.offset = slot * PRD_STRIDE + 0x80 + i * 16 ∧ p.dataBaseAddr = st.physOffset ∧
      p.byteCount = min st.rem PRD_MAX_BYTES := by
  have hmax : min st.rem PRD_MAX_BYTES ≤ 2 ^ 22 := (min_le_right _ _).trans (by norm_num [PRD_MAX_BYTES])
  have hchunk : 0 < min st.rem PRD_MAX_BYTES := Nat.lt_min.2 ⟨hpos, by norm_num [PRD_MAX_BYTES]⟩
  have hle := min_le_left st.rem PRD_MAX_BYTES
  obtain ⟨dbc, hdbc, hcount⟩ := @setDescriptorByteCount_of_le (st.dbc (slot * PRD_STRIDE + 0x80 + i * 16)) _ hchunk hmax
  refine ⟨_, ⟨_, _, dbc⟩, by rw [setPrd, hdbc, Option.map_some], ?_, ?_, rfl, rfl, rfl, hcount⟩
  · exact if_pos hle
  · exact Nat.mod_eq_of_lt (by omega)

theorem prdLoop_spec (slot : ℕ) {n i : ℕ} {st : PrdState} (hn : n = divCeil st.rem PRD_MAX_BYTES)
    (hfits : st.physOffset + st.rem < 2 ^ 64) :
    ∃ st' prds, prdLoop slot n i st = some st' ∧ st'.prds = st.prds ++ prds ∧ prds.length = n ∧
      Scattered slot i st.physOffset st.rem prds := by
  induction n generalizing i st with
  | zero =>
    have hzero : st.rem = 0 := by
      rw [divCeil, PRD_MAX_BYTES] at hn
      omega
    refine ⟨st, [], rfl, (append_nil _).symm, rfl, ?_, fun p hp => absurd hp not_mem_nil, rfl⟩
    rw [hzero]
    rfl
  | succ n ih =>
    have hpos : 0 < st.rem := by
      rw [divCeil, PRD_MAX_BYTES] at hn
      omega
    obtain ⟨st1, p, hset, hrem1, hphys1, hprds1, hoffset, haddr, hcount⟩ := setPrd_spec slot i hpos hfits
    have hmin : min st.rem PRD_MAX_BYTES = st.rem ∨ min st.rem PRD_MAX_BYTES = 2 ^ 21 := min_choice _ _
    have hle := min_le_left st.rem PRD_MAX_BYTES
    have hnext : n = divCeil st1.rem PRD_MAX_BYTES := by
      rw [divCeil, PRD_MAX_BYTES] at hn
      rw [hrem1, divCeil, PRD_MAX_BYTES]
      omega
    obtain ⟨st', prds, hloop, hprds, hlength, hscattered⟩ := @ih (i + 1) st1 hnext (by omega)
    refine ⟨st', p :: prds, ?_, ?_, by rw [length_cons, hlength], ?_, ?_, ?_⟩
    · rw [prdLoop, hset, Option.bind_some, hloop]
    · rw [hprds, hprds1, append_assoc]
      rfl
    · rw [flatMap_cons, hscattered.bytes, PhysRegionDescTableEntry.bytes, haddr, hcount, hphys1, hrem1,
        range'_append_1, Nat.add_sub_cancel' hle]
    · intro q hq
      rcases mem_cons.1 hq with rfl | hq
      · rw [hcount]
        exact ⟨Nat.lt_min.2 ⟨hpos, by norm_num [PRD_MAX_BYTES]⟩, min_le_right _ _, fun heven => by omega⟩
      · obtain ⟨hone, hmax, heven⟩ := hscattered.each q hq
        exact ⟨hone, hmax, fun h => heven (by omega)⟩
    · rw [map_cons, hscattered.offsets, hoffset, length_cons, range'_succ, map_cons]

end Descriptors

section Commands

variable {drive : AHCIDrive} {s : AhciState}

/-- The command transfers `n` bytes at `data`, through descriptors in the table area of its slot. -/
structure Command.Carries (drive : AHCIDrive) (isWrite : Bool) (data n : ℕ) (c : Command) : Prop where
  direction : c.isWrite = isWrite
  slot : c.slot ≤ 31
  table : c.cmdTableBaseAddr = wadd drive.commandTables (c.slot * PRD_STRIDE)
  length : c.prdTableLen = c.prds.length ∧ 1 ≤ c.prds.length ∧ c.prds.length ≤ 16
  scattered : Scattered c.slot 0 data n c.prds
  inside : ∀ p ∈ c.prds, c.slot * PRD_STRIDE + 0x80 ≤ p.offset ∧ p.offset + 16 ≤ (c.slot + 1) * PRD_STRIDE
  area : (c.slot + 1) * PRD_STRIDE ≤ 3 * PAGE_SIZE

theorem findSlot_le {slots ncs slot : ℕ} (h : findSlot slots ncs = some slot) : slot ≤ ncs :=
  Nat.le_of_lt_succ (mem_range.1 (List.mem_of_find?_eq_some h))

theorem Scattered.inside {slot data n : ℕ} {prds : List PhysRegionDescTableEntry} (h : Scattered slot 0 data n prds)
    (hlength : prds.length ≤ 16) {p : PhysRegionDescTableEntry} (hp : p ∈ prds) :
    slot * PRD_STRIDE + 0x80 ≤ p.offset ∧ p.offset + 16 ≤ (slot + 1) * PRD_STRIDE := by
  have hmem : p.offset ∈ prds.map PhysRegionDescTableEntry.offset := mem_map_of_mem hp
  rw [h.offsets] at hmem
  obtain ⟨j, hj, hoffset⟩ := mem_map.1 hmem
  have hj := (mem_range'_1.1 hj).2
  rw [← hoffset, Nat.add_mul, PRD_STRIDE, PRDS_PER_TABLE]
  omega

/-- A command cannot be issued after the ones before: the port is not mapped, all slots are busy, or the port does not
get ready. -/
def AHCIDrive.Blocked (drive : AHCIDrive) (issued : List Command) : Prop :=
  drive.mapped = false ∨ findSlot (drive.slots issued) drive.ncs = none ∨ drive.ready issued = false

theorem sendCommand_wp (drive : AHCIDrive) (fis : FISRegisterH2D) {data n : ℕ} (isWrite : Bool) (s : AhciState)
    (hpos : 0 < n)
    (hn : n ≤ 2 ^ 25) (hdata : data + n < 2 ^ 64) :
    wp (drive.sendCommand fis data n isWrite) s
      (fun _ s' => ∃ c, s'.issued = s.issued ++ [c] ∧ c.fis = fis ∧ c.Carries drive isWrite data n)
      fun e s' => ∃ err, e = .storage err ∧ (s'.issued = s.issued ∧ drive.Blocked s.issued ∨
        ∃ c, s'.issued = s.issued ++ [c] ∧ c.fis = fis ∧ c.Carries drive isWrite data n ∧
          drive.outcome s'.issued = some err) := by
  unfold wp AHCIDrive.sendCommand
  by_cases hmapped : drive.mapped = false
  · rw [if_pos hmapped]
    exact ⟨_, rfl, .inl ⟨rfl, .inl hmapped⟩⟩
  rw [if_neg hmapped]
  cases hslot : findSlot (drive.slots s.issued) drive.ncs with
  | none => exact ⟨_, rfl, .inl ⟨rfl, .inr (.inl hslot)⟩⟩
  | some slot =>
    have hle : slot ≤ 31 := (findSlot_le hslot).trans (Nat.le_of_lt_succ drive.ncs.isLt)
    have harea : (slot + 1) * PRD_STRIDE ≤ 3 * PAGE_SIZE := by
      rw [PRD_STRIDE, PRDS_PER_TABLE, PAGE_SIZE]
      omega
    have htable : ¬3 * PAGE_SIZE < slot * PRD_STRIDE + 0x80 := by
      rw [PRD_STRIDE, PRDS_PER_TABLE, PAGE_SIZE]
      omega
    obtain ⟨st, prds, hloop, hprds, hlength, hscattered⟩ :=
      @prdLoop_spec slot _ 0 ⟨n, data, s.dbc, []⟩ rfl hdata
    have hlength : prds.length = divCeil n PRD_MAX_BYTES := hlength
    have hfew : 1 ≤ divCeil n PRD_MAX_BYTES ∧ divCeil n PRD_MAX_BYTES ≤ 16 := by
      rw [divCeil, PRD_MAX_BYTES]
      omega
    have hcarries : Command.Carries drive isWrite data n ⟨slot, fis, isWrite, wadd drive.commandTables (slot * PRD_STRIDE),
        divCeil n PRD_MAX_BYTES % 2 ^ 16, st.prds⟩ := by
      rw [hprds, nil_append]
      refine ⟨rfl, hle, rfl, ⟨?_, hlength ▸ hfew.1, hlength ▸ hfew.2⟩, hscattered, fun p hp => ?_, harea⟩
      · simp only [hlength]
        exact Nat.mod_eq_of_lt (by omega)
      · exact hscattered.inside (by omega) hp
    have hheader : ¬PAGE_SIZE < 32 * slot + 32 := by
      rw [PAGE_SIZE]
      omega
    simp only [if_neg htable, hloop, hheader, false_or]
    by_cases hready : drive.ready s.issued = false
    · simp only [if_pos hready]
      exact ⟨_, rfl, .inl ⟨trivial, .inr (.inr hready)⟩⟩
    simp only [if_neg hready]
    cases houtcome : drive.outcome (s.issued ++ [⟨slot, fis, isWrite, wadd drive.commandTables (slot * PRD_STRIDE),
        divCeil n PRD_MAX_BYTES % 2 ^ 16, st.prds⟩]) with
    | none => exact ⟨_, rfl, rfl, hcarries⟩
    | some e => exact ⟨e, rfl, .inr ⟨_, rfl, rfl, hcarries, houtcome⟩⟩

end Commands

section Transfer

variable {drive : AHCIDrive} {command : UInt8} {isWrite : Bool} {start count phys pages : ℕ} {s : AhciState}

def Command.sectors (c : Command) : List ℕ := List.range' c.fis.lba c.fis.count.toNat

/-- The command is for some blocks after `start` and for their part of the buffer at `phys`. -/
structure Command.Proper (drive : AHCIDrive) (command : UInt8) (isWrite : Bool) (start phys : ℕ) (c : Command) : Prop where
  command : c.fis.command = command
  count : 1 ≤ c.fis.count.toNat ∧ c.fis.count.toNat ≤ MAX_SECTORS_PER_CMD
  after : start ≤ c.fis.lba
  even : 2 ∣ c.fis.count.toNat * drive.blockSize
  carries : c.Carries drive isWrite (phys + (c.fis.lba - start) * drive.blockSize) (c.fis.count.toNat * drive.blockSize)

/-- The commands cover the blocks from `offset` to `last` of the request, in order. -/
structure Covers (drive : AHCIDrive) (command : UInt8) (isWrite : Bool) (start phys offset last : ℕ) (cmds : List Command) :
    Prop where
  sectors : cmds.flatMap Command.sectors = List.range' (start + offset) (last - offset)
  proper : ∀ c ∈ cmds, c.Proper drive command isWrite start phys

theorem Covers.nil (drive : AHCIDrive) (command : UInt8) (isWrite : Bool) (start phys offset : ℕ) :
    Covers drive command isWrite start phys offset offset [] := by
  refine ⟨?_, fun c hc => absurd hc not_mem_nil⟩
  rw [Nat.sub_self]
  rfl

theorem Covers.cons {offset middle last : ℕ} {c : Command} {cmds : List Command}
    (h : Covers drive command isWrite start phys middle last cmds) (hproper : c.Proper drive command isWrite start phys)
    (hlba : c.fis.lba = start + offset) (hcount : c.fis.count.toNat = middle - offset) (hmiddle : offset ≤ middle)
    (hlast : middle ≤ last) : Covers drive command isWrite start phys offset last (c :: cmds) := by
  refine ⟨?_, fun c' hc => ?_⟩
  · have hnext : start + middle = start + offset + (middle - offset) := by omega
    rw [flatMap_cons, h.sectors, Command.sectors, hlba, hcount, hnext, range'_append_1,
      show middle - offset + (last - middle) = last - offset by omega]
  · rcases mem_cons.1 hc with rfl | hc
    · exact hproper
    · exact h.proper c' hc

/-- A request inside a drive of 48-bit block numbers, for even blocks of which at least one fits into a command, with a
buffer that is large enough. -/
structure Request (drive : AHCIDrive) (start count phys pages : ℕ) : Prop where
  even : 2 ∣ drive.blockSize
  size : 512 ≤ drive.blockSize ∧ drive.blockSize ≤ 2 ^ 25
  lba : drive.blockCount ≤ 2 ^ 48
  inside : start + count ≤ drive.blockCount
  fits : count * drive.blockSize ≤ pages * PAGE_SIZE
  buffer : phys + pages * PAGE_SIZE ≤ 2 ^ 52

def chunkSize (drive : AHCIDrive) (count offset : ℕ) : ℕ :=
  min (min (count - offset) MAX_SECTORS_PER_CMD) (PRDS_PER_TABLE * PRD_MAX_BYTES / drive.blockSize)

section

variable (h : Request drive start count phys pages)
include h

theorem Request.chunk {offset : ℕ} (hoffset : offset < count) :
    1 ≤ chunkSize drive count offset ∧ chunkSize drive count offset ≤ MAX_SECTORS_PER_CMD ∧
      offset + chunkSize drive count offset ≤ count ∧ chunkSize drive count offset * drive.blockSize ≤ 2 ^ 25 := by
  have hmax : 1 ≤ PRDS_PER_TABLE * PRD_MAX_BYTES / drive.blockSize := Nat.div_pos h.size.2 (by have := h.size.1; omega)
  have hleft : chunkSize drive count offset ≤ count - offset := (min_le_left _ _).trans (min_le_left _ _)
  have hsectors : chunkSize drive count offset ≤ MAX_SECTORS_PER_CMD := (min_le_left _ _).trans (min_le_right _ _)
  have hbytes : chunkSize drive count offset ≤ PRDS_PER_TABLE * PRD_MAX_BYTES / drive.blockSize := min_le_right _ _
  refine ⟨?_, hsectors, by omega, ?_⟩
  · refine Nat.le_min.2 ⟨Nat.le_min.2 ⟨by omega, by norm_num [MAX_SECTORS_PER_CMD]⟩, hmax⟩
  · exact (Nat.mul_le_mul_right _ hbytes).trans (Nat.div_mul_le_self _ _)

theorem Request.proper {offset : ℕ} (hoffset : offset < count) {c : Command}
    (hfis : c.fis = .new 0x80 command 0 (start + offset) (chunkSize drive count offset) 0 0)
    (hcarries : c.Carries drive isWrite (phys + offset * drive.blockSize) (chunkSize drive count offset * drive.blockSize)) :
    c.fis.lba = start + offset ∧ c.fis.count.toNat = chunkSize drive count offset ∧
      c.Proper drive command isWrite start phys := by
  obtain ⟨hone, hmax, hend, -⟩ := h.chunk hoffset
  have hlba : c.fis.lba = start + offset := by
    have := h.lba
    have := h.inside
    rw [hfis, FISRegisterH2D.lba_new, Nat.mod_eq_of_lt (by omega)]
  have hcount : c.fis.count.toNat = chunkSize drive count offset := by
    rw [hfis]
    refine (UInt16.toNat_ofNat' ..).trans (Nat.mod_eq_of_lt ?_)
    rw [MAX_SECTORS_PER_CMD] at hmax
    omega
  refine ⟨hlba, hcount, ⟨by rw [hfis]; rfl, by omega, by omega, Dvd.dvd.mul_left h.even _, ?_⟩⟩
  rw [hlba, hcount, Nat.add_sub_cancel_left]
  exact hcarries

theorem transferLoop_wp {fuel offset : ℕ} (hoffset : offset ≤ count)
    (hfuel : count - offset ≤ fuel) (s : AhciState) :
    wp (drive.transferLoop command isWrite start count phys fuel offset) s
      (fun _ s' => ∃ cmds, s'.issued = s.issued ++ cmds ∧ Covers drive command isWrite start phys offset count cmds)
      fun e s' => (∃ err, e = .storage err ∧ (drive.Blocked s'.issued ∨ drive.outcome s'.issued = some err)) ∧
        ∃ cmds k, offset ≤ k ∧ k ≤ count ∧ s'.issued = s.issued ++ cmds ∧
          Covers drive command isWrite start phys offset k cmds := by
  induction fuel generalizing offset s with
  | zero =>
    obtain rfl : offset = count := by omega
    rw [AHCIDrive.transferLoop, if_neg (Nat.lt_irrefl _)]
    exact wp_pure.2 ⟨[], (append_nil _).symm, Covers.nil ..⟩
  | succ fuel ih =>
    rw [AHCIDrive.transferLoop]
    rcases Nat.eq_or_lt_of_le hoffset with rfl | hlt
    · rw [if_neg (Nat.lt_irrefl _)]
      exact wp_pure.2 ⟨[], (append_nil _).symm, Covers.nil ..⟩
    rw [if_pos hlt]
    obtain ⟨hone, hmax, hend, hbytes⟩ := h.chunk hlt
    have hin := h.inside
    have hlba := h.lba
    have hsize := h.size
    -- the part of the buffer that this command takes
    have hpart : offset * drive.blockSize + chunkSize drive count offset * drive.blockSize ≤ pages * PAGE_SIZE := by
      rw [← Nat.add_mul]
      exact (Nat.mul_le_mul_right _ hend).trans h.fits
    have hbuffer := h.buffer
    have hpos : 0 < chunkSize drive count offset * drive.blockSize := Nat.mul_pos (by omega) (by omega)
    have hstart : wadd start offset = start + offset := Nat.mod_eq_of_lt (by omega)
    have hnext : wadd offset (chunkSize drive count offset) = offset + chunkSize drive count offset :=
      Nat.mod_eq_of_lt (by omega)
    have haddr : AHCIDrive.physAdd phys (wmul offset drive.blockSize) = pure (phys + offset * drive.blockSize) := by
      rw [wmul_of_lt (by omega), AHCIDrive.physAdd, if_pos (by omega)]
    have hlength : wmul (chunkSize drive count offset) drive.blockSize = chunkSize drive count offset * drive.blockSize :=
      Nat.mod_eq_of_lt (by omega)
    change wp (AHCIDrive.physAdd phys (wmul offset drive.blockSize) >>= fun addr =>
      drive.sendCommand (.new 0x80 command 0 (wadd start offset) (chunkSize drive count offset) 0 0) addr
        (wmul (chunkSize drive count offset) drive.blockSize) isWrite >>= fun _ =>
      drive.transferLoop command isWrite start count phys fuel (wadd offset (chunkSize drive count offset))) s _ _
    rw [haddr, hlength, hstart, hnext, pure_bind]
    refine wp_seq (sendCommand_wp drive _ isWrite s hpos hbytes (by omega)) (fun _ s1 hsent => ?_) ?_
    · obtain ⟨c, hissued, hfis, hcarries⟩ := hsent
      obtain ⟨hfirst, hcount, hproper⟩ := h.proper hlt hfis hcarries
      have hcount' : c.fis.count.toNat = offset + chunkSize drive count offset - offset := by omega
      refine wp_mono (ih hend (by omega) s1) (fun _ s' hdone => ?_) fun e s' hfailed => ?_
      · obtain ⟨cmds, hissued', hcovers⟩ := hdone
        refine ⟨c :: cmds, ?_, hcovers.cons hproper hfirst hcount' (by omega) hend⟩
        rw [hissued', hissued, append_assoc]
        rfl
      · obtain ⟨herr, cmds, k, hk, hle, hissued', hcovers⟩ := hfailed
        refine ⟨herr, c :: cmds, k, by omega, hle, ?_, hcovers.cons hproper hfirst hcount' (by omega) hk⟩
        rw [hissued', hissued, append_assoc]
        rfl
    · rintro e s1 ⟨err, rfl, ⟨hsame, hblocked⟩ | ⟨c, hissued, hfis, hcarries, houtcome⟩⟩
      · refine ⟨⟨err, rfl, .inl (hsame ▸ hblocked)⟩, [], offset, le_rfl, hoffset, by rw [hsame, append_nil], Covers.nil ..⟩
      · obtain ⟨hfirst, hcount, hproper⟩ := h.proper hlt hfis hcarries
        exact ⟨⟨err, rfl, .inr houtcome⟩, [c], _, Nat.le_add_right .., hend, hissued,
          (Covers.nil ..).cons hproper hfirst (by omega) (Nat.le_add_right ..) le_rfl⟩

end

/-- All commands of a transfer that succeeds, or the first ones of a transfer that fails since the next one cannot be
issued or the last one has failed. -/
def Split (drive : AHCIDrive) (command : UInt8) (isWrite : Bool) (start count phys : ℕ) (s : AhciState)
    (r : Except AhciFault Unit × AhciState) : Prop :=
  ∃ cmds k, r.2.issued = s.issued ++ cmds ∧ k ≤ count ∧ Covers drive command isWrite start phys 0 k cmds ∧
    (r.1 = .ok () ∧ k = count ∨
      ∃ e, r.1 = .error (.storage e) ∧ (drive.Blocked r.2.issued ∨ drive.outcome r.2.issued = some e))

theorem transferBlocks_split (h : Request drive start count phys pages) {fuel : ℕ} (hfuel : count ≤ fuel) (s : AhciState) :
    Split drive command isWrite start count phys s
      (drive.transferBlocks command isWrite start count phys pages fuel s) := by
  have hsize := h.size
  have hin := h.inside
  have hlba := h.lba
  have hfits := h.fits
  have hbuffer := h.buffer
  have hrefuses : drive.refuses count pages = false := by
    rw [AHCIDrive.refuses, decide_eq_false_iff_not, wmul, wmul, Nat.mod_eq_of_lt (by omega), Nat.mod_eq_of_lt (by omega)]
    omega
  have hsum : wadd start count = start + count := Nat.mod_eq_of_lt (by omega)
  have hrun : drive.transferBlocks command isWrite start count phys pages fuel s =
      drive.transferLoop command isWrite start count phys fuel 0 s := by
    rw [AHCIDrive.transferBlocks, if_neg (by omega), hsum, if_neg (by omega), hrefuses, if_neg Bool.false_ne_true]
  have hwp := @transferLoop_wp drive command isWrite _ _ _ _ h fuel 0 (Nat.zero_le _) (by omega) s
  rw [hrun]
  cases hresult : drive.transferLoop command isWrite start count phys fuel 0 s with
  | mk r s' =>
    cases r with
    | ok u =>
      obtain ⟨cmds, hissued, hcovers⟩ := wp_ok hwp hresult
      exact ⟨cmds, count, hissued, le_rfl, hcovers, .inl ⟨rfl, rfl⟩⟩
    | error e =>
      obtain ⟨⟨err, rfl, hcause⟩, cmds, k, -, hk, hissued, hcovers⟩ := wp_error hwp hresult
      exact ⟨cmds, k, hissued, hk, hcovers, .inr ⟨err, rfl, hcause⟩⟩

theorem Split.complete {r : Except AhciFault Unit × AhciState} (h : Split drive command isWrite start count phys s r)
    (hdevice : ∀ issued, ¬drive.Blocked issued ∧ drive.outcome issued = none) :
    r.1 = .ok () ∧ ∃ cmds, r.2.issued = s.issued ++ cmds ∧ Covers drive command isWrite start phys 0 count cmds := by
  obtain ⟨cmds, k, hissued, -, hcovers, ⟨hok, rfl⟩ | ⟨e, -, hblocked | houtcome⟩⟩ := h
  · exact ⟨hok, cmds, hissued, hcovers⟩
  · exact absurd hblocked (hdevice _).1
  · rw [(hdevice _).2] at houtcome
    cases houtcome

/-- Reads and writes end, and are split exactly. They succeed, with commands for all the blocks, if each command can be
issued and succeeds. -/
theorem transfer_exact (h : Request drive start count phys pages) (s : AhciState) :
    ∀ fuel ≥ count,
      (Split drive 0x25 false start count phys s (drive.readBlocks start count phys pages fuel s) ∧
        Split drive 0x35 true start count phys s (drive.writeBlocks start count phys pages fuel s)) ∧
      ((∀ issued, ¬drive.Blocked issued ∧ drive.outcome issued = none) →
        ((drive.readBlocks start count phys pages fuel s).1 = .ok () ∧
          ∃ cmds, (drive.readBlocks start count phys pages fuel s).2.issued = s.issued ++ cmds ∧
            Covers drive 0x25 false start phys 0 count cmds) ∧
        (drive.writeBlocks start count phys pages fuel s).1 = .ok () ∧
          ∃ cmds, (drive.writeBlocks start count phys pages fuel s).2.issued = s.issued ++ cmds ∧
            Covers drive 0x35 true start phys 0 count cmds) := by
  intro fuel hfuel
  have hread : Split drive 0x25 false start count phys s (drive.readBlocks start count phys pages fuel s) :=
    transferBlocks_split h hfuel s
  have hwrite : Split drive 0x35 true start count phys s (drive.writeBlocks start count phys pages fuel s) :=
    transferBlocks_split h hfuel s
  exact ⟨⟨hread, hwrite⟩, fun hdevice => ⟨hread.complete hdevice, hwrite.complete hdevice⟩⟩

/-- A drive of 512-byte blocks whose commands all succeed in slot 0. -/
def readyDrive (blockCount : ℕ) : AHCIDrive :=
  ⟨512, blockCount, Fin.last 31, 0x10000, true, fun _ => 0, fun _ => true, fun _ => none⟩

theorem readyDrive_answers (blockCount : ℕ) (issued : List Command) :
    ¬(readyDrive blockCount).Blocked issued ∧ (readyDrive blockCount).outcome issued = none := by
  refine ⟨?_, rfl⟩
  rintro (hmapped | hslot | hready)
  · cases hmapped
  · have hfree : findSlot 0 31 = some 0 := by decide
    cases hfree.symm.trans hslot
  · cases hready

theorem transfer_exact_large :
    Request (readyDrive 200000) 100 70000 0x100000 8750 ∧
      ((readyDrive 200000).readBlocks 100 70000 0x100000 8750 70000 ⟨fun _ => 0, []⟩).1 = .ok () ∧
      ∃ cmds, ((readyDrive 200000).readBlocks 100 70000 0x100000 8750 70000 ⟨fun _ => 0, []⟩).2.issued = [] ++ cmds ∧
        Covers (readyDrive 200000) 0x25 false 100 0x100000 0 70000 cmds := by
  have hrequest : Request (readyDrive 200000) 100 70000 0x100000 8750 :=
    ⟨by decide, by decide, by decide, by decide, by decide, by decide⟩
  exact ⟨hrequest, ((transfer_exact hrequest _ 70000 le_rfl).2 (readyDrive_answers 200000)).1⟩

/-- Block 2^48 of a drive that claims to have it is read from block 0. -/
theorem lba_truncated :
    2 ^ 48 + 1 ≤ (readyDrive (2 ^ 48 + 1)).blockCount ∧
      ((readyDrive (2 ^ 48 + 1)).readBlocks (2 ^ 48) 1 0x100000 1 1 ⟨fun _ => 0, []⟩).1 = .ok () ∧
      ((readyDrive (2 ^ 48 + 1)).readBlocks (2 ^ 48) 1 0x100000 1 1 ⟨fun _ => 0, []⟩).2.issued.flatMap
        Command.sectors = [0] := by
  decide +kernel

end Transfer

/-! The buffer of `read_smart`. It has a page for as many blocks as touch a page, rounded up. -/

section Buffer

variable {drive : AHCIDrive} {count : ℕ}

/-- Blocks that divide a page, or some blocks so few that the last page makes up for what the others lack. -/
def Roomy (drive : AHCIDrive) (count : ℕ) : Prop :=
  drive.blockSize ∣ PAGE_SIZE ∨
    0 < count % divCeil PAGE_SIZE drive.blockSize ∧
      count / divCeil PAGE_SIZE drive.blockSize * (divCeil PAGE_SIZE drive.blockSize * drive.blockSize - PAGE_SIZE) +
        count % divCeil PAGE_SIZE drive.blockSize * drive.blockSize ≤ PAGE_SIZE

theorem divCeil_div_mod {a b : ℕ} (hb : 0 < b) : divCeil a b = a / b + if a % b = 0 then 0 else 1 := by
  have hsplit : a + b - 1 = b * (a / b) + (a % b + b - 1) := by
    have := Nat.div_add_mod a b
    omega
  have hmod := Nat.mod_lt a hb
  rw [divCeil, hsplit, Nat.mul_add_div hb]
  congr 1
  split_ifs with h
  · exact Nat.div_eq_of_lt (by omega)
  · rw [Nat.div_eq_iff hb]
    omega

theorem smartPages_fit_iff (hsize : 0 < drive.blockSize) (hcount : 1 ≤ count) :
    count * drive.blockSize ≤ drive.smartPages count * PAGE_SIZE ↔ Roomy drive count := by
  have hle := @le_divCeil_mul PAGE_SIZE _ hsize
  have hdvd := @divCeil_mul_eq_iff PAGE_SIZE _ hsize
  have hq : 0 < divCeil PAGE_SIZE drive.blockSize := Nat.div_pos (by rw [PAGE_SIZE]; omega) hsize
  rw [AHCIDrive.smartPages, Roomy, divCeil_div_mod hq, ← hdvd]
  generalize divCeil PAGE_SIZE drive.blockSize = q at *
  have hsplit : count * drive.blockSize =
      count / q * PAGE_SIZE + (count / q * (q * drive.blockSize - PAGE_SIZE) + count % q * drive.blockSize) := by
    calc count * drive.blockSize = (q * (count / q) + count % q) * drive.blockSize := by rw [Nat.div_add_mod]
      _ = count / q * (PAGE_SIZE + (q * drive.blockSize - PAGE_SIZE)) + count % q * drive.blockSize := by
        rw [Nat.add_sub_cancel' hle]
        ring
      _ = _ := by ring
  have hrest : count % q * drive.blockSize + drive.blockSize ≤ q * drive.blockSize := by
    rw [← Nat.succ_mul]
    exact Nat.mul_le_mul_right _ (Nat.mod_lt _ hq)
  rw [hsplit, Nat.add_mul, Nat.add_le_add_iff_left]
  by_cases hmod : count % q = 0
  · -- every page lacks the same
    have hpos : 0 < count / q := by
      rw [Nat.pos_iff_ne_zero]
      intro hzero
      have := Nat.div_add_mod count q
      rw [hzero, hmod] at this
      omega
    rw [if_pos hmod, hmod, Nat.zero_mul, Nat.zero_mul, Nat.add_zero, Nat.le_zero, Nat.mul_eq_zero]
    omega
  · rw [if_neg hmod, Nat.one_mul]
    constructor
    · exact fun h => .inr ⟨Nat.pos_of_ne_zero hmod, h⟩
    · rintro (heq | ⟨-, h⟩)
      · rw [heq, Nat.sub_self, Nat.mul_zero, Nat.zero_add]
        omega
      · exact h

/-- The buffer of `read_smart` is large enough, and passes the size check of `read_blocks` when it can be allocated, if and
only if it is roomy. -/
theorem smart_buffer_fits_iff (hsize : 0 < drive.blockSize) (hcount : 1 ≤ count) :
    (count * drive.blockSize ≤ drive.smartPages count * PAGE_SIZE ↔ Roomy drive count) ∧
    (drive.blockSize < 2 ^ 32 → drive.smartPages count ≤ 2 ^ 18 →
      (drive.refuses count (drive.smartPages count) = false ↔ Roomy drive count)) := by
  refine ⟨smartPages_fit_iff hsize hcount, fun hsmall hpages => ?_⟩
  rw [← smartPages_fit_iff hsize hcount]
  have hq : divCeil PAGE_SIZE drive.blockSize ≤ 4096 := by
    rw [divCeil, PAGE_SIZE, Nat.div_le_iff_le_mul_add_pred hsize]
    omega
  have hpos : 0 < divCeil PAGE_SIZE drive.blockSize := Nat.div_pos (by rw [PAGE_SIZE]; omega) hsize
  have hblocks : count ≤ 2 ^ 18 * 4096 := (le_divCeil_mul hpos).trans (Nat.mul_le_mul hpages hq)
  have hproduct : count * drive.blockSize ≤ 2 ^ 18 * 4096 * 2 ^ 32 := Nat.mul_le_mul hblocks hsmall.le
  rw [AHCIDrive.refuses, decide_eq_false_iff_not, Nat.not_lt, wmul, wmul, Nat.mod_eq_of_lt (by omega),
    Nat.mod_eq_of_lt (by rw [PAGE_SIZE]; omega)]

theorem smart_buffer_fits_512 :
    (readyDrive 100).refuses 33 ((readyDrive 100).smartPages 33) = false ∧ Roomy (readyDrive 100) 33 := by
  have hroomy : Roomy (readyDrive 100) 33 := .inl (by decide)
  exact ⟨((smart_buffer_fits_iff (by decide) (by decide)).2 (by decide) (by decide)).2 hroomy, hroomy⟩

/-- A drive with blocks of any size whose commands all succeed. -/
def blockDrive (blockSize : ℕ) : AHCIDrive := { readyDrive 100 with blockSize := blockSize }

/-- Three blocks of 1536 bytes, or one of 8192, do not fit into the one page that is allocated. -/
theorem smart_buffer_too_small :
    ((blockDrive 1536).readSmart (fun _ => some 0x100000) 0 3 3 ⟨fun _ => 0, []⟩).1 = .error (.storage .commandFailed) ∧
      ((blockDrive 1536).readSmart (fun _ => some 0x100000) 0 3 3 ⟨fun _ => 0, []⟩).2.issued = [] ∧
      (blockDrive 1536).smartPages 3 * PAGE_SIZE < 3 * 1536 ∧
    ((blockDrive 8192).readSmart (fun _ => some 0x100000) 0 1 1 ⟨fun _ => 0, []⟩).1 = .error (.storage .commandFailed) ∧
      (blockDrive 8192).smartPages 1 * PAGE_SIZE < 1 * 8192 := by
  decide +kernel

end Buffer

end MaramOS
