import MaramOS.Proofs.Mmio
import MaramOS.Spec.PciConfig

/-! The registers of PCI functions as an array of bytes. The accessors are right for the
first 256 bytes of a function; the offset of every register above them loses its high bits,
so that the extended registers are those of the first 256 bytes again. -/

namespace MaramOS.Pci

open Prog

section Places

variable {s : Segment} {bus device function offset : ℕ} {b d f r : ℕ}

/-- A segment as `init_segments` leaves it. -/
structure Segment.Sound (s : Segment) : Prop where
  endBus_lt : s.endBus < 256
  sized : ∀ m, s.region = some m → m.region.size = (s.endBus - s.startBus + 1) * 2 ^ 20

theorem initSegments_sound [Mapper] {l segments : List Segment} {a a' : VMemAllocator} (hbus : ∀ s ∈ l, s.endBus < 256)
    (hrun : initSegments l a = (.ok (.ok segments), a')) : ∀ s ∈ segments, s.Sound := by
  induction l generalizing segments a with
  | nil =>
    cases hrun
    exact fun s hs => absurd hs List.not_mem_nil
  | cons s l ih =>
    rw [initSegments] at hrun
    split_ifs at hrun with hlt
    · cases hrun
    · obtain ⟨region, a1, hnew, hrun⟩ := run_bind_ok hrun
      obtain ⟨rest, a2, hrest, hrun⟩ := run_bind_ok hrun
      cases rest with
      | error e => cases hrun
      | ok rest =>
        cases hrun
        intro t ht
        rcases List.mem_cons.1 ht with rfl | ht
        · refine ⟨hbus s List.mem_cons_self, fun m hm => ?_⟩
          obtain rfl : region = some m := hm
          obtain ⟨_, halloc, -⟩ := MMIORegion.new_cases hnew
          have hend := hbus s List.mem_cons_self
          have hbytes : (s.endBus - s.startBus + 1) <<< 20 = (s.endBus - s.startBus + 1) * 2 ^ 20 := Nat.shiftLeft_eq _ _
          have hpages : divCeil ((s.endBus - s.startBus + 1) * 2 ^ 20) PAGE_SIZE * PAGE_SIZE =
              (s.endBus - s.startBus + 1) * 2 ^ 20 :=
            (divCeil_mul_eq_iff (by decide)).2 (Dvd.dvd.mul_left (by decide) _)
          have hsize : pageSize 0 = PAGE_SIZE := by decide
          rw [(VMemAllocator.alloc_region halloc).2.2, hbytes, hsize, wmul_of_lt (by omega), hpages]
        · exact ih (fun s hs => hbus s (List.mem_cons_of_mem _ hs)) hrest t ht

theorem and_regMask (x : ℕ) : x &&& 0xFC = x % 256 / 4 * 4 := by
  have hshift : x &&& 0xFC = ((x >>> 2) &&& (2 ^ 6 - 1)) <<< 2 := by
    refine Nat.eq_of_testBit_eq fun i => ?_
    have hmask : (0xFC : ℕ) = (2 ^ 6 - 1) <<< 2 := rfl
    rw [hmask, Nat.testBit_and, Nat.testBit_shiftLeft, Nat.testBit_shiftLeft, Nat.testBit_and, Nat.testBit_shiftRight]
    by_cases hi : 2 ≤ i
    · simp [hi]
    · simp [hi]
  rw [hshift, Nat.and_two_pow_sub_one_eq_mod, Nat.shiftRight_eq_div_pow, Nat.shiftLeft_eq]
  omega

theorem or_eq_add (hd : d < 32) (hf : f < 8) (hr : r < 4096) :
    b <<< 20 ||| d <<< 15 ||| f <<< 12 ||| r = b * 2 ^ 20 + d * 2 ^ 15 + f * 2 ^ 12 + r := by
  have hregister : r < 2 ^ 12 := hr
  have hfunction : f <<< 12 + r < 2 ^ 15 := by
    rw [Nat.shiftLeft_eq]
    omega
  have hdevice : d <<< 15 + (f <<< 12 + r) < 2 ^ 20 := by
    rw [Nat.shiftLeft_eq, Nat.shiftLeft_eq]
    omega
  rw [Nat.or_assoc, Nat.or_assoc, ← Nat.shiftLeft_add_eq_or_of_lt hregister, ← Nat.shiftLeft_add_eq_or_of_lt hfunction,
    ← Nat.shiftLeft_add_eq_or_of_lt hdevice, Nat.shiftLeft_eq, Nat.shiftLeft_eq, Nat.shiftLeft_eq]
  omega

structure Segment.Has (s : Segment) (bus device function : ℕ) : Prop where
  startBus_le : s.startBus ≤ bus
  le_endBus : bus ≤ s.endBus
  device_lt : device < 32
  function_lt : function < 8

/-- The physical address of a register of a function. -/
def Segment.place (s : Segment) (bus device function offset : ℕ) : ℕ :=
  s.baseAddress / PAGE_SIZE * PAGE_SIZE + ((bus - s.startBus) * 2 ^ 20 + device * 2 ^ 15 + function * 2 ^ 12 + offset)

theorem Segment.Has.ecamOffset_eq (h : s.Has bus device function) : ecamOffset s bus device function offset =
    some ((bus - s.startBus) * 2 ^ 20 + device * 2 ^ 15 + function * 2 ^ 12 + offset % 256 / 4 * 4) := by
  have hrange : ¬(bus < s.startBus ∨ bus > s.endBus) := by
    have := h.startBus_le
    have := h.le_endBus
    omega
  rw [ecamOffset, if_neg hrange, and_regMask]
  simp only
  rw [or_eq_add h.device_lt h.function_lt (by omega)]

theorem Segment.Has.locate_eq (h : s.Has bus device function) (hs : s.Sound) (hregion : s.region ≠ none) :
    locate s bus device function offset = some (s.place bus device function (offset % 256 / 4 * 4)) := by
  obtain ⟨m, hm⟩ := Option.ne_none_iff_exists'.1 hregion
  have hsize := hs.sized m hm
  obtain ⟨hstart, hend, hdevice, hfunction⟩ := h
  have hlast := hs.endBus_lt
  rw [locate, Has.ecamOffset_eq ⟨hstart, hend, hdevice, hfunction⟩]
  simp only [Segment.register, hm, hsize]
  rw [wadd_of_lt (by omega), if_neg (by omega), if_neg (by omega)]
  rfl

theorem locate_of_unmapped (hregion : s.region = none) : locate s bus device function offset = none := by
  rw [locate]
  cases ecamOffset s bus device function offset with
  | none => rfl
  | some o => simp only [Segment.register, hregion]

theorem Segment.Has.place_inj {r' : ℕ} (h : s.Has bus device function) (h' : s.Has b d f) (hr : r < 4096)
    (hr' : r' < 4096) (heq : s.place bus device function r = s.place b d f r') :
    bus = b ∧ device = d ∧ function = f ∧ r = r' := by
  obtain ⟨hstart, hend, hdevice, hfunction⟩ := h
  obtain ⟨hstart', hend', hdevice', hfunction'⟩ := h'
  rw [place, place] at heq
  omega

end Places

section Bytes

/-- Byte `i` of a number, the least significant first. -/
def byteOf {w : ℕ} (x : BitVec w) (i : ℕ) : BitVec 8 := x.extractLsb' (8 * i) 8

variable {w k i n j : ℕ}

theorem getLsbD_byteOf (x : BitVec w) (i : ℕ) (hk : k < 8) :
    (byteOf x i).getLsbD k = x.getLsbD (8 * i + k) := by
  simp [byteOf, hk]

theorem getLsbD_merge (m x y : BitVec w) (hk : k < w) :
    (merge m x y).getLsbD k = if m.getLsbD k then y.getLsbD k else x.getLsbD k := by
  simp only [merge, BitVec.getLsbD_or, BitVec.getLsbD_and, BitVec.getLsbD_not, hk, decide_true, Bool.true_and]
  cases m.getLsbD k <;> simp

theorem merge_self (m x : BitVec w) : merge m x x = x := by
  refine BitVec.eq_of_getLsbD_eq fun k hk => ?_
  rw [getLsbD_merge m x x hk, ite_self]

theorem merge_merge (m x y z : BitVec w) : merge m (merge m x y) z = merge m x z := by
  refine BitVec.eq_of_getLsbD_eq fun k hk => ?_
  rw [getLsbD_merge m _ z hk, getLsbD_merge m x y hk, getLsbD_merge m x z hk]
  split_ifs <;> rfl

theorem byteOf_merge (m x y : BitVec 32) (hi : i < 4) :
    byteOf (merge m x y) i = merge (byteOf m i) (byteOf x i) (byteOf y i) := by
  refine BitVec.eq_of_getLsbD_eq fun k hk => ?_
  rw [getLsbD_byteOf _ _ hk, getLsbD_merge _ _ _ (by omega), getLsbD_merge _ _ _ hk, getLsbD_byteOf _ _ hk,
    getLsbD_byteOf _ _ hk, getLsbD_byteOf _ _ hk]

theorem byteOf_shiftRight (x : BitVec 32) (hi : 8 * i + 8 ≤ n) :
    byteOf ((x >>> (8 * j)).setWidth n) i = byteOf x (j + i) := by
  refine BitVec.eq_of_getLsbD_eq fun k hk => ?_
  have hlt : 8 * i + k < n := by omega
  have hsum : 8 * j + (8 * i + k) = 8 * (j + i) + k := by omega
  rw [getLsbD_byteOf _ _ hk, getLsbD_byteOf _ _ hk, BitVec.getLsbD_setWidth, BitVec.getLsbD_ushiftRight, decide_eq_true hlt,
    Bool.true_and, hsum]

/-- What the accessors for a part of a register write: the `n` bits from byte `j` on replaced by those of `y`. -/
def splice (x : BitVec 32) (j : ℕ) {n : ℕ} (y : BitVec n) : BitVec 32 :=
  (x &&& ~~~((BitVec.allOnes n).setWidth 32 <<< (8 * j))) ||| (y.setWidth 32 <<< (8 * j))

theorem getLsbD_splice (x : BitVec 32) (j : ℕ) (y : BitVec n) {p : ℕ} (hp : p < 32) :
    (splice x j y).getLsbD p = if 8 * j ≤ p ∧ p < 8 * j + n then y.getLsbD (p - 8 * j) else x.getLsbD p := by
  have hshift : p - 8 * j < 32 := by omega
  simp only [splice, BitVec.getLsbD_or, BitVec.getLsbD_and, BitVec.getLsbD_not, BitVec.getLsbD_shiftLeft,
    BitVec.getLsbD_setWidth, BitVec.getLsbD_allOnes, hp, hshift, decide_true, Bool.true_and]
  by_cases hlow : p < 8 * j
  · rw [if_neg (by omega)]
    simp [hlow]
  · by_cases hhigh : p - 8 * j < n
    · rw [if_pos (by omega)]
      simp [hlow, hhigh]
    · rw [if_neg (by omega), BitVec.getLsbD_of_ge y _ (by omega)]
      simp [hlow, hhigh]

theorem splice_all (x y : BitVec 32) : splice x 0 y = y := by
  refine BitVec.eq_of_getLsbD_eq fun p hp => ?_
  rw [getLsbD_splice x 0 y hp, if_pos (by omega), Nat.mul_zero, Nat.sub_zero]

theorem byteOf_splice_inside (x : BitVec 32) (y : BitVec n) (hi : 8 * i + 8 ≤ n) (hj : j + i < 4) :
    byteOf (splice x j y) (j + i) = byteOf y i := by
  refine BitVec.eq_of_getLsbD_eq fun k hk => ?_
  have hbit : 8 * (j + i) + k - 8 * j = 8 * i + k := by omega
  rw [getLsbD_byteOf _ _ hk, getLsbD_byteOf _ _ hk, getLsbD_splice x j y (by omega), if_pos (by omega), hbit]

theorem byteOf_splice_outside (x : BitVec 32) (y : BitVec n) (hout : i < j ∨ 8 * j + n ≤ 8 * i) (hi : i < 4) :
    byteOf (splice x j y) i = byteOf x i := by
  refine BitVec.eq_of_getLsbD_eq fun k hk => ?_
  rw [getLsbD_byteOf _ _ hk, getLsbD_byteOf _ _ hk, getLsbD_splice x j y (by omega), if_neg (by omega)]

end Bytes

section Accessors

inductive Width
  | byte | word | dword
  deriving DecidableEq, Repr

def Width.bytes : Width → ℕ
  | .byte => 1
  | .word => 2
  | .dword => 4

def Width.bits : Width → ℕ
  | .byte => 8
  | .word => 16
  | .dword => 32

theorem Width.bits_eq (w : Width) : w.bits = 8 * w.bytes := by
  cases w <;> rfl

def Width.read (w : Width) (s : Segment) (bus device function offset : ℕ) : Config (BitVec w.bits) :=
  match w with
  | .byte => read8 s bus device function offset
  | .word => read16 s bus device function offset
  | .dword => read32 s bus device function offset

def Width.write (w : Width) (s : Segment) (bus device function offset : ℕ) (val : BitVec w.bits) : Config Unit :=
  match w with
  | .byte => write8 s bus device function offset val
  | .word => write16 s bus device function offset val
  | .dword => write32 s bus device function offset val

variable {s : Segment} {bus device function offset addr : ℕ} {c : ConfigSpace} {w : Width}

theorem locate_and {m : ℕ} (hm : m &&& 0xFC = 0xFC) :
    locate s bus device function (offset &&& m) = locate s bus device function offset := by
  rw [locate, locate, ecamOffset, ecamOffset, Nat.and_assoc, hm]

theorem run_read32 (h : locate s bus device function offset = some addr) (c : ConfigSpace) :
    read32 s bus device function offset c = (.ok (c.registers addr), c) := by
  simp only [read32, reads, h]

theorem run_write32 (h : locate s bus device function offset = some addr) (val : BitVec 32) (c : ConfigSpace) :
    write32 s bus device function offset val c = (.ok (), c.write addr val) := by
  simp only [write32, h]

theorem shift_word (h : 2 ∣ offset) : (offset &&& 2) * 8 = 8 * (offset % 4) := by
  have hmod : offset &&& 3 = offset % 4 := Nat.and_two_pow_sub_one_eq_mod offset 2
  have hand : offset &&& 2 = (offset % 4) &&& 2 := by
    rw [← hmod, Nat.and_assoc]
    rfl
  have hcases : offset % 4 = 0 ∨ offset % 4 = 2 := by omega
  rw [hand]
  rcases hcases with hzero | htwo
  · rw [hzero]
    rfl
  · rw [htwo]
    rfl

theorem shift_byte (offset : ℕ) : (offset &&& 3) * 8 = 8 * (offset % 4) := by
  rw [Nat.and_two_pow_sub_one_eq_mod offset 2, Nat.mul_comm]

theorem Width.run_read (w : Width) (halign : w.bytes ∣ offset) (h : locate s bus device function offset = some addr)
    (c : ConfigSpace) : w.read s bus device function offset c =
      (.ok ((c.registers addr >>> (8 * (offset % 4))).setWidth w.bits), c) := by
  cases w with
  | byte =>
    have hloc := (locate_and (m := 0xFFFC) rfl).trans h
    simp only [Width.read, read8]
    rw [run_bind (run_read32 hloc c), shift_byte]
    rfl
  | word =>
    have hloc := (locate_and (m := 0xFFFE) rfl).trans h
    simp only [Width.read, read16]
    rw [run_bind (run_read32 hloc c), shift_word halign]
    rfl
  | dword =>
    have hmod : offset % 4 = 0 := Nat.mod_eq_zero_of_dvd halign
    simp only [Width.read]
    rw [run_read32 h, hmod]
    simp [Width.bits]

theorem Width.run_write (w : Width) (halign : w.bytes ∣ offset) (h : locate s bus device function offset = some addr)
    (val : BitVec w.bits) (c : ConfigSpace) : w.write s bus device function offset val c =
      (.ok (), c.write addr (splice (c.registers addr) (offset % 4) val)) := by
  cases w with
  | byte =>
    have hloc := (locate_and (m := 0xFFFC) rfl).trans h
    simp only [Width.write, write8]
    rw [run_bind (run_read32 hloc c), run_write32 hloc, shift_byte]
    rfl
  | word =>
    have hloc := (locate_and (m := 0xFFFE) rfl).trans h
    simp only [Width.write, write16]
    rw [run_bind (run_read32 hloc c), run_write32 hloc, shift_word halign]
    rfl
  | dword =>
    have hmod : offset % 4 = 0 := Nat.mod_eq_zero_of_dvd halign
    have hrun : ∀ v : BitVec 32, write32 s bus device function offset v c =
        (.ok (), c.write addr (splice (c.registers addr) (offset % 4) v)) := by
      intro v
      rw [run_write32 h, hmod, splice_all]
    exact hrun val

theorem run_read32_none (h : locate s bus device function offset = none) (c : ConfigSpace) :
    read32 s bus device function offset c = (.error .none, c) := by
  simp only [read32, reads, h]

theorem Width.locate_ne_none (w : Width) {v : BitVec w.bits} {c' : ConfigSpace}
    (hrun : w.read s bus device function offset c = (.ok v, c')) : locate s bus device function offset ≠ none := by
  intro h
  cases w with
  | byte =>
    obtain ⟨_, _, hread, -⟩ := run_bind_ok hrun
    rw [run_read32_none ((locate_and rfl).trans h)] at hread
    cases hread
  | word =>
    obtain ⟨_, _, hread, -⟩ := run_bind_ok hrun
    rw [run_read32_none ((locate_and rfl).trans h)] at hread
    cases hread
  | dword =>
    have hread := run_read32_none h c
    rw [Width.read, hread] at hrun
    cases hrun

def byteAt (c : ConfigSpace) (s : Segment) (bus device function offset : ℕ) : BitVec 8 :=
  byteOf (c.registers (s.place bus device function (offset / 4 * 4))) (offset % 4)

def writableAt (c : ConfigSpace) (s : Segment) (bus device function offset : ℕ) : BitVec 8 :=
  byteOf (c.writable (s.place bus device function (offset / 4 * 4))) (offset % 4)

/-- What is expected of the accessors of a width at an offset: they take the bytes there, in little-endian order,
and a write leaves all other bytes of all functions of the segment as they are. -/
structure LittleEndian (w : Width) (s : Segment) (bus device function offset : ℕ) : Prop where
  read : ∀ c, ∃ v, w.read s bus device function offset c = (.ok v, c) ∧
    ∀ i < w.bytes, byteOf v i = byteAt c s bus device function (offset + i)
  write : ∀ c v, ∃ c', w.write s bus device function offset v c = (.ok (), c') ∧
    (∀ i < w.bytes, byteAt c' s bus device function (offset + i) =
      merge (writableAt c s bus device function (offset + i)) (byteAt c s bus device function (offset + i)) (byteOf v i)) ∧
    ∀ b d f o, s.Has b d f → o < 4096 →
      ¬((b = bus ∧ d = device ∧ f = function) ∧ offset ≤ o ∧ o < offset + w.bytes) →
      byteAt c' s b d f o = byteAt c s b d f o

theorem Width.same_register (w : Width) (halign : w.bytes ∣ offset) {i : ℕ} (hi : i < w.bytes) :
    (offset + i) / 4 = offset / 4 ∧ (offset + i) % 4 = offset % 4 + i := by
  cases w <;> simp only [Width.bytes] at halign hi <;> omega

theorem littleEndian_of_low (w : Width) (hs : s.Sound) (h : s.Has bus device function) (halign : w.bytes ∣ offset)
    (hregion : s.region ≠ none) (hlow : offset < 256) : LittleEndian w s bus device function offset := by
  have hloc : locate s bus device function offset = some (s.place bus device function (offset / 4 * 4)) := by
    rw [h.locate_eq hs hregion, Nat.mod_eq_of_lt hlow]
  have hbits := w.bits_eq
  constructor
  · intro c
    refine ⟨_, w.run_read halign hloc c, fun i hi => ?_⟩
    obtain ⟨hdiv, hmod⟩ := w.same_register halign hi
    rw [byteOf_shiftRight _ (by omega), byteAt, hdiv, hmod]
  · intro c v
    refine ⟨_, w.run_write halign hloc v c, fun i hi => ?_, fun b d f o hhas ho hother => ?_⟩
    · obtain ⟨hdiv, hmod⟩ := w.same_register halign hi
      have hlt : offset % 4 + i < 4 := by
        rw [← hmod]
        omega
      rw [byteAt, byteAt, writableAt, hdiv, hmod, ConfigSpace.write]
      simp only [Function.update_self]
      rw [byteOf_merge _ _ _ hlt, byteOf_splice_inside _ _ (by omega) hlt]
    · rw [byteAt, byteAt, ConfigSpace.write]
      simp only
      by_cases hplace : s.place b d f (o / 4 * 4) = s.place bus device function (offset / 4 * 4)
      · -- another byte of the same register
        obtain ⟨rfl, rfl, rfl, hregister⟩ := hhas.place_inj h (by omega) (by omega) hplace
        rw [hplace, Function.update_self, byteOf_merge _ _ _ (by omega), byteOf_splice_outside _ _ (by omega) (by omega),
          merge_self]
      · rw [Function.update_of_ne hplace]

theorem mapped_of_littleEndian (hle : LittleEndian w s bus device function offset) : s.region ≠ none := by
  intro hnone
  obtain ⟨v, hrun, -⟩ := hle.read ⟨fun _ => 0, fun _ => 0⟩
  exact w.locate_ne_none hrun (locate_of_unmapped hnone)

theorem low_of_littleEndian (hs : s.Sound) (h : s.Has bus device function) (hoffset : offset < 4096)
    (halign : w.bytes ∣ offset) (hle : LittleEndian w s bus device function offset) : offset < 256 := by
  by_contra hhigh
  -- all ones in the register at the offset, and nothing where it is looked for
  obtain ⟨v, hrun, hbytes⟩ := hle.read
    ⟨Function.update (fun _ => 0) (s.place bus device function (offset / 4 * 4)) (BitVec.allOnes 32), fun _ => 0⟩
  have hne : s.place bus device function (offset % 256 / 4 * 4) ≠ s.place bus device function (offset / 4 * 4) := by
    intro heq
    have := (h.place_inj h (by omega) (by omega) heq).2.2.2
    omega
  rw [w.run_read halign (h.locate_eq hs (mapped_of_littleEndian hle))] at hrun
  simp only [Function.update_of_ne hne, Prod.mk.injEq, Except.ok.injEq, and_true] at hrun
  have hbyte := hbytes 0 (by cases w <;> decide)
  rw [← hrun, Nat.add_zero, byteAt] at hbyte
  simp only [Function.update_self] at hbyte
  have hbit := congrArg (fun x => x.getLsbD 0) hbyte
  simp only [getLsbD_byteOf _ _ (by decide : 0 < 8)] at hbit
  rw [BitVec.getLsbD_allOnes, decide_eq_true (by omega)] at hbit
  simp at hbit

/-- The accessors are little-endian accesses to the bytes of the function exactly at the offsets below 256 of a
segment that is mapped. -/
theorem littleEndian_iff (w : Width) (hs : s.Sound) (h : s.Has bus device function) (hoffset : offset < 4096)
    (halign : w.bytes ∣ offset) :
    LittleEndian w s bus device function offset ↔ s.region ≠ none ∧ offset < 256 := by
  constructor
  · exact fun hle => ⟨mapped_of_littleEndian hle, low_of_littleEndian hs h hoffset halign hle⟩
  · rintro ⟨hregion, hlow⟩
    exact littleEndian_of_low w hs h halign hregion hlow

def oneBus : Segment := ⟨0xE0000000, 0, 0, some ⟨⟨0, 2 ^ 20⟩⟩⟩

theorem oneBus_sound : oneBus.Sound := by
  refine ⟨by decide, fun m hm => ?_⟩
  cases hm
  rfl

theorem littleEndian_oneBus :
    (oneBus.Sound ∧ oneBus.Has 0 31 7 ∧ 0xFE < 4096 ∧ Width.word.bytes ∣ 0xFE) ∧ LittleEndian .word oneBus 0 31 7 0xFE := by
  have hhas : oneBus.Has 0 31 7 := ⟨le_rfl, le_rfl, by decide, by decide⟩
  exact ⟨⟨oneBus_sound, hhas, by decide, by decide⟩,
    (littleEndian_iff .word oneBus_sound hhas (by decide) (by decide)).2 ⟨by decide, by decide⟩⟩

/-- A write to the first extended register overwrites the identity of the function. -/
theorem extended_aliases :
    oneBus.Sound ∧ oneBus.Has 0 0 0 ∧ ¬LittleEndian .dword oneBus 0 0 0 0x100 ∧
    write32 oneBus 0 0 0 0x100 = write32 oneBus 0 0 0 0 := by
  have hhas : oneBus.Has 0 0 0 := ⟨le_rfl, le_rfl, by decide, by decide⟩
  refine ⟨oneBus_sound, hhas, fun h => ?_, rfl⟩
  have hlow := low_of_littleEndian oneBus_sound hhas (by decide) (by decide) h
  revert hlow
  decide

end Accessors

end MaramOS.Pci
