import MaramOS.Proofs.Crc
import MaramOS.Proofs.Mount

/-! The two copies of the superblock. The checksum of a copy sees every error that
stays within eight consecutive bytes, so that a copy damaged in this way is refused and
the other one is read. -/

namespace MaramOS

open List Prog
open SuperBlock (decode)

section Checksum

theorem remainder_of_crc64_eq {bs cs : List UInt8} (hlen : bs.length = cs.length) (h : crc64 bs = crc64 cs) :
    (zipWith (· ^^^ ·) (bs.map UInt8.toBitVec) (cs.map UInt8.toBitVec)).foldl
      (Crc.feed CRC64_POLYNOMIAL.toBitVec) 0#64 = 0#64 := by
  have hfold : bs.foldl crc64Step 0xFFFFFFFFFFFFFFFF = cs.foldl crc64Step 0xFFFFFFFFFFFFFFFF := by
    simpa [crc64] using h
  have hbits := congrArg UInt64.toBitVec hfold
  rw [foldl_crc64Step, foldl_crc64Step] at hbits
  have hdiff := Crc.foldl_feed_xor CRC64_POLYNOMIAL.toBitVec (bs.map UInt8.toBitVec) (cs.map UInt8.toBitVec)
    (by simpa using hlen) (0xFFFFFFFFFFFFFFFF : UInt64).toBitVec (0xFFFFFFFFFFFFFFFF : UInt64).toBitVec
  rw [hbits, BitVec.xor_self, BitVec.xor_self] at hdiff
  exact hdiff.symm

theorem crc64_ne_of_burst {n p : ℕ} {s t : Fin n → UInt8}
    (hsame : ∀ i : Fin n, i.val < p ∨ p + 8 ≤ i.val → s i = t i) (hne : s ≠ t) :
    crc64 (ofFn s) ≠ crc64 (ofFn t) := by
  intro h
  have hzero := remainder_of_crc64_eq (by simp) h
  let diff : List (BitVec 8) := ofFn fun i => (s i).toBitVec ^^^ (t i).toBitVec
  have hdiff : zipWith (· ^^^ ·) ((ofFn s).map UInt8.toBitVec) ((ofFn t).map UInt8.toBitVec) =
      diff := by
    refine ext_getElem (by simp [diff]) fun i _ _ => ?_
    simp [diff]
  have hget : ∀ i (hi : i < n), i < p ∨ p + 8 ≤ i → diff[i]? = some 0#8 := fun i hi hout => by
    rw [List.getElem?_eq_getElem (by simpa [diff] using hi)]
    simp [diff, hsame ⟨i, hi⟩ hout]
  have hlen : diff.length = n := length_ofFn
  have hcut : diff.take p ++ (diff.drop p).take 8 ++ diff.drop (p + 8) = diff := by
    rw [append_assoc, ← drop_drop, take_append_drop, take_append_drop]
  have hbefore : ∀ b ∈ diff.take p, b = 0#8 := by
    intro b hb
    obtain ⟨i, hi, rfl⟩ := getElem_of_mem hb
    rw [length_take] at hi
    have hout := hget i (by omega) (.inl (by omega))
    rw [List.getElem?_eq_getElem (by omega), Option.some_inj] at hout
    rw [getElem_take, hout]
  have hafter : ∀ b ∈ diff.drop (p + 8), b = 0#8 := by
    intro b hb
    obtain ⟨i, hi, rfl⟩ := getElem_of_mem hb
    rw [length_drop] at hi
    have hout := hget (p + 8 + i) (by omega) (.inr (by omega))
    rw [List.getElem?_eq_getElem (by omega), Option.some_inj] at hout
    rw [getElem_drop, hout]
  have hburst : ∃ b ∈ (diff.drop p).take 8, b ≠ 0#8 := by
    obtain ⟨i, hi⟩ := Function.ne_iff.mp hne
    have hwin : p ≤ i.val ∧ i.val < p + 8 := by
      by_contra hout
      exact hi (hsame i (by omega))
    have hlt : i.val < diff.length := by omega
    refine ⟨diff[i.val], ?_, fun hb => ?_⟩
    · refine List.mem_iff_getElem?.mpr ⟨i.val - p, ?_⟩
      rw [List.getElem?_take_of_lt (by omega), List.getElem?_drop, Nat.add_sub_cancel' hwin.1,
        List.getElem?_eq_getElem hlt]
    · have hxor : (s i).toBitVec ^^^ (t i).toBitVec = 0#8 := by simpa [diff] using hb
      exact hi (UInt8.toBitVec_inj.mp (BitVec.xor_eq_zero_iff.mp hxor))
  rw [hdiff, ← hcut] at hzero
  have hfits : 8 * ((diff.drop p).take 8).length ≤ 64 := by
    rw [length_take]
    omega
  exact Crc.burst_ne_zero _ (by decide) _ _ _ hbefore hafter hfits hburst hzero

end Checksum

section Copies

theorem leByte_le (s : Sector) (off k : ℕ) {i : ℕ} (hi : i < k) : leByte (s.le off k) i = s.byte (off + i) := by
  induction k with
  | zero => omega
  | succ k ih =>
    rw [Sector.le]
    rcases Nat.lt_succ_iff_lt_or_eq.mp hi with hlt | rfl
    · rw [← ih hlt, leByte, leByte]
      obtain ⟨j, rfl⟩ := Nat.exists_eq_add_of_lt hlt
      have hshift : (s.byte (off + (i + j + 1))).toNat * 256 ^ (i + j + 1) =
          256 ^ i * (256 * ((s.byte (off + (i + j + 1))).toNat * 256 ^ j)) := by ring
      rw [hshift, Nat.add_mul_div_left _ _ (by positivity)]
      apply UInt8.toNat_inj.mp
      simp [UInt8.toNat_ofNat']
    · rw [leByte, Nat.add_mul_div_right _ _ (by positivity), Nat.div_eq_of_lt (le_lt s off i), Nat.zero_add]
      exact UInt8.ofNat_toNat

/-- The sector as `check_sb` sums it, its checksum field set to zero. -/
def Sector.unsummed (s : Sector) : Sector := fun i => if 24 ≤ i.val ∧ i.val < 32 then 0 else s i

theorem encode_unsummed (s : Sector) : { decode s with checksum := 0 }.encode = s.unsummed := by
  funext i
  have hi := i.isLt
  have hbyte : s.byte i.val = s i := byte_of_lt s hi
  simp only [SuperBlock.encode, decode, Sector.unsummed]
  have hle : ∀ off k, off ≤ i.val → i.val < off + k → leByte (s.le off k) (i.val - off) = s i := by
    intro off k hlo hhi
    rw [leByte_le s off k (by omega), Nat.add_sub_cancel' hlo, hbyte]
  have hraw : ∀ off, off ≤ i.val → s.byte (off + (i.val - off)) = s i := by
    intro off hlo
    rw [Nat.add_sub_cancel' hlo, hbyte]
  have hflags : (UInt64.ofNat (s.le 16 8)).toNat = s.le 16 8 := by
    rw [UInt64.toNat_ofNat']
    exact Nat.mod_eq_of_lt (le_lt s 16 8)
  rw [hflags]
  -- one field after the other
  by_cases h8 : i.val < 8
  · rw [dif_pos h8, if_neg (by omega)]
    exact hbyte
  by_cases h12 : i.val < 12
  · rw [dif_neg h8, if_pos h12, if_neg (by omega)]
    exact hle 8 4 (by omega) (by omega)
  by_cases h16 : i.val < 16
  · rw [dif_neg h8, if_neg h12, dif_pos h16, if_neg (by omega)]
    exact hraw 12 (by omega)
  by_cases h24 : i.val < 24
  · rw [dif_neg h8, if_neg h12, dif_neg h16, if_pos h24, if_neg (by omega)]
    exact hle 16 8 (by omega) (by omega)
  rw [dif_neg h8, if_neg h12, dif_neg h16, if_neg h24]
  by_cases h32 : i.val < 32
  · rw [if_pos h32, if_pos (by omega)]
    simp [leByte]
  rw [if_neg h32, if_neg (by omega : ¬(24 ≤ i.val ∧ i.val < 32))]
  by_cases h40 : i.val < 40
  · rw [if_pos h40]
    exact hle 32 8 (by omega) (by omega)
  by_cases h48 : i.val < 48
  · rw [if_neg h40, if_pos h48]
    exact hle 40 8 (by omega) (by omega)
  by_cases h56 : i.val < 56
  · rw [if_neg h40, if_neg h48, if_pos h56]
    exact hle 48 8 (by omega) (by omega)
  · rw [if_neg h40, if_neg h48, if_neg h56]
    exact hraw 56 (by omega)

theorem checkSb_decode (s : Sector) :
    checkSb (decode s) = (s.le 24 8 == (crc64 (ofFn s.unsummed)).toNat) := by
  rw [checkSb, getSbChecksum, encode_unsummed]
  rfl

/-- A nonzero error within eight consecutive bytes that are the checksum field or lie outside it. -/
structure Burst (e : Sector) : Prop where
  nonzero : e ≠ Sector.zero
  confined : ∃ p, (p = 24 ∨ p + 8 ≤ 24 ∨ 32 ≤ p ∧ p + 8 ≤ 512) ∧
    ∀ i : Fin 512, i.val < p ∨ p + 8 ≤ i.val → e i = 0

/-- The error changes the bits in which it is not zero. -/
def Sector.damage (s e : Sector) : Sector := fun i => s i ^^^ e i

def Disk.damage (d : Disk) (x : ℕ) (e : Sector) : Disk :=
  ⟨d.sectorCount, d.fits, Function.update d.sectors x ((d.sectors x).damage e)⟩

theorem damage_of_zero (s : Sector) {e : Sector} {i : Fin 512} (h : e i = 0) : s.damage e i = s i := by
  rw [Sector.damage, h, UInt8.xor_zero]

theorem damage_ne (s : Sector) {e : Sector} (h : e ≠ Sector.zero) : ∃ i, e i ≠ 0 ∧ s.damage e i ≠ s i := by
  obtain ⟨i, hi⟩ := Function.ne_iff.mp h
  refine ⟨i, hi, fun hsame => hi ?_⟩
  have hxor : s i ^^^ e i = s i ^^^ 0 := by rw [UInt8.xor_zero]; exact hsame
  exact (UInt8.xor_right_inj _).mp hxor

theorem checkSb_damaged {s e : Sector} (hs : checkSb (decode s) = true) (he : Burst e) :
    checkSb (decode (s.damage e)) = false := by
  obtain ⟨p, hp, hout⟩ := he.confined
  obtain ⟨i, hei, hi⟩ := damage_ne s he.nonzero
  have hin : p ≤ i.val ∧ i.val < p + 8 := by
    by_contra h
    exact hei (hout i (by omega))
  rw [checkSb_decode, beq_iff_eq] at hs
  rw [checkSb_decode, beq_eq_false_iff_ne]
  rcases Decidable.em (p = 24) with rfl | hp24
  · -- the sum is the same and the number it is compared with is not
    have hsum : (s.damage e).unsummed = s.unsummed := by
      funext j
      unfold Sector.unsummed
      split_ifs with hj
      · rfl
      · exact damage_of_zero s (hout j (by omega))
    rw [hsum, ← hs]
    intro hle
    have hbyte := leByte_le (s.damage e) 24 8 (by omega : i.val - 24 < 8)
    rw [hle, leByte_le s 24 8 (by omega), Nat.add_sub_cancel' hin.1, byte_of_lt _ i.isLt, byte_of_lt _ i.isLt] at hbyte
    exact hi hbyte.symm
  · -- the number is the same and the sum is not
    have hfield : (s.damage e).le 24 8 = s.le 24 8 := by
      refine le_eq_of_bytes _ 24 8 _ (le_lt s 24 8) fun j hj => ?_
      rw [leByte_le s 24 8 hj, byte_of_lt _ (by omega), byte_of_lt _ (by omega)]
      exact damage_of_zero s (hout _ (by simp only; omega))
    rw [hfield, hs]
    intro hsum
    refine crc64_ne_of_burst (p := p) (s := s.unsummed) (t := (s.damage e).unsummed) ?_ ?_ (UInt64.toNat_inj.mp hsum)
    · intro j hj
      unfold Sector.unsummed
      rw [damage_of_zero s (hout j hj)]
    · intro hsame
      have hat := congrFun hsame i
      unfold Sector.unsummed at hat
      rw [if_neg (by omega), if_neg (by omega)] at hat
      exact hi hat.symm

theorem getSuperblock_backup {d : Disk} {sb : SuperBlock} (hfits : sb.Fits) (hpos : 0 < d.sectorCount)
    (hprimary : checkSb (decode (d.sectors 0)) = false)
    (hbackup : d.sectors (d.sectorCount - 1) = (sealSb sb).encode) :
    getSuperblock d = .ok (sealSb sb, true) := by
  have hlast : wsub d.sectorCount 1 = d.sectorCount - 1 := by rw [wsub_of_le (by omega)]
  have hread0 : readData d 0 = .ok (d.sectors 0) := Disk.At.read ⟨hpos, rfl⟩
  have hread1 : readData d (d.sectorCount - 1) = .ok (sealSb sb).encode := Disk.At.read ⟨by omega, hbackup⟩
  have hdecode := SuperBlock.decode_encode _ (sealSb_fits hfits)
  rw [getSuperblock, hread0, ok_bind]
  simp only [hprimary, hlast]
  rw [if_neg Bool.false_ne_true, hread1, ok_bind]
  simp only [hdecode]
  rw [if_pos (checkSb_sealSb sb)]
  rfl

/-- After `write_sb`, an error in one of the copies costs nothing: the other one is read. -/
theorem superblock_redundant {sb : SuperBlock} (hsb : sb.Fits) {v : Volume} (hsize : 2 ≤ v.disk.sectorCount) :
    ∃ v', writeSb sb v = (.ok (), v') ∧ v'.disk.sectorCount = v.disk.sectorCount ∧
      ∀ x e, x = 0 ∨ x = v.disk.sectorCount - 1 → Burst e →
        ∃ read backup, getSuperblock (v'.disk.damage x e) = .ok (read, backup) ∧
          read.magic = sb.magic ∧ read.version = sb.version ∧ read.bitmapStart = sb.bitmapStart ∧
          read.dataStart = sb.dataStart ∧ read.dataEnd = sb.dataEnd ∧ (backup = true ↔ x = 0) := by
  obtain ⟨⟨⟩, v', hrun, hcount, -, hfirst, hlast, -⟩ := wp_total (writeSb_spec (v := v) sb (by omega))
  refine ⟨v', hrun, hcount, fun x e hx he => ?_⟩
  have hvalid : checkSb (decode (sealSb sb).encode) = true := by
    rw [SuperBlock.decode_encode _ (sealSb_fits hsb)]
    exact checkSb_sealSb sb
  have hn : (v'.disk.damage x e).sectorCount = v.disk.sectorCount := hcount
  rcases Decidable.em (x = 0) with rfl | hx0
  · refine ⟨sealSb sb, true, getSuperblock_backup hsb (by omega) ?_ ?_, rfl, rfl, rfl, rfl, rfl, by simp⟩
    · simp only [Disk.damage, Function.update_self, hfirst]
      exact checkSb_damaged hvalid he
    · rw [hn]
      simp only [Disk.damage]
      rw [Function.update_of_ne (by omega), hlast]
  · refine ⟨sealSb sb, false, getSuperblock_sealed hsb (by omega) ?_, rfl, rfl, rfl, rfl, rfl, by simp [hx0]⟩
    simp only [Disk.damage]
    rw [Function.update_of_ne (Ne.symm hx0), hfirst]

theorem superblock_redundant_two_sectors :
    let sb : SuperBlock := ⟨SuperBlock.LEMONFS_MAGIC, 1, fun _ => 0xBA, 0, 0, 1, 2, 5, fun _ => 0xBA⟩
    let v : Volume := ⟨⟨2, by decide, fun _ => Sector.zero⟩, ⟨[], 0⟩⟩
    let e : Sector := fun i => if i.val = 3 then 1 else 0
    ∃ v', writeSb sb v = (.ok (), v') ∧
      ∃ read, getSuperblock (v'.disk.damage 0 e) = .ok (read, true) ∧ read.dataEnd = 5 := by
  intro sb v e
  have hsb : sb.Fits := by constructor <;> norm_num [sb]
  have he : Burst e := by
    refine ⟨fun h => ?_, 0, by omega, fun i hi => if_neg (by omega)⟩
    have hat := congrFun h 3
    simp [e, Sector.zero] at hat
  obtain ⟨v', hrun, -, hread⟩ := superblock_redundant hsb (v := v) le_rfl
  obtain ⟨read, backup, hget, -, -, -, -, hend, hbackup⟩ := hread 0 e (.inl rfl) he
  exact ⟨v', hrun, read, by rw [hget, hbackup.mpr rfl], hend⟩

end Copies

end MaramOS
