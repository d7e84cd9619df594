import MaramOS.Lib.Crc
import MaramOS.Spec.Gpt
import MaramOS.Spec.Superblock

/-! The checksums of `helpers/crc.rs`. Both take a byte with one look into a table, and
this is the shift register that takes the same byte bit by bit. -/

namespace MaramOS

theorem crc32Table_eq (i : UInt32) :
    (crc32Table i).toBitVec = Crc.shifts CRC32_POLYNOMIAL.toBitVec 8 i.toBitVec := by
  refine Crc.foldl_eq_shifts CRC32_POLYNOMIAL.toBitVec UInt32.toBitVec (fun x => ?_) (List.range 8) i
  have hlow : (x &&& 1 != 0) = x.toBitVec.getLsbD 0 := by
    rw [← Crc.low_bit, Bool.eq_iff_iff, bne_iff_ne, bne_iff_ne, ne_eq, ← UInt32.toBitVec_inj]
    rfl
  rw [Crc.shift, hlow]
  split_ifs <;> rfl

theorem crc64Table_eq (i : UInt64) :
    (crc64Table i).toBitVec = Crc.shifts CRC64_POLYNOMIAL.toBitVec 8 i.toBitVec := by
  refine Crc.foldl_eq_shifts CRC64_POLYNOMIAL.toBitVec UInt64.toBitVec (fun x => ?_) (List.range 8) i
  have hlow : (x &&& 1 != 0) = x.toBitVec.getLsbD 0 := by
    rw [← Crc.low_bit, Bool.eq_iff_iff, bne_iff_ne, bne_iff_ne, ne_eq, ← UInt64.toBitVec_inj]
    rfl
  rw [Crc.shift, hlow]
  split_ifs <;> rfl

theorem crc32Step_eq (crc : UInt32) (byte : UInt8) :
    (crc32Step crc byte).toBitVec = Crc.feed CRC32_POLYNOMIAL.toBitVec crc.toBitVec byte.toBitVec := by
  rw [Crc.feed_eq_table, crc32Step, UInt32.toBitVec_xor, crc32Table_eq]
  rfl

theorem crc64Step_eq (crc : UInt64) (byte : UInt8) :
    (crc64Step crc byte).toBitVec = Crc.feed CRC64_POLYNOMIAL.toBitVec crc.toBitVec byte.toBitVec := by
  rw [Crc.feed_eq_table, crc64Step, UInt64.toBitVec_xor, crc64Table_eq]
  rfl

theorem foldl_crc32Step (data : List UInt8) (crc : UInt32) :
    (data.foldl crc32Step crc).toBitVec =
      (data.map UInt8.toBitVec).foldl (Crc.feed CRC32_POLYNOMIAL.toBitVec) crc.toBitVec := by
  rw [List.foldl_map]
  exact (List.foldl_hom UInt32.toBitVec fun crc byte => (crc32Step_eq crc byte).symm).symm

theorem foldl_crc64Step (data : List UInt8) (crc : UInt64) :
    (data.foldl crc64Step crc).toBitVec =
      (data.map UInt8.toBitVec).foldl (Crc.feed CRC64_POLYNOMIAL.toBitVec) crc.toBitVec := by
  rw [List.foldl_map]
  exact (List.foldl_hom UInt64.toBitVec fun crc byte => (crc64Step_eq crc byte).symm).symm

/-- Both checksums are the ones of their standards, taken bit by bit from the text. -/
theorem crc_eq_bitwise (data : List UInt8) :
    (crc32 data).toBitVec =
      Crc.bitwise 0xEDB88320#32 (BitVec.allOnes 32) (BitVec.allOnes 32) (data.map UInt8.toBitVec) ∧
    (crc64 data).toBitVec =
      Crc.bitwise 0xC96C5795D7870F42#64 (BitVec.allOnes 64) (BitVec.allOnes 64) (data.map UInt8.toBitVec) := by
  constructor
  · rw [crc32, UInt32.toBitVec_xor, foldl_crc32Step, Crc.foldl_feed_eq_bits _ (by decide)]
    rfl
  · rw [crc64, UInt64.toBitVec_xor, foldl_crc64Step, Crc.foldl_feed_eq_bits _ (by decide)]
    rfl

/-- The check value of CRC-32 is that of the text `123456789`. -/
example : crc32 [49, 50, 51, 52, 53, 54, 55, 56, 57] = 0xCBF43926 := by decide +kernel

end MaramOS
