import MaramOS.Spec.Format

/-! Every on-disk structure reads back as it was written, provided its numbers
fit their fields; and every number read from disk fits. -/

namespace MaramOS

theorem leNumber_lt (data : ℕ → UInt8) (off k : ℕ) : leNumber data off k < 256 ^ k := by
  induction k with
  | zero => exact Nat.one_pos
  | succ k ih =>
    have hbyte : (data (off + k)).toNat < 256 := UInt8.toNat_lt _
    rw [leNumber, pow_succ]
    nlinarith

theorem leNumber_of_bytes (data : ℕ → UInt8) (off x k : ℕ) (h : ∀ i < k, data (off + i) = leByte x i) :
    leNumber data off k = x % 256 ^ k := by
  induction k with
  | zero => simp [leNumber, Nat.mod_one]
  | succ k ih =>
    rw [leNumber, ih (fun i hi => h i (by omega)), h k (by omega), Nat.mod_pow_succ, leByte,
      UInt8.toNat_ofNat']
    ring

theorem le_eq_leNumber (s : Sector) (off k : ℕ) : s.le off k = leNumber s.byte off k := by
  induction k with
  | zero => rfl
  | succ k ih => rw [Sector.le, leNumber, ih]

theorem le_lt (s : Sector) (off k : ℕ) : s.le off k < 256 ^ k := by
  rw [le_eq_leNumber]
  exact leNumber_lt s.byte off k

theorem le_of_bytes (s : Sector) (off x k : ℕ) (h : ∀ i < k, s.byte (off + i) = leByte x i) :
    s.le off k = x % 256 ^ k := by
  rw [le_eq_leNumber]
  exact leNumber_of_bytes s.byte off x k h

theorem le_eq_of_bytes (s : Sector) (off k x : ℕ) (hx : x < 256 ^ k)
    (h : ∀ i < k, s.byte (off + i) = leByte x i) : s.le off k = x := by
  rw [le_of_bytes s off x k h, Nat.mod_eq_of_lt hx]

def LinkPointer.Fits (l : LinkPointer) : Prop := l.start < 2 ^ 64 ∧ l.size < 2 ^ 64

theorem LinkPointer.fits_decode (s : Sector) (off : ℕ) : (LinkPointer.decode s off).Fits :=
  ⟨le_lt s off 8, le_lt s (off + 8) 8⟩

theorem LinkPointer.decode_of_bytes (s : Sector) (off : ℕ) (l : LinkPointer) (hl : l.Fits)
    (h : ∀ j < 16, s.byte (off + j) = l.byte j) : LinkPointer.decode s off = l := by
  have h1 : s.le off 8 = l.start := le_eq_of_bytes s off 8 _ hl.1 fun i hi => by
    rw [h i (by omega), LinkPointer.byte, if_pos hi]
  have h2 : s.le (off + 8) 8 = l.size := le_eq_of_bytes s (off + 8) 8 _ hl.2 fun i hi => by
    rw [add_assoc, h (8 + i) (by omega), LinkPointer.byte, if_neg (by omega), Nat.add_sub_cancel_left]
  unfold LinkPointer.decode
  rw [h1, h2]

theorem byte_of_lt (s : Sector) {i : ℕ} (h : i < 512) : s.byte i = s ⟨i, h⟩ := dif_pos h

theorem LinkBlock.decode_encode (b : LinkBlock) (hb : ∀ k, (b k).Fits) :
    LinkBlock.decode b.encode = b := by
  funext k
  refine LinkPointer.decode_of_bytes _ _ _ (hb k) fun j hj => ?_
  have hk := k.isLt
  rw [byte_of_lt _ (by omega)]
  have hdiv : (16 * k.val + j) / 16 = k.val := by omega
  have hmod : (16 * k.val + j) % 16 = j := by omega
  simp [LinkBlock.encode, hdiv, hmod]

namespace DirBlock

theorem encode_entry_byte (b : DirBlock) (k : Fin 8) (j : ℕ) (hj : j < 53) :
    b.encode.byte (8 + 53 * k.val + j) = (b.entries k).byte j := by
  have hk := k.isLt
  have hlt : 8 + 53 * k.val + j < 512 := by omega
  have hdiv : (8 + 53 * k.val + j - 8) / 53 = k.val := by omega
  have hmod : (8 + 53 * k.val + j - 8) % 53 = j := by omega
  rw [byte_of_lt _ hlt]
  simp only [encode]
  rw [if_neg (by omega), dif_pos (by omega)]
  simp [hdiv, hmod]

theorem entries_decode_encode (b : DirBlock) (k : Fin 8) (h : (b.entries k).link.Fits) :
    (decode b.encode).entries k = b.entries k := by
  show DirEntry.decode b.encode (8 + 53 * k.val) = b.entries k
  have hname : ∀ i : Fin 36, b.encode.byte (8 + 53 * k.val + i.val) = (b.entries k).name i := by
    intro i
    rw [encode_entry_byte b k i.val (by omega), DirEntry.byte, dif_pos i.isLt]
  have hflags : b.encode.byte (8 + 53 * k.val + 36) = (b.entries k).flags := by
    rw [encode_entry_byte b k 36 (by omega)]
    simp [DirEntry.byte]
  have hlink : LinkPointer.decode b.encode (8 + 53 * k.val + 37) = (b.entries k).link := by
    refine LinkPointer.decode_of_bytes _ _ _ h fun j hj => ?_
    rw [add_assoc, encode_entry_byte b k (37 + j) (by omega), DirEntry.byte, dif_neg (by omega),
      if_neg (by omega), Nat.add_sub_cancel_left]
  unfold DirEntry.decode
  simp only [hname, hflags, hlink]

theorem next_decode_encode (b : DirBlock) (h : b.next.Fits) : (decode b.encode).next = b.next := by
  refine LinkPointer.decode_of_bytes _ _ _ h fun j hj => ?_
  rw [byte_of_lt _ (by omega)]
  simp only [encode]
  rw [if_neg (by omega), dif_neg (by omega), if_pos (by omega), Nat.add_sub_cancel_left]

theorem parent_decode_encode (b : DirBlock) (h : b.parent < 2 ^ 64) : (decode b.encode).parent = b.parent := by
  refine le_eq_of_bytes _ _ _ _ h fun i hi => ?_
  rw [byte_of_lt _ (by omega)]
  simp only [encode]
  rw [if_pos (by omega), Nat.zero_add]

theorem fits_decode_entry (s : Sector) (k : Fin 8) : ((decode s).entries k).link.Fits :=
  LinkPointer.fits_decode s _

end DirBlock

/-- The numeric fields of a superblock fit their widths. -/
structure SuperBlock.Fits (sb : SuperBlock) : Prop where
  version : sb.version < 2 ^ 32
  checksum : sb.checksum < 2 ^ 64
  bitmapStart : sb.bitmapStart < 2 ^ 64
  dataStart : sb.dataStart < 2 ^ 64
  dataEnd : sb.dataEnd < 2 ^ 64

namespace SuperBlock

theorem decode_encode (sb : SuperBlock) (h : sb.Fits) : decode sb.encode = sb := by
  have hmagic : ∀ i : Fin 8, sb.encode.byte i.val = sb.magic i := fun i => by
    rw [byte_of_lt _ (by omega)]
    simp [encode]
  have hversion : sb.encode.le 8 4 = sb.version := le_eq_of_bytes _ _ _ _ h.version fun i hi => by
    rw [byte_of_lt _ (by omega)]
    simp only [encode]
    rw [dif_neg (by omega), if_pos (by omega), Nat.add_sub_cancel_left]
  have hreserved : ∀ i : Fin 4, sb.encode.byte (12 + i.val) = sb.reserved i := fun i => by
    rw [byte_of_lt _ (by omega)]
    simp only [encode]
    rw [dif_neg (by omega), if_neg (by omega), dif_pos (by omega)]
    simp
  have hflags : sb.encode.le 16 8 = sb.flags.toNat :=
    le_eq_of_bytes _ _ _ _ (UInt64.toNat_lt _) fun i hi => by
      rw [byte_of_lt _ (by omega)]
      simp only [encode]
      rw [dif_neg (by omega), if_neg (by omega), dif_neg (by omega), if_pos (by omega),
        Nat.add_sub_cancel_left]
  have hchecksum : sb.encode.le 24 8 = sb.checksum := le_eq_of_bytes _ _ _ _ h.checksum fun i hi => by
    rw [byte_of_lt _ (by omega)]
    simp only [encode]
    rw [dif_neg (by omega), if_neg (by omega), dif_neg (by omega), if_neg (by omega),
      if_pos (by omega), Nat.add_sub_cancel_left]
  have hbitmap : sb.encode.le 32 8 = sb.bitmapStart := le_eq_of_bytes _ _ _ _ h.bitmapStart fun i hi => by
    rw [byte_of_lt _ (by omega)]
    simp only [encode]
    rw [dif_neg (by omega), if_neg (by omega), dif_neg (by omega), if_neg (by omega),
      if_neg (by omega), if_pos (by omega), Nat.add_sub_cancel_left]
  have hdata : sb.encode.le 40 8 = sb.dataStart := le_eq_of_bytes _ _ _ _ h.dataStart fun i hi => by
    rw [byte_of_lt _ (by omega)]
    simp only [encode]
    rw [dif_neg (by omega), if_neg (by omega), dif_neg (by omega), if_neg (by omega),
      if_neg (by omega), if_neg (by omega), if_pos (by omega), Nat.add_sub_cancel_left]
  have hend : sb.encode.le 48 8 = sb.dataEnd := le_eq_of_bytes _ _ _ _ h.dataEnd fun i hi => by
    rw [byte_of_lt _ (by omega)]
    simp only [encode]
    rw [dif_neg (by omega), if_neg (by omega), dif_neg (by omega), if_neg (by omega),
      if_neg (by omega), if_neg (by omega), if_neg (by omega), if_pos (by omega),
      Nat.add_sub_cancel_left]
  have hpadding : ∀ i : Fin 456, sb.encode.byte (56 + i.val) = sb.padding i := fun i => by
    rw [byte_of_lt _ (by omega)]
    simp only [encode]
    rw [dif_neg (by omega), if_neg (by omega), dif_neg (by omega), if_neg (by omega),
      if_neg (by omega), if_neg (by omega), if_neg (by omega), if_neg (by omega)]
    simp
  unfold decode
  simp only [hmagic, hversion, hreserved, hflags, hchecksum, hbitmap, hdata, hend, hpadding,
    UInt64.ofNat_toNat]

end SuperBlock

end MaramOS
