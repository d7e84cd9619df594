import Mathlib.Data.BitVec
import Mathlib.Data.List.GetD
import Mathlib.Logic.Function.Iterate

/-! Cyclic redundancy checks in their reflected form: a register of `w` bits that is
shifted right, with the polynomial folded in whenever a one is shifted out, and fed
one byte at a time, which is the same as bit by bit. The register is linear in what it
is fed, and when the top bit of the polynomial is set nothing that is in it is ever
forgotten, so that two texts that differ within `w` consecutive bits leave different
remainders. -/

namespace Crc

open List

open BitVec (eq_of_getLsbD_eq getLsbD_xor getLsbD_ushiftRight getLsbD_of_ge getLsbD_setWidth)

variable {w : ℕ} (poly : BitVec w) {x : BitVec w}

def shift (x : BitVec w) : BitVec w := if x.getLsbD 0 then (x >>> 1) ^^^ poly else x >>> 1

theorem shift_xor (x y : BitVec w) : shift poly (x ^^^ y) = shift poly x ^^^ shift poly y := by
  unfold shift
  simp only [getLsbD_xor, BitVec.ushiftRight_xor_distrib]
  cases x.getLsbD 0 <;> cases y.getLsbD 0
  · rfl
  · exact BitVec.xor_assoc _ _ _
  · show x >>> 1 ^^^ y >>> 1 ^^^ poly = x >>> 1 ^^^ poly ^^^ y >>> 1
    ac_rfl
  · show x >>> 1 ^^^ y >>> 1 = (x >>> 1 ^^^ poly) ^^^ (y >>> 1 ^^^ poly)
    rw [BitVec.xor_comm (y >>> 1), BitVec.xor_assoc, ← BitVec.xor_assoc poly poly, BitVec.xor_self,
      BitVec.zero_xor]

theorem shift_of_even (h : x.getLsbD 0 = false) : shift poly x = x >>> 1 := by
  rw [shift, h]
  rfl

theorem shift_ne_zero (hpoly : poly.msb = true) (h : x ≠ 0#w) : shift poly x ≠ 0#w := by
  intro hzero
  cases hlow : x.getLsbD 0 with
  | true =>
    rw [shift, hlow, if_pos rfl] at hzero
    have htop : ((x >>> 1) ^^^ poly).msb = (0#w).msb := congrArg BitVec.msb hzero
    rw [BitVec.msb_xor, hpoly, BitVec.msb_ushiftRight] at htop
    simp at htop
  | false =>
    rw [shift_of_even poly hlow] at hzero
    refine h (eq_of_getLsbD_eq fun i hi => ?_)
    cases i with
    | zero => simpa using hlow
    | succ i =>
      have hbit := congrArg (fun y => y.getLsbD i) hzero
      simpa [add_comm] using hbit

def shifts (n : ℕ) : BitVec w → BitVec w := (shift poly)^[n]

theorem shifts_succ (n : ℕ) (x : BitVec w) : shifts poly (n + 1) x = shifts poly n (shift poly x) := rfl

theorem shifts_add (m n : ℕ) (x : BitVec w) : shifts poly (m + n) x = shifts poly m (shifts poly n x) :=
  Function.iterate_add_apply _ m n x

theorem shifts_xor (n : ℕ) (x y : BitVec w) :
    shifts poly n (x ^^^ y) = shifts poly n x ^^^ shifts poly n y := by
  induction n generalizing x y with
  | zero => rfl
  | succ n ih => rw [shifts_succ, shift_xor, ih, ← shifts_succ, ← shifts_succ]

theorem shifts_ne_zero (hpoly : poly.msb = true) (n : ℕ) (h : x ≠ 0#w) :
    shifts poly n x ≠ 0#w := by
  induction n generalizing x with
  | zero => exact h
  | succ n ih => exact ih (shift_ne_zero poly hpoly h)

theorem shifts_zero (n : ℕ) : shifts poly n 0#w = 0#w := by
  induction n with
  | zero => rfl
  | succ n ih => rw [shifts_succ, shift_of_even poly (by simp), BitVec.zero_ushiftRight, ih]

theorem shifts_of_low (n : ℕ) (h : ∀ i < n, x.getLsbD i = false) :
    shifts poly n x = x >>> n := by
  induction n generalizing x with
  | zero => simp [shifts]
  | succ n ih =>
    have hshift : shift poly x = x >>> 1 := shift_of_even poly (h 0 (by omega))
    rw [shifts_succ, hshift, ih, ← BitVec.shiftRight_add, Nat.add_comm]
    intro i hi
    rw [getLsbD_ushiftRight]
    exact h (1 + i) (by omega)

def feed (x : BitVec w) (b : BitVec 8) : BitVec w := shifts poly 8 (x ^^^ b.setWidth w)

theorem feed_eq_table (x : BitVec w) (b : BitVec 8) :
    feed poly x b = (x >>> 8) ^^^ shifts poly 8 ((x ^^^ b.setWidth w) &&& 255#w) := by
  let y := x ^^^ b.setWidth w
  have hmask : ∀ i, (255#w).getLsbD i = (decide (i < w) && decide (i < 8)) := fun i => by
    rw [BitVec.getLsbD_ofNat, show 255 = 2 ^ 8 - 1 from rfl, Nat.testBit_two_pow_sub_one]
  have hsplit : y = (y &&& 255#w) ^^^ (y &&& ~~~255#w) := by
    refine eq_of_getLsbD_eq fun i hi => ?_
    simp only [getLsbD_xor, BitVec.getLsbD_and, BitVec.getLsbD_not, hmask, hi, decide_true, Bool.true_and]
    cases y.getLsbD i <;> cases decide (i < 8) <;> rfl
  have hlow : ∀ i < 8, (y &&& ~~~255#w).getLsbD i = false := fun i hi => by
    simp [BitVec.getLsbD_not, hmask, hi]
  have hhigh : (y &&& ~~~255#w) >>> 8 = x >>> 8 := by
    refine eq_of_getLsbD_eq fun i _ => ?_
    have hb : b.getLsbD (8 + i) = false := getLsbD_of_ge b _ (by omega)
    have hy : y.getLsbD (8 + i) = x.getLsbD (8 + i) := by
      rw [getLsbD_xor, getLsbD_setWidth, hb, Bool.and_false, Bool.xor_false]
    simp only [getLsbD_ushiftRight, BitVec.getLsbD_and, BitVec.getLsbD_not, hmask, hy]
    rcases lt_or_ge (8 + i) w with hlt | hge
    · simp [hlt]
    · simp [getLsbD_of_ge x _ hge]
  calc feed poly x b = shifts poly 8 ((y &&& 255#w) ^^^ (y &&& ~~~255#w)) := by rw [← hsplit]; rfl
    _ = shifts poly 8 (y &&& 255#w) ^^^ (x >>> 8) := by rw [shifts_xor, shifts_of_low poly 8 hlow, hhigh]
    _ = (x >>> 8) ^^^ shifts poly 8 (y &&& 255#w) := BitVec.xor_comm _ _

theorem low_bit (x : BitVec w) : (x &&& 1#w != 0#w) = x.getLsbD 0 := by
  cases hlow : x.getLsbD 0 with
  | false => simp [BitVec.and_one_eq_setWidth_ofBool_getLsbD, hlow]
  | true =>
    have hbit : (x &&& 1#w).getLsbD 0 = true := by simp [hlow, BitVec.lt_of_getLsbD hlow]
    refine bne_iff_ne.2 fun hzero => ?_
    rw [hzero] at hbit
    simp at hbit

theorem foldl_eq_shifts {α β : Type} (bits : α → BitVec w) {f : α → α} (hf : ∀ x, bits (f x) = shift poly (bits x))
    (l : List β) (x : α) : bits (l.foldl (fun x _ => f x) x) = shifts poly l.length (bits x) := by
  induction l generalizing x with
  | nil => rfl
  | cons _ l ih => rw [foldl_cons, ih, hf, length_cons, shifts_succ]

section Bitwise

def feedBit (x : BitVec w) (b : Bool) : BitVec w := if x.getLsbD 0 ^^ b then (x >>> 1) ^^^ poly else x >>> 1

/-- The bits of a byte in the order in which a reflected check takes them. -/
def bitsOf (b : BitVec 8) : List Bool := (List.range 8).map b.getLsbD

/-- The check of a text as it is defined: the register starts at `init`, takes the text bit by bit, and is
combined with `xorOut` at the end. -/
def bitwise (init xorOut : BitVec w) (text : List (BitVec 8)) : BitVec w :=
  (text.flatMap bitsOf).foldl (feedBit poly) init ^^^ xorOut

theorem shift_feedBit (x y : BitVec w) : shift poly (x ^^^ y) = feedBit poly x (y.getLsbD 0) ^^^ (y >>> 1) := by
  unfold shift feedBit
  rw [getLsbD_xor, BitVec.ushiftRight_xor_distrib]
  split_ifs
  · ac_rfl
  · rfl

theorem shifts_feedBit (n : ℕ) (x y : BitVec w) :
    shifts poly n (x ^^^ y) = ((List.range n).map y.getLsbD).foldl (feedBit poly) x ^^^ (y >>> n) := by
  induction n generalizing x y with
  | zero => simp [shifts]
  | succ n ih =>
    have hbits : (List.range n).map (y >>> 1).getLsbD = (List.range n).map (y.getLsbD ∘ Nat.succ) :=
      map_congr_left fun i _ => by rw [getLsbD_ushiftRight, Function.comp, Nat.add_comm 1 i]
    rw [shifts_succ, shift_feedBit, ih, hbits, range_succ_eq_map, map_cons, map_map, foldl_cons,
      ← BitVec.shiftRight_add, Nat.add_comm 1 n]

theorem feed_eq_bits (hw : 8 ≤ w) (x : BitVec w) (b : BitVec 8) :
    feed poly x b = (bitsOf b).foldl (feedBit poly) x := by
  have hbits : (List.range 8).map (b.setWidth w).getLsbD = bitsOf b :=
    map_congr_left fun i hi => by
      rw [getLsbD_setWidth, decide_eq_true (lt_of_lt_of_le (mem_range.1 hi) hw), Bool.true_and]
  have hrest : b.setWidth w >>> 8 = 0#w := by
    refine eq_of_getLsbD_eq fun i _ => ?_
    rw [getLsbD_ushiftRight, getLsbD_setWidth, getLsbD_of_ge b _ (by omega), Bool.and_false,
      BitVec.getLsbD_zero]
  rw [feed, shifts_feedBit, hbits, hrest, BitVec.xor_zero]

theorem foldl_feed_eq_bits (hw : 8 ≤ w) (text : List (BitVec 8)) (x : BitVec w) :
    text.foldl (feed poly) x = (text.flatMap bitsOf).foldl (feedBit poly) x := by
  induction text generalizing x with
  | nil => rfl
  | cons b text ih => rw [foldl_cons, ih, feed_eq_bits poly hw, flatMap_cons, foldl_append]

end Bitwise

theorem feed_xor (x y : BitVec w) (b c : BitVec 8) :
    feed poly (x ^^^ y) (b ^^^ c) = feed poly x b ^^^ feed poly y c := by
  unfold feed
  rw [← shifts_xor, BitVec.setWidth_xor]
  congr 1
  ac_rfl

theorem foldl_feed_xor (bs cs : List (BitVec 8)) (h : bs.length = cs.length) (x y : BitVec w) :
    bs.foldl (feed poly) x ^^^ cs.foldl (feed poly) y =
      (zipWith (· ^^^ ·) bs cs).foldl (feed poly) (x ^^^ y) := by
  induction bs generalizing cs x y with
  | nil =>
    obtain rfl : cs = [] := length_eq_zero_iff.mp h.symm
    rfl
  | cons b bs ih =>
    cases cs with
    | nil => simp at h
    | cons c cs =>
      rw [foldl_cons, foldl_cons, ih cs (by simpa using h), zipWith_cons_cons, foldl_cons,
        feed_xor]

/-- Feeding zeros to a register that holds something leaves something in it, and an
empty register empty. -/
theorem foldl_feed_zeros (hpoly : poly.msb = true) (bs : List (BitVec 8)) (h : ∀ b ∈ bs, b = 0#8)
    (x : BitVec w) : bs.foldl (feed poly) x = 0#w ↔ x = 0#w := by
  induction bs generalizing x with
  | nil => rfl
  | cons b bs ih =>
    obtain rfl : b = 0#8 := h b (by simp)
    rw [foldl_cons, ih fun c hc => h c (by simp [hc]), feed, BitVec.setWidth_zero, BitVec.xor_zero]
    refine ⟨fun hzero => ?_, fun hx => hx ▸ shifts_zero poly 8⟩
    by_contra hx
    exact shifts_ne_zero poly hpoly 8 hx hzero

def pack : List (BitVec 8) → BitVec w
  | [] => 0#w
  | b :: bs => b.setWidth w ^^^ (pack bs <<< 8)

theorem getLsbD_pack (bs : List (BitVec 8)) (i : ℕ) (hi : i < w) :
    (pack bs : BitVec w).getLsbD i = (bs.getD (i / 8) 0#8).getLsbD (i % 8) := by
  induction bs generalizing i with
  | nil => simp [pack]
  | cons b bs ih =>
    rw [pack, getLsbD_xor, BitVec.getLsbD_shiftLeft, getLsbD_setWidth]
    rcases lt_or_ge i 8 with h8 | h8
    · have hdiv : i / 8 = 0 := by omega
      have hmod : i % 8 = i := by omega
      simp [hi, h8, hdiv, hmod]
    · have hdiv : i / 8 = (i - 8) / 8 + 1 := by omega
      have hmod : i % 8 = (i - 8) % 8 := by omega
      have hb : b.getLsbD i = false := getLsbD_of_ge b i h8
      rw [ih (i - 8) (by omega), hb, hdiv, hmod]
      simp [hi, h8]

theorem foldl_feed_pack (bs : List (BitVec 8)) (h : 8 * bs.length ≤ w) (x : BitVec w) :
    bs.foldl (feed poly) x = shifts poly (8 * bs.length) (x ^^^ pack bs) := by
  induction bs generalizing x with
  | nil => simp [pack, shifts]
  | cons b bs ih =>
    rw [length_cons] at h
    have hlow : ∀ i < 8, ((pack bs : BitVec w) <<< 8).getLsbD i = false := fun i hi => by simp [hi]
    -- nothing is lost above, since the remaining bytes leave room for eight more bits
    have hhigh : ((pack bs : BitVec w) <<< 8) >>> 8 = pack bs := by
      refine eq_of_getLsbD_eq fun i hi => ?_
      rw [getLsbD_ushiftRight, BitVec.getLsbD_shiftLeft, getLsbD_pack bs i hi]
      rcases lt_or_ge (8 + i) w with hlt | hge
      · simp [hlt, getLsbD_pack bs i hi]
      · rw [getD_eq_default _ _ (by omega : bs.length ≤ i / 8)]
        simp
        omega
    have hsplit : shifts poly 8 (x ^^^ pack (b :: bs)) = feed poly x b ^^^ pack bs := by
      rw [pack, ← BitVec.xor_assoc, shifts_xor, shifts_of_low poly 8 hlow, hhigh]
      rfl
    rw [foldl_cons, ih (by omega), ← hsplit, ← shifts_add, length_cons, Nat.mul_succ]

theorem pack_ne_zero {bs : List (BitVec 8)} (h : 8 * bs.length ≤ w) (hne : ∃ b ∈ bs, b ≠ 0#8) :
    (pack bs : BitVec w) ≠ 0#w := by
  obtain ⟨b, hb, hnz⟩ := hne
  intro hzero
  obtain ⟨k, hk, rfl⟩ := getElem_of_mem hb
  refine hnz (eq_of_getLsbD_eq fun j hj => ?_)
  have hbit := getLsbD_pack (w := w) bs (8 * k + j) (by omega)
  have hdiv : (8 * k + j) / 8 = k := by omega
  have hmod : (8 * k + j) % 8 = j := by omega
  rw [hzero, hdiv, hmod, getD_eq_getElem _ _ hk] at hbit
  simpa using hbit.symm

/-- **Burst errors are seen**: bytes that are all zero but for a stretch that fits the
register, and not all zero there, do not leave the register empty. -/
theorem burst_ne_zero (hpoly : poly.msb = true) (before burst after : List (BitVec 8))
    (hbefore : ∀ b ∈ before, b = 0#8) (hafter : ∀ b ∈ after, b = 0#8) (hfits : 8 * burst.length ≤ w)
    (hburst : ∃ b ∈ burst, b ≠ 0#8) : (before ++ burst ++ after).foldl (feed poly) 0#w ≠ 0#w := by
  have hstart : before.foldl (feed poly) 0#w = 0#w := (foldl_feed_zeros poly hpoly before hbefore _).mpr rfl
  rw [foldl_append, foldl_append, hstart, foldl_feed_pack poly burst hfits, BitVec.zero_xor, ne_eq,
    foldl_feed_zeros poly hpoly after hafter]
  exact shifts_ne_zero poly hpoly _ (pack_ne_zero hfits hburst)

end Crc
