import MaramOS.Proofs.PciConfig
import MaramOS.Spec.Pci

/-! Base address registers. Probing one leaves the configuration space as it was. What it
finds is right for memory, except that a 32-bit BAR at address zero is taken for an absent
one, and wrong for all I/O BARs, whose size is computed as if its upper half were writable. -/

namespace MaramOS.Pci

open Prog
open BitVec (allOnes getLsbD_setWidth getLsbD_and eq_of_getLsbD_eq getLsbD_or getLsbD_allOnes)

variable {s : Segment} {bus device function offset addr addr' : ℕ} {c : ConfigSpace}

section Probing

theorem ConfigSpace.write_registers (c : ConfigSpace) (a b : ℕ) (x : BitVec 32) :
    (c.write a x).registers b = if b = a then merge (c.writable a) (c.registers a) x else c.registers b := by
  rw [ConfigSpace.write]
  by_cases h : b = a
  · rw [if_pos h, h]
    exact Function.update_self ..
  · rw [if_neg h]
    exact Function.update_of_ne h ..

theorem ConfigSpace.write_writable (c : ConfigSpace) (a : ℕ) (x : BitVec 32) : (c.write a x).writable = c.writable := rfl

theorem ConfigSpace.write_restore (c : ConfigSpace) (a : ℕ) (x : BitVec 32) :
    (c.write a x).write a (c.registers a) = c := by
  have hregisters : ((c.write a x).write a (c.registers a)).registers = c.registers := by
    funext b
    simp only [write_registers, write_writable, if_pos, merge_merge, merge_self]
    split_ifs with h
    · rw [h]
    · rfl
  calc (c.write a x).write a (c.registers a) = ⟨((c.write a x).write a (c.registers a)).registers, c.writable⟩ := rfl
    _ = c := by rw [hregisters]

theorem locate_eq_some (h : locate s bus device function offset = some addr) :
    addr = s.baseAddress / PAGE_SIZE * PAGE_SIZE +
      ((bus - s.startBus) <<< 20 ||| device <<< 15 ||| function <<< 12 ||| (offset &&& 0xFC)) := by
  rw [locate, ecamOffset] at h
  split_ifs at h
  simp only [Segment.register] at h
  cases hregion : s.region with
  | none =>
    rw [hregion] at h
    cases h
  | some m =>
    simp only [hregion] at h
    split_ifs at h
    exact (Option.some_inj.1 h).symm

theorem locate_inj {o o' : ℕ} (h : locate s bus device function o = some addr)
    (h' : locate s bus device function o' = some addr) : o % 256 / 4 * 4 = o' % 256 / 4 * 4 := by
  have heq := (locate_eq_some h).symm.trans (locate_eq_some h')
  have hoffset := congrArg (· % 2 ^ 12) (Nat.add_left_cancel heq)
  have hlow : ∀ n k : ℕ, 12 ≤ k → (n <<< k) % 2 ^ 12 = 0 := fun n k hk => by
    rw [Nat.shiftLeft_eq]
    exact Nat.mod_eq_zero_of_dvd (Dvd.dvd.mul_left (pow_dvd_pow 2 hk) n)
  simp only [Nat.or_mod_two_pow, hlow _ 20 (by omega), hlow _ 15 (by omega), hlow _ 12 (by omega), Nat.zero_or,
    and_regMask] at hoffset
  omega

section

variable (h : locate s bus device function offset = some addr)
include h

theorem run_parseBar32 (c : ConfigSpace) :
    parseBar32 s bus device function offset (c.registers addr) c =
      (.ok ⟨(c.registers addr &&& 0xFFFFFFF0#32).setWidth 64,
        (~~~(merge (c.writable addr) (c.registers addr) (allOnes 32) &&& 0xFFFFFFF0#32) + 1).setWidth 64, true,
          false⟩, c) := by
  rw [parseBar32, run_bind (run_write32 h _ _), run_bind (run_read32 h _), run_bind (run_write32 h _ _),
    ConfigSpace.write_restore, ConfigSpace.write_registers, if_pos rfl]
  rfl

theorem run_parseBarIo (c : ConfigSpace) :
    parseBarIo s bus device function offset (c.registers addr) c =
      (.ok ⟨(c.registers addr &&& 0xFFFC#32).setWidth 64,
        (~~~(merge (c.writable addr) (c.registers addr) (allOnes 32) &&& 0xFFFC#32) + 1).setWidth 64, false, false⟩, c) := by
  rw [parseBarIo, run_bind (run_write32 h _ _), run_bind (run_read32 h _), run_bind (run_write32 h _ _),
    ConfigSpace.write_restore, ConfigSpace.write_registers, if_pos rfl]
  rfl

theorem run_parseBar64 (h' : locate s bus device function (offset + 4) = some addr') (hne : addr ≠ addr')
    (c : ConfigSpace) :
    parseBar64 s bus device function offset (c.registers addr) c =
      (.ok ⟨(((c.registers addr').setWidth 64 <<< 32) ||| (c.registers addr).setWidth 64) &&& ~~~0xF#64,
        ~~~((((merge (c.writable addr') (c.registers addr') (allOnes 32)).setWidth 64 <<< 32) |||
          (merge (c.writable addr) (c.registers addr) (allOnes 32)).setWidth 64) &&& ~~~0xF#64) + 1, true, true⟩, c) := by
  have hhigh : (c.write addr (allOnes 32)).registers addr' = c.registers addr' := by
    rw [ConfigSpace.write_registers, if_neg hne.symm]
  rw [parseBar64, run_bind (run_read32 h' _), run_bind (run_write32 h _ _), run_bind (run_write32 h' _ _),
    run_bind (run_read32 h' _), run_bind (run_read32 h _), run_bind (run_write32 h' _ _), run_bind (run_write32 h _ _)]
  rw [← hhigh, ConfigSpace.write_restore, ConfigSpace.write_restore]
  simp only [ConfigSpace.write_registers, ConfigSpace.write_writable, if_pos, hne, hne.symm, if_false]
  rfl

end

/-- A computation that ends and leaves the configuration space as it is. -/
def Keeps {α : Type} (x : Config α) (c : ConfigSpace) : Prop := (x c).2 = c ∧ (x c).1 ≠ .error .diverge

variable {α : Type}

theorem keeps_of_run {x : Config α} {a : α} (h : x c = (.ok a, c)) : Keeps x c := by
  rw [Keeps, h]
  exact ⟨rfl, fun heq => by cases heq⟩

theorem keeps_of_none {x : Config α} (h : x c = (.error .none, c)) : Keeps x c := by
  rw [Keeps, h]
  exact ⟨rfl, fun heq => by cases heq⟩

theorem Keeps.cases {x : Config α} (h : Keeps x c) : x c = (.error .none, c) ∨ ∃ a, x c = (.ok a, c) := by
  rcases hrun : x c with ⟨(_ | _) | a, c'⟩
  · rw [Keeps, hrun] at h
    exact .inl (Prod.ext rfl h.1)
  · rw [Keeps, hrun] at h
    exact absurd rfl h.2
  · rw [Keeps, hrun] at h
    exact .inr ⟨a, Prod.ext rfl h.1⟩

theorem Keeps.bind {β : Type} {x : Config α} {f : α → Config β} (hx : Keeps x c) (hf : ∀ a, Keeps (f a) c) :
    Keeps (x >>= f) c := by
  rcases hx.cases with hrun | ⟨a, hrun⟩
  · exact keeps_of_none (run_bind_error hrun)
  · rw [Keeps, run_bind hrun]
    exact hf a

theorem keeps_pure (a : α) : Keeps (pure a) c := keeps_of_run rfl

theorem keeps_read32_bind {f : BitVec 32 → Config α}
    (hf : ∀ addr, locate s bus device function offset = some addr → Keeps (f (c.registers addr)) c) :
    Keeps (read32 s bus device function offset >>= f) c := by
  cases hloc : locate s bus device function offset with
  | none => exact keeps_of_none (run_bind_error (run_read32_none hloc c))
  | some addr =>
    rw [Keeps, run_bind (run_read32 hloc c)]
    exact hf addr hloc

theorem keeps_parseBar64 (hloc : locate s bus device function offset = some addr)
    (hdvd : 4 ∣ offset) : Keeps (parseBar64 s bus device function offset (c.registers addr)) c := by
  cases hnext : locate s bus device function (offset + 4) with
  | none => exact keeps_of_none (run_bind_error (run_read32_none hnext c))
  | some addr' =>
    have hne : addr ≠ addr' := by
      rintro rfl
      have := locate_inj hloc hnext
      omega
    exact keeps_of_run (run_parseBar64 hloc hnext hne c)

theorem keeps_parseBarsLoop (len : ℕ) (c : ConfigSpace) : Keeps (parseBarsLoop s bus device function len) c := by
  induction len using Nat.strong_induction_on with
  | _ len ih =>
    cases len with
    | zero => exact keeps_pure []
    | succ len =>
      have hrest : ∀ bars : List BarInfo, Keeps (do return bars ++ (← parseBarsLoop s bus device function len)) c :=
        fun bars => (ih len (by omega)).bind fun _ => keeps_pure _
      rw [parseBarsLoop]
      refine keeps_read32_bind fun addr hloc => ?_
      dsimp only
      split_ifs
      · exact hrest [.empty]
      · refine Keeps.bind ?_ fun bar => hrest [bar]
        exact keeps_of_run (run_parseBar32 hloc c)
      · cases len with
        | zero => exact keeps_pure _
        | succ len =>
          refine (keeps_parseBar64 hloc (by omega)).bind fun bar => ?_
          exact (ih len (by omega)).bind fun _ => keeps_pure _
      · exact hrest [.empty]
      · refine Keeps.bind ?_ fun bar => hrest [bar]
        exact keeps_of_run (run_parseBarIo hloc c)

/-- Probing restores every register that it writes, whatever the registers hold and however it ends. -/
theorem parseBars_keeps (s : Segment) (bus device function : ℕ) (c : ConfigSpace) :
    (parseBars s bus device function c).2 = c := (keeps_parseBarsLoop 6 c).1

end Probing

section Arrangement

/-- The addresses that a BAR decodes: `2 ^ order` of them from `base` on. -/
structure Window (least w : ℕ) where
  order : ℕ
  base : BitVec w
  least_le : least ≤ order
  order_lt : order < w
  aligned : ∀ i < order, base.getLsbD i = false

namespace Window

variable {least w : ℕ}

def mask (win : Window least w) : BitVec w := allOnes w <<< win.order

def size (win : Window least w) : BitVec 64 := 1#64 <<< win.order

theorem getLsbD_mask (win : Window least w) {i : ℕ} (hi : i < w) : win.mask.getLsbD i = decide (win.order ≤ i) := by
  rw [mask, BitVec.getLsbD_shiftLeft, getLsbD_allOnes]
  by_cases h : win.order ≤ i
  · have : i - win.order < w := by omega
    simp [hi, h, this]
  · simp [Nat.lt_of_not_le h, h]

end Window

theorem not_mask_add_one {w : ℕ} (k : ℕ) : ~~~(allOnes w <<< k) + 1 = 1#w <<< k := by
  change ~~~(allOnes w <<< k) + 1#w = 1#w <<< k
  rw [← BitVec.neg_eq_not_add, BitVec.shiftLeft_eq_mul_twoPow, BitVec.shiftLeft_eq_mul_twoPow, ← BitVec.neg_one_eq_allOnes,
    BitVec.neg_mul, BitVec.neg_neg]

theorem setWidth_one_shiftLeft {k : ℕ} (hk : k < 32) : (1#32 <<< k).setWidth 64 = 1#64 <<< k := by
  have hpow : 2 ^ k < 2 ^ 32 := Nat.pow_lt_pow_right (by decide) hk
  refine BitVec.eq_of_toNat_eq ?_
  simp only [BitVec.toNat_setWidth, BitVec.toNat_shiftLeft, BitVec.toNat_ofNat, Nat.shiftLeft_eq]
  generalize 2 ^ k = x at hpow
  omega

/-- What a slot, or two for a 64-bit BAR, can hold. The upper half of an I/O BAR is writable where `upper` is set. -/
inductive Bar
  | absent
  | memory32 (win : Window 4 32) (prefetchable : Bool)
  | memory64 (win : Window 4 64) (prefetchable : Bool)
  | io (win : Window 2 32) (upper : BitVec 16) (hzero : ∀ i < 16, upper.getLsbD i = false →
      win.base.getLsbD (16 + i) = false)

def prefetchBit (prefetchable : Bool) : BitVec 32 := if prefetchable then 8 else 0

namespace Bar

/-- The contents of the slots and the bits of them that are writable. -/
def registers : Bar → List (BitVec 32 × BitVec 32)
  | absent => [(0, 0)]
  | memory32 win prefetchable => [(win.base ||| prefetchBit prefetchable, win.mask)]
  | memory64 win prefetchable =>
    [(win.base.setWidth 32 ||| 4 ||| prefetchBit prefetchable, win.mask.setWidth 32),
      ((win.base >>> 32).setWidth 32, (win.mask >>> 32).setWidth 32)]
  | io win upper _ => [(win.base ||| 1, win.mask &&& ((upper.setWidth 32 <<< 16) ||| 0xFFFF))]

def info : Bar → List BarInfo
  | absent => [.empty]
  | memory32 win _ => [⟨win.base.setWidth 64, win.size, true, false⟩]
  | memory64 win _ => [⟨win.base, win.size, true, true⟩, .empty]
  | io win _ _ => [⟨win.base.setWidth 64, win.size, false, false⟩]

def Decodable : Bar → Prop
  | absent => True
  | memory32 win prefetchable => ¬(win.base = 0 ∧ prefetchable = false)
  | memory64 _ _ => True
  | io _ _ _ => False

end Bar

section Bits

theorem getLsbD_fifteen32 : ∀ i < 32, (0xF#32).getLsbD i = decide (i < 4) := by decide

theorem getLsbD_addressBits32 : ∀ i < 32, (0xFFFFFFF0#32).getLsbD i = decide (4 ≤ i) := by decide

theorem getLsbD_addressBits64 : ∀ i < 64, (~~~0xF#64).getLsbD i = decide (4 ≤ i) := by decide

theorem getLsbD_addressBitsIo : ∀ i < 32, (0xFFFC#32).getLsbD i = decide (2 ≤ i ∧ i < 16) := by decide

theorem isMmio_eq (x : BitVec 32) : x &&& 1#32 = (x &&& 0xF#32) &&& 1#32 := by
  rw [BitVec.and_assoc]
  rfl

theorem barType_eq (x : BitVec 32) : (x >>> 1) &&& 3#32 = ((x &&& 0xF#32) >>> 1) &&& 3#32 := by
  rw [BitVec.ushiftRight_and_distrib, BitVec.and_assoc]
  rfl

theorem prefetchBit_low (prefetchable : Bool) : prefetchBit prefetchable &&& 0xF#32 = prefetchBit prefetchable := by
  cases prefetchable <;> decide

theorem prefetchBit_high (prefetchable : Bool) : prefetchBit prefetchable &&& 0xFFFFFFF0#32 = 0#32 := by
  cases prefetchable <;> decide

theorem getLsbD_prefetchBit (prefetchable : Bool) {i : ℕ} (hi : 4 ≤ i) : (prefetchBit prefetchable).getLsbD i = false := by
  cases prefetchable with
  | false => simp [prefetchBit]
  | true =>
    rw [prefetchBit, if_pos rfl, show (8 : BitVec 32) = BitVec.twoPow 32 3 from rfl, BitVec.getLsbD_twoPow]
    simp
    omega

end Bits

section Memory32

variable (win : Window 4 32) (prefetchable : Bool)

theorem Window.low32 : (win.base ||| prefetchBit prefetchable) &&& 0xF#32 = prefetchBit prefetchable := by
  have hbase : win.base &&& 0xF#32 = 0#32 := by
    refine eq_of_getLsbD_eq fun i hi => ?_
    rw [getLsbD_and, getLsbD_fifteen32 i hi]
    by_cases h : i < 4
    · rw [win.aligned i (h.trans_le win.least_le)]
      simp
    · simp [h]
  rw [BitVec.and_or_distrib_right, hbase, prefetchBit_low, BitVec.zero_or]

theorem Window.address32 : (win.base ||| prefetchBit prefetchable) &&& 0xFFFFFFF0#32 = win.base := by
  have hbase : win.base &&& 0xFFFFFFF0#32 = win.base := by
    refine eq_of_getLsbD_eq fun i hi => ?_
    rw [getLsbD_and, getLsbD_addressBits32 i hi]
    by_cases h : 4 ≤ i
    · simp [h]
    · rw [win.aligned i (by have := win.least_le; omega)]
      rfl
  rw [BitVec.and_or_distrib_right, hbase, prefetchBit_high, BitVec.or_zero]

theorem Window.mask32 :
    merge win.mask (win.base ||| prefetchBit prefetchable) (allOnes 32) &&& 0xFFFFFFF0#32 = win.mask := by
  refine eq_of_getLsbD_eq fun i hi => ?_
  have hleast := win.least_le
  rw [getLsbD_and, getLsbD_merge _ _ _ hi, getLsbD_addressBits32 i hi, win.getLsbD_mask hi, getLsbD_or,
    getLsbD_allOnes]
  by_cases h : win.order ≤ i
  · have : 4 ≤ i := by omega
    simp [h, hi, this]
  · by_cases h4 : 4 ≤ i
    · rw [win.aligned i (by omega), getLsbD_prefetchBit _ h4]
      simp [h]
    · simp [h, h4]

theorem Window.zero32_iff : win.base ||| prefetchBit prefetchable = 0#32 ↔ win.base = 0 ∧ prefetchable = false := by
  constructor
  · intro h
    have hbase := win.address32 prefetchable
    have hlow := win.low32 prefetchable
    rw [h, BitVec.zero_and] at hbase hlow
    refine ⟨hbase.symm, ?_⟩
    cases prefetchable with
    | false => rfl
    | true => exact absurd hlow (by decide)
  · rintro ⟨hbase, rfl⟩
    rw [hbase]
    rfl

theorem Window.type32 : (win.base ||| prefetchBit prefetchable) &&& 1#32 = 0#32 ∧
    ((win.base ||| prefetchBit prefetchable) >>> 1) &&& 3#32 = 0#32 := by
  rw [isMmio_eq, barType_eq, win.low32]
  cases prefetchable <;> decide

end Memory32

section Memory64

variable (win : Window 4 64) (prefetchable : Bool) {i : ℕ}

theorem Window.low64 :
    (win.base.setWidth 32 ||| 4 ||| prefetchBit prefetchable) &&& 0xF#32 = 4#32 ||| prefetchBit prefetchable := by
  have hbase : win.base.setWidth 32 &&& 0xF#32 = 0#32 := by
    refine eq_of_getLsbD_eq fun i hi => ?_
    rw [getLsbD_and, getLsbD_fifteen32 i hi, getLsbD_setWidth]
    by_cases h : i < 4
    · rw [win.aligned i (h.trans_le win.least_le)]
      simp
    · simp [h]
  rw [BitVec.and_or_distrib_right, BitVec.and_or_distrib_right, hbase, prefetchBit_low, BitVec.zero_or]
  rfl

theorem Window.getLsbD_low64 (hi : 4 ≤ i) (hlt : i < 32) :
    (win.base.setWidth 32 ||| 4 ||| prefetchBit prefetchable).getLsbD i = win.base.getLsbD i := by
  have hfour : (4 : BitVec 32).getLsbD i = false := by
    rw [show (4 : BitVec 32) = BitVec.twoPow 32 2 from rfl, BitVec.getLsbD_twoPow]
    simp
    omega
  rw [getLsbD_or, getLsbD_or, getLsbD_setWidth, hfour, getLsbD_prefetchBit _ hi, decide_eq_true hlt,
    Bool.true_and, Bool.or_false, Bool.or_false]

theorem getLsbD_join (high low : BitVec 32) (hi : i < 64) :
    ((high.setWidth 64 <<< 32) ||| low.setWidth 64).getLsbD i =
      if i < 32 then low.getLsbD i else high.getLsbD (i - 32) := by
  rw [getLsbD_or, BitVec.getLsbD_shiftLeft, getLsbD_setWidth, getLsbD_setWidth]
  by_cases h : i < 32
  · simp [h, hi]
  · rw [BitVec.getLsbD_of_ge low i (by omega)]
    simp [h, hi]
    omega

theorem Window.address64 : ((((win.base >>> 32).setWidth 32).setWidth 64 <<< 32) |||
    (win.base.setWidth 32 ||| 4 ||| prefetchBit prefetchable).setWidth 64) &&& ~~~0xF#64 = win.base := by
  refine eq_of_getLsbD_eq fun i hi => ?_
  rw [getLsbD_and, getLsbD_join _ _ hi, getLsbD_addressBits64 i hi]
  by_cases h4 : 4 ≤ i
  · by_cases h : i < 32
    · rw [if_pos h, win.getLsbD_low64 prefetchable h4 h]
      simp [h4]
    · have hsum : 32 + (i - 32) = i := by omega
      rw [if_neg h, getLsbD_setWidth, BitVec.getLsbD_ushiftRight, hsum]
      simp [h4]
      omega
  · rw [win.aligned i (by have := win.least_le; omega)]
    simp [h4]

theorem Window.mask64 : (((merge ((win.mask >>> 32).setWidth 32) ((win.base >>> 32).setWidth 32)
    (allOnes 32)).setWidth 64 <<< 32) |||
    (merge (win.mask.setWidth 32) (win.base.setWidth 32 ||| 4 ||| prefetchBit prefetchable) (allOnes 32)).setWidth 64) &&&
      ~~~0xF#64 = win.mask := by
  refine eq_of_getLsbD_eq fun i hi => ?_
  have hleast := win.least_le
  rw [getLsbD_and, getLsbD_join _ _ hi, getLsbD_addressBits64 i hi, win.getLsbD_mask hi]
  by_cases h4 : 4 ≤ i
  · by_cases h : i < 32
    · rw [if_pos h, getLsbD_merge _ _ _ h, win.getLsbD_low64 prefetchable h4 h, getLsbD_setWidth, win.getLsbD_mask hi,
        getLsbD_allOnes]
      by_cases horder : win.order ≤ i
      · simp [h, h4, horder]
      · rw [win.aligned i (by omega)]
        simp [horder]
    · have hsum : 32 + (i - 32) = i := by omega
      have hlt : i - 32 < 32 := by omega
      rw [if_neg h, getLsbD_merge _ _ _ hlt, getLsbD_setWidth, getLsbD_setWidth, BitVec.getLsbD_ushiftRight,
        BitVec.getLsbD_ushiftRight, hsum, win.getLsbD_mask hi, getLsbD_allOnes]
      by_cases horder : win.order ≤ i
      · simp [hlt, h4, horder]
      · rw [win.aligned i (by omega)]
        simp [horder]
  · have : ¬win.order ≤ i := by omega
    simp [h4, this]

theorem Window.type64 : win.base.setWidth 32 ||| 4 ||| prefetchBit prefetchable ≠ 0#32 ∧
    (win.base.setWidth 32 ||| 4 ||| prefetchBit prefetchable) &&& 1#32 = 0#32 ∧
    ((win.base.setWidth 32 ||| 4 ||| prefetchBit prefetchable) >>> 1) &&& 3#32 = 2#32 := by
  have hlow := win.low64 prefetchable
  refine ⟨fun hzero => ?_, ?_, ?_⟩
  · rw [hzero, BitVec.zero_and] at hlow
    cases prefetchable <;> revert hlow <;> decide
  · rw [isMmio_eq, hlow]
    cases prefetchable <;> decide
  · rw [barType_eq, hlow]
    cases prefetchable <;> decide

end Memory64

section Io

variable (win : Window 2 32)

theorem Window.typeIo : (win.base ||| 1) &&& 1#32 ≠ 0#32 := by
  intro hzero
  have hbit := congrArg (fun x => x.getLsbD 0) hzero
  simp at hbit

theorem Window.sizeIo_ne (m : BitVec 32) :
    (~~~(merge m (win.base ||| 1) (allOnes 32) &&& 0xFFFC#32) + 1).setWidth 64 ≠ win.size := by
  intro h
  have hsmall := congrArg (BitVec.setWidth 32) h
  rw [BitVec.setWidth_setWidth_of_le _ (by decide), BitVec.setWidth_eq, Window.size,
    ← setWidth_one_shiftLeft win.order_lt, BitVec.setWidth_setWidth_of_le _ (by decide), BitVec.setWidth_eq,
    ← not_mask_add_one] at hsmall
  have hmask := BitVec.neg_inj.1 ((BitVec.neg_eq_not_add _).trans (hsmall.trans (BitVec.neg_eq_not_add _).symm))
  have hbit := congrArg (fun x => x.getLsbD 31) hmask
  simp only [getLsbD_and, getLsbD_addressBitsIo 31 (by decide)] at hbit
  have htop := win.getLsbD_mask (i := 31) (by decide)
  rw [Window.mask, decide_eq_true (Nat.le_of_lt_succ win.order_lt)] at htop
  rw [htop] at hbit
  simp at hbit

end Io

section Decoding

def Bar.decoded : Bar → List BarInfo
  | absent => [.empty]
  | memory32 win prefetchable =>
    if win.base = 0 ∧ prefetchable = false then [.empty] else [⟨win.base.setWidth 64, win.size, true, false⟩]
  | memory64 win _ => [⟨win.base, win.size, true, true⟩, .empty]
  | io win upper _ =>
    [⟨((win.base ||| 1) &&& 0xFFFC#32).setWidth 64,
      (~~~(merge (win.mask &&& ((upper.setWidth 32 <<< 16) ||| 0xFFFF)) (win.base ||| 1) (allOnes 32) &&& 0xFFFC#32) +
        1).setWidth 64, false, false⟩]

def HoldsFrom (c : ConfigSpace) (s : Segment) (bus device function : ℕ) : ℕ → List (BitVec 32 × BitVec 32) → Prop
  | _, [] => True
  | i, r :: rest =>
    (c.registers (s.place bus device function (0x10 + i * 4)) = r.1 ∧
      c.writable (s.place bus device function (0x10 + i * 4)) = r.2) ∧ HoldsFrom c s bus device function (i + 1) rest

theorem Segment.Has.locate_slot (h : s.Has bus device function) (hs : s.Sound) (hregion : s.region ≠ none) {i : ℕ}
    (hi : i ≤ 5) : locate s bus device function (0x10 + i * 4) = some (s.place bus device function (0x10 + i * 4)) := by
  have hlow : (0x10 + i * 4) % 256 / 4 * 4 = 0x10 + i * 4 := by omega
  rw [h.locate_eq hs hregion, hlow]

theorem HoldsFrom.slot {len : ℕ} {r : BitVec 32 × BitVec 32} {slots : List (BitVec 32 × BitVec 32)} (hle : len + 1 ≤ 6)
    (h : HoldsFrom c s bus device function (6 - (len + 1)) (r :: slots)) :
    c.registers (s.place bus device function (0x10 + (5 - len) * 4)) = r.1 ∧
      c.writable (s.place bus device function (0x10 + (5 - len) * 4)) = r.2 ∧
      HoldsFrom c s bus device function (6 - len) slots := by
  have hindex : 6 - (len + 1) = 5 - len := by omega
  have hnext : 5 - len + 1 = 6 - len := by omega
  rw [hindex] at h
  obtain ⟨⟨hreg, hmask⟩, hslots⟩ := h
  rw [hnext] at hslots
  exact ⟨hreg, hmask, hslots⟩

section

variable {len : ℕ} {rest : List BarInfo} {bar : BarInfo}
  (hloc : locate s bus device function (0x10 + (5 - len) * 4) = some addr)
  (hrest : parseBarsLoop s bus device function len c = (.ok rest, c))

include hrest

theorem parseBarsLoop_memory64 (hloc : locate s bus device function (0x10 + (5 - (len + 1)) * 4) = some addr)
    (hne : c.registers addr ≠ 0) (hmmio : c.registers addr &&& 1 = 0) (htype : (c.registers addr >>> 1) &&& 3 = 2)
    (hbar : parseBar64 s bus device function (0x10 + (5 - (len + 1)) * 4) (c.registers addr) c = (.ok bar, c)) :
    parseBarsLoop s bus device function (len + 2) c = (.ok (bar :: .empty :: rest), c) := by
  have hnot : ¬((c.registers addr >>> 1) &&& 3 = 0 ∧ c.registers addr &&& 1 = 0) := by
    rw [htype]
    exact fun h => absurd h.1 (by decide)
  rw [parseBarsLoop, run_bind (run_read32 hloc c)]
  dsimp only
  rw [if_neg hne, if_neg hnot, if_pos ⟨htype, hmmio⟩, run_bind hbar, run_bind hrest]
  rfl

include hloc

theorem parseBarsLoop_absent (hzero : c.registers addr = 0) :
    parseBarsLoop s bus device function (len + 1) c = (.ok (.empty :: rest), c) := by
  rw [parseBarsLoop, run_bind (run_read32 hloc c)]
  dsimp only
  rw [if_pos hzero, run_bind hrest]
  rfl

theorem parseBarsLoop_memory32 (hne : c.registers addr ≠ 0) (hmmio : c.registers addr &&& 1 = 0)
    (htype : (c.registers addr >>> 1) &&& 3 = 0)
    (hbar : parseBar32 s bus device function (0x10 + (5 - len) * 4) (c.registers addr) c = (.ok bar, c)) :
    parseBarsLoop s bus device function (len + 1) c = (.ok (bar :: rest), c) := by
  rw [parseBarsLoop, run_bind (run_read32 hloc c)]
  dsimp only
  rw [if_neg hne, if_pos ⟨htype, hmmio⟩, run_bind hbar, run_bind hrest]
  rfl

theorem parseBarsLoop_io (hne : c.registers addr ≠ 0) (hio : c.registers addr &&& 1 ≠ 0)
    (hbar : parseBarIo s bus device function (0x10 + (5 - len) * 4) (c.registers addr) c = (.ok bar, c)) :
    parseBarsLoop s bus device function (len + 1) c = (.ok (bar :: rest), c) := by
  rw [parseBarsLoop, run_bind (run_read32 hloc c)]
  dsimp only
  rw [if_neg hne, if_neg (fun h => hio h.2), if_neg (fun h => hio h.2), if_pos hio, run_bind hbar, run_bind hrest]
  rfl

end

variable {len : ℕ}

theorem Bar.run_decoded (h : s.Has bus device function) (hs : s.Sound) (hregion : s.region ≠ none) (bar : Bar)
    {slots : List (BitVec 32 × BitVec 32)} (hle : len + bar.registers.length ≤ 6)
    (hholds : HoldsFrom c s bus device function (6 - (len + bar.registers.length)) (bar.registers ++ slots)) :
    HoldsFrom c s bus device function (6 - len) slots ∧
    ∀ rest, parseBarsLoop s bus device function len c = (.ok rest, c) →
      parseBarsLoop s bus device function (len + bar.registers.length) c = (.ok (bar.decoded ++ rest), c) := by
  cases bar with
  | absent =>
    obtain ⟨hreg, -, hslots⟩ := HoldsFrom.slot hle hholds
    refine ⟨hslots, fun rest hrest => ?_⟩
    exact parseBarsLoop_absent (h.locate_slot hs hregion (by omega)) hrest hreg
  | memory32 win prefetchable =>
    obtain ⟨hreg, hmask, hslots⟩ := HoldsFrom.slot hle hholds
    refine ⟨hslots, fun rest hrest => ?_⟩
    have hloc := h.locate_slot hs hregion (Nat.sub_le 5 len)
    dsimp only at hreg hmask
    by_cases hzero : win.base = 0 ∧ prefetchable = false
    · rw [decoded, if_pos hzero]
      exact parseBarsLoop_absent hloc hrest (hreg.trans ((win.zero32_iff prefetchable).2 hzero))
    · rw [decoded, if_neg hzero]
      obtain ⟨hmmio, htype⟩ := win.type32 prefetchable
      have hbar := run_parseBar32 hloc c
      rw [hmask, hreg, win.address32, win.mask32, Window.mask, not_mask_add_one, setWidth_one_shiftLeft win.order_lt,
        ← hreg] at hbar
      rw [← hreg] at hmmio htype
      refine parseBarsLoop_memory32 hloc hrest (fun h => hzero ?_) hmmio htype hbar
      exact (win.zero32_iff prefetchable).1 (hreg.symm.trans h)
  | memory64 win prefetchable =>
    have hindex : 6 - (len + 2) = 5 - (len + 1) := by omega
    rw [registers, List.length_cons, List.length_singleton, hindex] at hholds
    obtain ⟨⟨hreg, hmask⟩, ⟨hregHigh, hmaskHigh⟩, hslots⟩ := hholds
    have hlast : len + 2 ≤ 6 := hle
    have hnext : 5 - (len + 1) + 1 + 1 = 6 - len := by omega
    rw [hnext] at hslots
    refine ⟨hslots, fun rest hrest => ?_⟩
    have hloc := h.locate_slot hs hregion (Nat.sub_le 5 (len + 1))
    have hlocHigh : locate s bus device function (0x10 + (5 - (len + 1)) * 4 + 4) =
        some (s.place bus device function (0x10 + (5 - (len + 1) + 1) * 4)) := by
      have hsucc : 0x10 + (5 - (len + 1)) * 4 + 4 = 0x10 + (5 - (len + 1) + 1) * 4 := by omega
      rw [hsucc]
      exact h.locate_slot hs hregion (by omega)
    have hne : s.place bus device function (0x10 + (5 - (len + 1)) * 4) ≠
        s.place bus device function (0x10 + (5 - (len + 1) + 1) * 4) := by
      rw [Segment.place, Segment.place]
      omega
    dsimp only at hreg hmask hregHigh hmaskHigh
    obtain ⟨hnonzero, hmmio, htype⟩ := win.type64 prefetchable
    have hbar := run_parseBar64 hloc hlocHigh hne c
    rw [hmask, hreg, hmaskHigh, hregHigh, win.address64, win.mask64, Window.mask, not_mask_add_one, ← hreg] at hbar
    rw [← hreg] at hnonzero hmmio htype
    exact parseBarsLoop_memory64 hrest hloc hnonzero hmmio htype hbar
  | io win upper hzero =>
    obtain ⟨hreg, hmask, hslots⟩ := HoldsFrom.slot hle hholds
    refine ⟨hslots, fun rest hrest => ?_⟩
    have hloc := h.locate_slot hs hregion (Nat.sub_le 5 len)
    dsimp only at hreg hmask
    have hio : c.registers (s.place bus device function (0x10 + (5 - len) * 4)) &&& 1#32 ≠ 0#32 := by
      rw [hreg]
      exact win.typeIo
    have hne : c.registers (s.place bus device function (0x10 + (5 - len) * 4)) ≠ 0 := by
      intro hnone
      rw [hnone] at hio
      exact hio rfl
    have hturn := parseBarsLoop_io hloc hrest hne hio (run_parseBarIo hloc c)
    rw [hmask, hreg] at hturn
    exact hturn

theorem run_parseBarsLoop (h : s.Has bus device function) (hs : s.Sound) (hregion : s.region ≠ none) {bars : List Bar}
    (hlen : (bars.flatMap Bar.registers).length = len) (hle : len ≤ 6)
    (hholds : HoldsFrom c s bus device function (6 - len) (bars.flatMap Bar.registers)) :
    parseBarsLoop s bus device function len c = (.ok (bars.flatMap Bar.decoded), c) := by
  induction bars generalizing len with
  | nil =>
    subst hlen
    rfl
  | cons bar bars ih =>
    rw [List.flatMap_cons, List.length_append, Nat.add_comm] at hlen
    subst hlen
    rw [List.flatMap_cons] at hholds
    obtain ⟨hslots, hturn⟩ := bar.run_decoded h hs hregion hle hholds
    rw [List.flatMap_cons]
    exact hturn _ (ih rfl (by omega) hslots)

theorem Bar.length_decoded (bar : Bar) : bar.decoded.length = bar.info.length := by
  cases bar with
  | memory32 win prefetchable =>
    rw [decoded]
    split_ifs <;> rfl
  | _ => rfl

theorem Bar.decoded_eq_iff (bar : Bar) : bar.decoded = bar.info ↔ bar.Decodable := by
  cases bar with
  | absent => exact iff_of_true rfl trivial
  | memory32 win prefetchable =>
    rw [decoded, info, Decodable]
    split_ifs with hzero
    · refine iff_of_false (fun h => ?_) (fun h => h hzero)
      simp [BarInfo.empty] at h
    · exact iff_of_true rfl hzero
  | memory64 win prefetchable => exact iff_of_true rfl trivial
  | io win upper hzero =>
    refine iff_of_false (fun h => ?_) id
    simp only [decoded, info, List.cons.injEq, BarInfo.mk.injEq] at h
    exact win.sizeIo_ne _ h.1.2.1

theorem flatMap_eq_iff {α β : Type} {f g : α → List β} (hlen : ∀ a, (f a).length = (g a).length) (l : List α) :
    l.flatMap f = l.flatMap g ↔ ∀ a ∈ l, f a = g a := by
  induction l with
  | nil => simp
  | cons a l ih =>
    rw [List.flatMap_cons, List.flatMap_cons, List.forall_mem_cons, ← ih]
    constructor
    · exact fun h => List.append_inj h (hlen a)
    · rintro ⟨ha, hl⟩
      rw [ha, hl]

/-- For a function whose slots hold `bars`, what `parse_bars` returns is right if and only if the segment is mapped,
no BAR is an I/O BAR, and none is a 32-bit one at address zero that is not prefetchable. -/
theorem parseBars_exact_iff (hs : s.Sound) (h : s.Has bus device function) {bars : List Bar}
    (hlen : (bars.flatMap Bar.registers).length = 6)
    (hholds : HoldsFrom c s bus device function 0 (bars.flatMap Bar.registers)) :
    (parseBars s bus device function c).1 = .ok (bars.flatMap Bar.info) ↔
      s.region ≠ none ∧ ∀ bar ∈ bars, bar.Decodable := by
  by_cases hregion : s.region = none
  · have hloc : locate s bus device function (0x10 + (5 - 5) * 4) = none := locate_of_unmapped hregion
    rw [parseBars, parseBarsLoop, run_bind_error (run_read32_none hloc c)]
    simp [hregion]
  · rw [parseBars, run_parseBarsLoop h hs hregion hlen le_rfl hholds]
    simp only [Except.ok.injEq, flatMap_eq_iff Bar.length_decoded, Bar.decoded_eq_iff, ne_eq, hregion, not_false_eq_true,
      true_and]

/-- The first function of `oneBus` with the given slots. -/
def withSlots (slots : List (BitVec 32 × BitVec 32)) : ConfigSpace :=
  ⟨fun a => (slots.getD ((a - 0xE0000010) / 4) (0, 0)).1, fun a => (slots.getD ((a - 0xE0000010) / 4) (0, 0)).2⟩

def memoryBars : List Bar :=
  [.memory32 ⟨12, 0xFEB00000, by decide, by decide, by decide⟩ false,
    .memory64 ⟨33, 0x800000000, by decide, by decide, by decide⟩ true, .absent, .absent, .absent]

theorem parseBars_memoryBars :
    (oneBus.Sound ∧ oneBus.Has 0 0 0 ∧ HoldsFrom (withSlots (memoryBars.flatMap Bar.registers)) oneBus 0 0 0 0
      (memoryBars.flatMap Bar.registers)) ∧
    (parseBars oneBus 0 0 0 (withSlots (memoryBars.flatMap Bar.registers))).1 = .ok (memoryBars.flatMap Bar.info) := by
  have hhas : oneBus.Has 0 0 0 := ⟨le_rfl, le_rfl, by decide, by decide⟩
  have hholds : HoldsFrom (withSlots (memoryBars.flatMap Bar.registers)) oneBus 0 0 0 0
      (memoryBars.flatMap Bar.registers) :=
    ⟨⟨rfl, rfl⟩, ⟨rfl, rfl⟩, ⟨rfl, rfl⟩, ⟨rfl, rfl⟩, ⟨rfl, rfl⟩, ⟨rfl, rfl⟩, trivial⟩
  refine ⟨⟨oneBus_sound, hhas, hholds⟩, (parseBars_exact_iff oneBus_sound hhas rfl hholds).2 ⟨by decide, ?_⟩⟩
  simp [memoryBars, Bar.Decodable]

/-- An I/O BAR of 32 bytes and a memory BAR that has no address yet. -/
def troubleBars : List Bar :=
  [.io ⟨5, 0xC000, by decide, by decide, by decide⟩ 0 (by decide),
    .memory32 ⟨12, 0, by decide, by decide, by decide⟩ false, .absent, .absent, .absent, .absent]

theorem parseBars_troubleBars :
    HoldsFrom (withSlots (troubleBars.flatMap Bar.registers)) oneBus 0 0 0 0 (troubleBars.flatMap Bar.registers) ∧
    troubleBars.flatMap Bar.info = ⟨0xC000, 0x20, false, false⟩ :: ⟨0, 0x1000, true, false⟩ :: List.replicate 4 .empty ∧
    (parseBars oneBus 0 0 0 (withSlots (troubleBars.flatMap Bar.registers))).1 =
      .ok (⟨0xC000, 0xFFFF0020, false, false⟩ :: List.replicate 5 .empty) :=
  ⟨⟨⟨rfl, rfl⟩, ⟨rfl, rfl⟩, ⟨rfl, rfl⟩, ⟨rfl, rfl⟩, ⟨rfl, rfl⟩, ⟨rfl, rfl⟩, trivial⟩, rfl, rfl⟩

end Decoding

end Arrangement

end MaramOS.Pci
