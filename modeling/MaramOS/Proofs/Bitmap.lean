import MaramOS.Sanity.Bitmap

/-! The tri-state bitmap is a flat array of bits. A run of calls on an allocator
is followed by the same calls on the array, bit by bit; the blocks always stand
for that array, in canonical form, and no call panics. -/

namespace MaramOS

/-- The calls the file system makes on its allocator. -/
inductive BitmapOp
  | addBlock (block : BitmapBlock)
  | alloc (count : ℕ)
  | free (start count : ℕ)
  | reserveFrom (lba : ℕ)

namespace BitmapOp

/-- The answer of `alloc`, and the allocator after the call. -/
def run (b : BitmapAllocator) : BitmapOp → Except Fault (Option ℕ × BitmapAllocator)
  | .addBlock block => .ok (none, b.addBlock block)
  | .alloc count => b.alloc count
  | .free start count => (none, ·) <$> b.free start count
  | .reserveFrom lba => (none, ·) <$> b.reserveFrom lba

def assign (v : Bool) (bits : List Bool) (l : List ℕ) : List Bool := l.foldl (fun bits i => bits.set i v) bits

/-- The same call on the flat array, given the answer of `alloc`. -/
def flat (dataStart : ℕ) (bits : List Bool) (answer : Option ℕ) : BitmapOp → List Bool
  | .addBlock block => bits ++ (List.range 4096).map block.get
  | .alloc count =>
    match answer with
    | some lba => assign true bits (BitmapAllocator.span (wsub lba dataStart) count)
    | none => bits
  | .free start count => assign false bits (BitmapAllocator.span (wsub start dataStart) count)
  | .reserveFrom lba =>
    if lba < dataStart then bits
    else assign true bits
      (List.range' (wadd (lba - dataStart) 1) (bits.length % 2 ^ 64 - wadd (lba - dataStart) 1))

/-- A `free` gives back bits that the array has, and the number of a bit has 64 bits. -/
def InRange (dataStart : ℕ) (bits : List Bool) : BitmapOp → Prop
  | .addBlock _ => bits.length + 4096 ≤ 2 ^ 64
  | .free start count => wsub start dataStart + count ≤ bits.length
  | _ => True

theorem length_assign (v : Bool) (bits : List Bool) (l : List ℕ) :
    (assign v bits l).length = bits.length := by
  unfold assign
  induction l generalizing bits with
  | nil => rfl
  | cons i l ih => rw [List.foldl_cons, ih, List.length_set]

theorem getElem?_assign (v : Bool) (bits : List Bool) (l : List ℕ) (j : ℕ) (hj : j < bits.length) :
    (assign v bits l)[j]? = if j ∈ l then some v else bits[j]? := by
  unfold assign
  induction l generalizing bits with
  | nil => simp
  | cons i l ih =>
    rw [List.foldl_cons, ih _ (by rwa [List.length_set])]
    by_cases hl : j ∈ l
    · simp [hl]
    · by_cases hi : j = i
      · subst hi
        simp [hl, hj]
      · simp [hl, hi, List.getElem?_set_ne (Ne.symm hi)]

end BitmapOp

namespace BitmapAllocator

def denote (b : BitmapAllocator) : List Bool := (List.range (4096 * b.blocks.length)).map b.bit

theorem length_denote (b : BitmapAllocator) : b.denote.length = 4096 * b.blocks.length := by
  simp [denote]

variable {j : ℕ} {b : BitmapAllocator}

theorem getElem?_denote (b : BitmapAllocator) (hj : j < 4096 * b.blocks.length) :
    b.denote[j]? = some (b.bit j) := by
  simp [denote, hj]

theorem bit_of_denote {bits : List Bool} (h : b.denote = bits) (hj : b.bit j = false) : bits[j]? = some false := by
  rw [← h, getElem?_denote b (lt_of_bit_false hj), hj]

theorem denote_changes {b' : BitmapAllocator} {l : List ℕ} {v : Bool} (h : Changes l v b b') :
    b'.denote = BitmapOp.assign v b.denote l := by
  apply List.ext_getElem?
  intro j
  by_cases hj : j < 4096 * b.blocks.length
  · rw [getElem?_denote b' (by rwa [h.length]), h.bit,
      BitmapOp.getElem?_assign _ _ _ _ (by rwa [length_denote]), getElem?_denote b hj]
    split_ifs <;> rfl
  · rw [List.getElem?_eq_none (by rw [length_denote, h.length]; omega),
      List.getElem?_eq_none (by rw [BitmapOp.length_assign, length_denote]; omega)]

theorem denote_addBlock (b : BitmapAllocator) (m : BitmapBlock) :
    (b.addBlock m).denote = b.denote ++ (List.range 4096).map m.get := by
  apply List.ext_getElem?
  intro j
  have hlen : (b.addBlock m).blocks.length = b.blocks.length + 1 := by simp [blocks_addBlock]
  by_cases hj : j < 4096 * b.blocks.length
  · rw [getElem?_denote _ (by omega), bit_addBlock, if_neg (by omega),
      List.getElem?_append_left (by rwa [length_denote]), getElem?_denote b hj]
  · rw [List.getElem?_append_right (by rw [length_denote]; omega), length_denote]
    by_cases hj' : j < 4096 * (b.blocks.length + 1)
    · have hmod : j % 4096 = j - 4096 * b.blocks.length := by omega
      rw [getElem?_denote _ (by rwa [hlen]), bit_addBlock, if_pos (by omega), hmod,
        List.getElem?_map, List.getElem?_range (by omega)]
      rfl
    · rw [List.getElem?_eq_none (by rw [length_denote, hlen]; omega),
        List.getElem?_eq_none (by simp; omega)]

end BitmapAllocator

open BitmapAllocator

/-- An allocator and the flat array after the same calls, from the empty allocator on. -/
inductive BitmapRun (dataStart : ℕ) : BitmapAllocator → List Bool → Prop
  | new : BitmapRun dataStart (BitmapAllocator.new dataStart) []
  | step {b b' : BitmapAllocator} {bits : List Bool} {op : BitmapOp} {answer : Option ℕ} :
      BitmapRun dataStart b bits → op.InRange dataStart bits → op.run b = .ok (answer, b') →
      BitmapRun dataStart b' (op.flat dataStart bits answer)

structure BitmapInv (dataStart : ℕ) (b : BitmapAllocator) (bits : List Bool) : Prop where
  length : bits.length ≤ 2 ^ 64
  dataStart : b.dataStart = dataStart
  denote : b.denote = bits
  canonical : b.Canonical

variable {dataStart : ℕ} {b b' : BitmapAllocator} {bits : List Bool}

theorem BitmapInv.change {l : List ℕ} {v : Bool} (h : BitmapInv dataStart b bits) (hc : Changes l v b b') :
    BitmapInv dataStart b' (BitmapOp.assign v bits l) :=
  ⟨by rw [BitmapOp.length_assign]; exact h.length, hc.dataStart.trans h.dataStart, by rw [denote_changes hc, h.denote],
    hc.canonical h.canonical⟩

theorem wsub_wadd {a c : ℕ} (ha : a < 2 ^ 64) (hc : c < 2 ^ 64) : wsub (wadd a c) c = a := by
  unfold wsub wadd
  split_ifs <;> omega

theorem BitmapInv.start_lt {start count : ℕ} (h : BitmapInv dataStart b bits) (hpos : 0 < count)
    (hfree : ∀ i < count, b.bit (start + i) = false) : start + count ≤ bits.length := by
  have hlt := lt_of_bit_false (hfree (count - 1) (by omega))
  rw [← h.denote, length_denote]
  omega

/-- One call, from a state that satisfies the invariant: it does not panic, and
the array follows it. -/
theorem bitmap_step (hstart : dataStart < 2 ^ 64) (op : BitmapOp) (h : BitmapInv dataStart b bits)
    (hr : op.InRange dataStart bits) :
    ∃ answer b', op.run b = .ok (answer, b') ∧
      BitmapInv dataStart b' (op.flat dataStart bits answer) := by
  have hlen : bits.length = 4096 * b.blocks.length := by rw [← h.denote, length_denote]
  cases op with
  | addBlock block =>
    refine ⟨none, _, rfl, ?_, h.dataStart, ?_, canonical_addBlock h.canonical block⟩
    · rw [BitmapOp.flat, List.length_append, List.length_map, List.length_range]
      exact hr
    · rw [denote_addBlock, h.denote]
      rfl
  | alloc count =>
    rcases alloc_spec b count with hnone | ⟨start, b', hb', hpos, hfree, hc⟩
    · exact ⟨none, b, hnone, h⟩
    · refine ⟨_, b', hb', ?_⟩
      have hlt := h.start_lt hpos hfree
      have hbound := h.length
      rw [h.dataStart, BitmapOp.flat, wsub_wadd (by omega) hstart]
      exact h.change hc
  | free start count =>
    obtain ⟨b', hb', hc⟩ := free_wrapped b start count (by rw [h.dataStart, ← hlen]; exact hr)
    refine ⟨none, b', by simp [BitmapOp.run, hb'], ?_⟩
    have := h.change hc
    rwa [h.dataStart] at this
  | reserveFrom lba =>
    obtain ⟨b', hb', hc⟩ := reserveFrom_spec b lba
    refine ⟨none, b', by simp [BitmapOp.run, hb'], ?_⟩
    have hmul : wmul b.blocks.length BITS_PER_BLOCK = bits.length % 2 ^ 64 := by
      rw [hlen, Nat.mul_comm]
      rfl
    have := h.change hc
    unfold reserved at this
    rw [h.dataStart, hmul] at this
    simp only [BitmapOp.flat]
    split_ifs at this ⊢ with hlt
    · exact this
    · exact this

theorem bitmapInv_of_run (hstart : dataStart < 2 ^ 64) (h : BitmapRun dataStart b bits) : BitmapInv dataStart b bits := by
  induction h with
  | new => exact ⟨Nat.zero_le _, rfl, rfl, fun s hs => absurd hs (by simp [BitmapAllocator.new])⟩
  | step _ hr hop ih =>
    obtain ⟨answer, b', hb', hinv⟩ := bitmap_step hstart _ ih hr
    rw [hop] at hb'
    cases hb'
    exact hinv

/-- Giving back what was just allocated restores the very same value, because
its canonical form is determined by its bits. -/
theorem free_alloc {count lba : ℕ} (hstart : dataStart < 2 ^ 64) (hinv : BitmapInv dataStart b bits)
    (h : b.alloc count = .ok (some lba, b')) :
    b'.free lba count = .ok b := by
  rcases alloc_spec b count with hnone | ⟨start, b₁, hb₁, hpos, hfree, hc⟩
  · rw [hnone] at h
    cases h
  rw [hb₁] at h
  cases h
  have hlt := hinv.start_lt hpos hfree
  have hbound := hinv.length
  have hbits : bits.length = 4096 * b.blocks.length := by rw [← hinv.denote, length_denote]
  have hbase : wsub (wadd start b.dataStart) b'.dataStart = start := by
    rw [hc.dataStart, hinv.dataStart, wsub_wadd (by omega) hstart]
  obtain ⟨b2, hb2, hc2⟩ := free_wrapped b' (wadd start b.dataStart) count (by rw [hbase, hc.length]; omega)
  have hback : b2 = b := by
    refine canonical_ext (hc2.canonical (hc.canonical hinv.canonical)) hinv.canonical (hc2.dataStart.trans hc.dataStart)
      (hc2.length.trans hc.length) fun j => ?_
    rw [hc2.bit, hc.bit, hbase]
    split_ifs with hj
    · obtain ⟨h1, h2⟩ := mem_span.1 hj
      have := hfree (j - start) (by omega)
      rw [Nat.add_sub_cancel' h1] at this
      exact this.symm
    · rfl
  rw [hb2, hback]

/-- The tri-state bitmap refines the flat array of bits. In every state of a run
the blocks stand for the array, stored mixed blocks are neither all zero nor all
ones, and no further in-range call panics; an allocation turns exactly its own
bits from free to used, and freeing it gives the same allocator back. Sector numbers wrap at 64 bits. -/
theorem bitmap_refines_bits (dataStart : ℕ) (b : BitmapAllocator) (bits : List Bool) (hstart : dataStart < 2 ^ 64)
    (h : BitmapRun dataStart b bits) :
    b.denote = bits ∧ b.Canonical ∧
    (∀ op : BitmapOp, op.InRange dataStart bits → ∃ answer b', op.run b = .ok (answer, b')) ∧
    ∀ (count lba : ℕ) (b' : BitmapAllocator), b.alloc count = .ok (some lba, b') →
      (dataStart + bits.length ≤ 2 ^ 64 → dataStart ≤ lba) ∧
      (∀ i < count, bits[wsub lba dataStart + i]? = some false) ∧
      (∀ j, b'.denote[j]? =
        if wsub lba dataStart ≤ j ∧ j < wsub lba dataStart + count then some true else bits[j]?) ∧
      b'.free lba count = .ok b := by
  have hinv := bitmapInv_of_run hstart h
  refine ⟨hinv.denote, hinv.canonical, fun op hr => ?_, fun count lba b' hb' => ?_⟩
  · obtain ⟨answer, b', hb', -⟩ := bitmap_step hstart op hinv hr
    exact ⟨answer, b', hb'⟩
  have hback := free_alloc hstart hinv hb'
  rcases alloc_spec b count with hnone | ⟨start, b₁, hb₁, hpos, hfree, hc⟩
  · rw [hnone] at hb'
    cases hb'
  rw [hb₁] at hb'
  cases hb'
  rw [hinv.dataStart] at hback ⊢
  have hlt := hinv.start_lt hpos hfree
  have hbound := hinv.length
  rw [wsub_wadd (by omega) hstart]
  refine ⟨fun hfit => ?_, fun i hi => bit_of_denote hinv.denote (hfree i hi), fun j => ?_, hback⟩
  · rw [wadd_of_lt (by omega)]
    omega
  rw [denote_changes hc, hinv.denote]
  by_cases hj : j < bits.length
  · rw [BitmapOp.getElem?_assign _ _ _ _ hj]
    simp only [mem_span]
  · rw [List.getElem?_eq_none (by rw [BitmapOp.length_assign]; omega), if_neg (by omega),
      List.getElem?_eq_none (by omega)]

/-- A sector whose first bit is set, two allocations with a free between them, and a reservation. -/
theorem bitmap_refines_bits_mixed :
    ∃ b₁ b₂ b₃ b₄ b₅ bits, b₁ = (BitmapAllocator.new 3).addBlock (fun i => if i = 0 then 1 else 0) ∧
      b₁.blocks.map BlockState.isMixed = [true] ∧ b₁.alloc 2 = .ok (some 4, b₂) ∧ b₂.free 4 1 = .ok b₃ ∧
      BitmapRun 3 b₃ bits ∧ b₃.denote = bits ∧ b₃.alloc 2 = .ok (some 6, b₄) ∧ (∀ i < 2, bits[3 + i]? = some false) ∧
      b₄.free 6 2 = .ok b₃ ∧ b₃.reserveFrom 10 = .ok b₅ := by
  obtain ⟨b₁, hb₁⟩ : ∃ b₁, b₁ = (BitmapAllocator.new 3).addBlock (fun i => if i = 0 then 1 else 0) := ⟨_, rfl⟩
  have hanswers : (do
      let r ← b₁.alloc 2
      let b ← r.2.free 4 1
      let r' ← b.alloc 2
      pure (r.1, r'.1) : Except Fault _).toOption = some (some 4, some 6) := by
    rw [hb₁]
    decide +kernel
  have hmixed : b₁.blocks.map BlockState.isMixed = [true] := by
    rw [hb₁]
    decide +kernel
  rcases halloc : b₁.alloc 2 with e | ⟨answer, b₂⟩
  · rw [halloc] at hanswers
    cases hanswers
  rcases hfree : b₂.free 4 1 with e | b₃
  · simp [halloc, hfree, bind, Except.bind, Except.toOption] at hanswers
  rcases halloc' : b₃.alloc 2 with e | ⟨answer', b₄⟩
  · simp [halloc, hfree, halloc', bind, Except.bind, Except.toOption] at hanswers
  simp only [halloc, hfree, halloc', bind, Except.bind, pure, Except.pure, Except.toOption, Option.some.injEq,
    Prod.mk.injEq] at hanswers
  obtain ⟨rfl, rfl⟩ := hanswers
  have hadd : BitmapRun 3 b₁ (BitmapOp.flat 3 [] none (.addBlock fun i => if i = 0 then 1 else 0)) := by
    rw [hb₁]
    exact .step .new (show [].length + 4096 ≤ 2 ^ 64 by norm_num) rfl
  obtain ⟨bits, hused, hlen⟩ : ∃ bits, BitmapRun 3 b₂ bits ∧ bits.length = 4096 := by
    refine ⟨_, .step hadd (show BitmapOp.InRange 3 _ (.alloc 2) from trivial) halloc, ?_⟩
    simp only [BitmapOp.flat, BitmapOp.length_assign, List.length_append, List.length_map, List.length_range]
    rfl
  have hrun : BitmapRun 3 b₃ (BitmapOp.flat 3 bits none (.free 4 1)) := by
    refine .step hused ?_ (show (none, ·) <$> b₂.free 4 1 = .ok (none, b₃) by rw [hfree]; rfl)
    rw [BitmapOp.InRange, hlen]
    decide
  obtain ⟨hdenote, -, hreturns, hallocs⟩ := bitmap_refines_bits 3 b₃ _ (by norm_num) hrun
  obtain ⟨-, hbits, -, hback⟩ := hallocs 2 6 b₄ halloc'
  obtain ⟨b₅, hreserve⟩ : ∃ b₅, b₃.reserveFrom 10 = .ok b₅ := by
    obtain ⟨answer, b₅, h⟩ := hreturns (.reserveFrom 10) trivial
    rcases hres : b₃.reserveFrom 10 with e | b₅
    · simp [BitmapOp.run, hres] at h
    · exact ⟨b₅, rfl⟩
  exact ⟨b₁, b₂, b₃, b₄, b₅, _, hb₁, hmixed, halloc, hfree, hrun, hdenote, halloc', hbits, hback, hreserve⟩

end MaramOS
