import MaramOS.Spec.Apic

/-! The parser of the MADT. It trusts the entries to be as long as their types need and the
last of them to end with the table, and it reads past the end of the table, or takes a record
that is only partly inside, when they do not. -/

namespace MaramOS.Madt

open List Prog

variable {mem : ℕ → UInt8} {length offset : ℕ}

section Entries

def entryType (mem : ℕ → UInt8) (offset : ℕ) : ℕ := leNumber mem offset 1

def entryLength (mem : ℕ → UInt8) (offset : ℕ) : ℕ := leNumber mem (offset + 1) 1

/-- The record of an entry that describes an I/O APIC. -/
def ioapicsAt (mem : ℕ → UInt8) (offset : ℕ) : List IOApic :=
  if entryType mem offset = 0x01 then
    [⟨leNumber mem (offset + 2) 1, leNumber mem (offset + 4) 4, leNumber mem (offset + 8) 4⟩]
  else []

/-- The record of an entry that describes an interrupt source override. -/
def overridesAt (mem : ℕ → UInt8) (offset : ℕ) : List InterruptOverride :=
  if entryType mem offset = 0x02 then
    [⟨leNumber mem (offset + 3) 1, leNumber mem (offset + 4) 4, leNumber mem (offset + 8) 2⟩]
  else []

def readsAt (mem : ℕ → UInt8) (offset : ℕ) : List ℕ :=
  [offset, offset + 1] ++
    if entryType mem offset = 0x01 then (offset + 2) :: (List.range' (offset + 4) 4 ++ List.range' (offset + 8) 4)
    else if entryType mem offset = 0x02 then (offset + 3) :: (List.range' (offset + 4) 4 ++ List.range' (offset + 8) 2)
    else []

/-- The records of the entries from `offset` on that lie completely inside the table. -/
inductive Lists (mem : ℕ → UInt8) (length : ℕ) : ℕ → List IOApic → List InterruptOverride → Prop
  | done {offset : ℕ} (hend : length ≤ offset) : Lists mem length offset [] []
  | entry {offset : ℕ} {ioapics : List IOApic} {overrides : List InterruptOverride} (hlt : offset < length)
      (hpos : entryLength mem offset ≠ 0) (hfits : offset + entryLength mem offset ≤ length)
      (hrest : Lists mem length (offset + entryLength mem offset) ioapics overrides) :
      Lists mem length offset (ioapicsAt mem offset ++ ioapics) (overridesAt mem offset ++ overrides)
  | truncated {offset : ℕ} (hlt : offset < length) (hcut : length < offset + entryLength mem offset) :
      Lists mem length offset [] []

/-- The offsets at which the lengths lead to an entry, from `first` on. -/
inductive Reached (mem : ℕ → UInt8) (length first : ℕ) : ℕ → Prop
  | first : Reached mem length first first
  | next {offset : ℕ} (h : Reached mem length first offset) (hlt : offset < length)
      (hpos : entryLength mem offset ≠ 0) : Reached mem length first (offset + entryLength mem offset)

/-- An entry whose length is inside the table and, if it is one of those that are looked at, that is inside itself
and leaves room for the fields of its type. -/
structure Fits (mem : ℕ → UInt8) (length offset : ℕ) : Prop where
  header : offset + 1 < length
  ioapic : entryLength mem offset ≠ 0 → entryType mem offset = 0x01 →
    offset + entryLength mem offset ≤ length ∧ offset + 12 ≤ length
  override : entryLength mem offset ≠ 0 → entryType mem offset = 0x02 →
    offset + entryLength mem offset ≤ length ∧ offset + 10 ≤ length

def AllFit (mem : ℕ → UInt8) (length first : ℕ) : Prop :=
  ∀ offset, Reached mem length first offset → offset < length → Fits mem length offset

theorem reached_iff {first : ℕ} : Reached mem length first offset ↔ offset = first ∨
    first < length ∧ entryLength mem first ≠ 0 ∧ Reached mem length (first + entryLength mem first) offset := by
  constructor
  · intro h
    induction h with
    | first => exact .inl rfl
    | next h hlt hpos ih =>
      rcases ih with rfl | ⟨hfirst, hfirstpos, hrest⟩
      · exact .inr ⟨hlt, hpos, .first⟩
      · exact .inr ⟨hfirst, hfirstpos, .next hrest hlt hpos⟩
  · rintro (rfl | ⟨hfirst, hpos, h⟩)
    · exact .first
    · induction h with
      | first => exact .next .first hfirst hpos
      | next _ hlt hpos ih => exact .next ih hlt hpos

theorem allFit_of_end (hend : length ≤ offset) : AllFit mem length offset := by
  intro o ho hlt
  rcases reached_iff.1 ho with rfl | ⟨hfirst, -, -⟩ <;> omega

theorem allFit_iff (hlt : offset < length) : AllFit mem length offset ↔
    Fits mem length offset ∧ (entryLength mem offset ≠ 0 → AllFit mem length (offset + entryLength mem offset)) := by
  constructor
  · intro h
    exact ⟨h offset .first hlt, fun hpos o ho => h o (reached_iff.2 (.inr ⟨hlt, hpos, ho⟩))⟩
  · rintro ⟨hfits, hrest⟩ o ho holt
    rcases reached_iff.1 ho with rfl | ⟨-, hpos, ho⟩
    · exact hfits
    · exact hrest hpos o ho holt

theorem readsAt_lt_iff : (∀ i ∈ readsAt mem offset, i < length) ↔ offset + 1 < length ∧
    (entryType mem offset = 0x01 → offset + 12 ≤ length) ∧ (entryType mem offset = 0x02 → offset + 10 ≤ length) := by
  rw [readsAt]
  split_ifs with hioapic hoverride
  · simp [hioapic, range']
    omega
  · simp [hoverride, range']
    omega
  · simp [hioapic, hoverride]
    omega

theorem fits_iff_of_inside (hpos : entryLength mem offset ≠ 0) (hinside : offset + entryLength mem offset ≤ length) :
    Fits mem length offset ↔ ∀ i ∈ readsAt mem offset, i < length := by
  rw [readsAt_lt_iff]
  constructor
  · exact fun h => ⟨h.header, fun htype => (h.ioapic hpos htype).2, fun htype => (h.override hpos htype).2⟩
  · exact fun h => ⟨h.1, fun _ htype => ⟨hinside, h.2.1 htype⟩, fun _ htype => ⟨hinside, h.2.2 htype⟩⟩

theorem fits_iff_of_cut (hpos : entryLength mem offset ≠ 0) (hcut : length < offset + entryLength mem offset) :
    Fits mem length offset ↔
      (∀ i ∈ readsAt mem offset, i < length) ∧ ioapicsAt mem offset = [] ∧ overridesAt mem offset = [] := by
  rw [readsAt_lt_iff, ioapicsAt, overridesAt]
  constructor
  · intro h
    have hioapic : entryType mem offset ≠ 0x01 := fun htype => by
      have := (h.ioapic hpos htype).1
      omega
    have hoverride : entryType mem offset ≠ 0x02 := fun htype => by
      have := (h.override hpos htype).1
      omega
    exact ⟨⟨h.header, fun htype => absurd htype hioapic, fun htype => absurd htype hoverride⟩, if_neg hioapic,
      if_neg hoverride⟩
  · rintro ⟨⟨hheader, -, -⟩, hioapic, hoverride⟩
    refine ⟨hheader, fun _ htype => ?_, fun _ htype => ?_⟩
    · rw [if_pos htype] at hioapic
      cases hioapic
    · rw [if_pos htype] at hoverride
      cases hoverride

end Entries

section Loop

variable {turns : ℕ} {ioapics : List IOApic} {overrides : List InterruptOverride} {log : List ℕ}

theorem run_readAt (mem : ℕ → UInt8) (offset size : ℕ) (log : List ℕ) :
    readAt mem offset size log = (.ok (leNumber mem offset size), log ++ range' offset size) := rfl

theorem initApicLoop_end (hend : length ≤ offset) :
    initApicLoop mem length (turns + 1) offset ioapics overrides log = (.ok (ioapics, overrides), log) := by
  rw [initApicLoop, if_neg (Nat.not_lt.2 hend)]
  rfl

theorem initApicLoop_zero (hlt : offset < length) (hzero : entryLength mem offset = 0) :
    initApicLoop mem length (turns + 1) offset ioapics overrides log =
      (.error (.acpi .madtEntryLengthZero), log ++ [offset, offset + 1]) := by
  rw [initApicLoop, if_pos hlt, run_bind (run_readAt _ _ _ _), run_bind (run_readAt _ _ _ _), ← entryLength, if_pos hzero,
    append_assoc]
  rfl

theorem initApicLoop_turn (hlt : offset < length) (hpos : entryLength mem offset ≠ 0) :
    initApicLoop mem length (turns + 1) offset ioapics overrides log =
      initApicLoop mem length turns (offset + entryLength mem offset) (ioapics ++ ioapicsAt mem offset)
        (overrides ++ overridesAt mem offset) (log ++ readsAt mem offset) := by
  rw [initApicLoop, if_pos hlt, run_bind (run_readAt _ _ _ _), run_bind (run_readAt _ _ _ _), ← entryLength, if_neg hpos,
    ← entryType, ioapicsAt, overridesAt, readsAt]
  split_ifs with hioapic hoverride hoverride
  · rw [hioapic] at hoverride
    cases hoverride
  · rw [readIOApic, bind_assoc, run_bind (run_readAt _ _ _ _), bind_assoc, run_bind (run_readAt _ _ _ _), bind_assoc,
      run_bind (run_readAt _ _ _ _), pure_bind, append_nil]
    simp [range']
  · rw [readOverride, bind_assoc, run_bind (run_readAt _ _ _ _), bind_assoc, run_bind (run_readAt _ _ _ _), bind_assoc,
      run_bind (run_readAt _ _ _ _), pure_bind, append_nil]
    simp [range']
  · simp [range']

/-- What is expected of the parser: it reads inside the table, and it fails with `MADTEntryLengthZero` or adds the
records of the complete entries. -/
structure Parses (mem : ℕ → UInt8) (length offset : ℕ) (ioapics : List IOApic) (overrides : List InterruptOverride)
    (r : Except AcpiFault (List IOApic × List InterruptOverride) × List ℕ) : Prop where
  inside : ∀ i ∈ r.2, i < length
  result : r.1 = .error (.acpi .madtEntryLengthZero) ∨
    ∃ as os, Lists mem length offset as os ∧ r.1 = .ok (ioapics ++ as, overrides ++ os)

theorem parses_inside_iff (hlt : offset < length) (hpos : entryLength mem offset ≠ 0)
    (hinside : offset + entryLength mem offset ≤ length)
    {r : Except AcpiFault (List IOApic × List InterruptOverride) × List ℕ} :
    Parses mem length offset ioapics overrides r ↔
      Parses mem length (offset + entryLength mem offset) (ioapics ++ ioapicsAt mem offset)
        (overrides ++ overridesAt mem offset) r := by
  constructor
  · rintro ⟨hin, hzero | ⟨as, os, hlists, hok⟩⟩
    · exact ⟨hin, .inl hzero⟩
    · cases hlists with
      | done hend => omega
      | truncated _ hcut => omega
      | entry _ _ _ hrest =>
        refine ⟨hin, .inr ⟨_, _, hrest, ?_⟩⟩
        rw [hok, append_assoc, append_assoc]
  · rintro ⟨hin, hzero | ⟨as, os, hlists, hok⟩⟩
    · exact ⟨hin, .inl hzero⟩
    · refine ⟨hin, .inr ⟨_, _, .entry hlt hpos hinside hlists, ?_⟩⟩
      rw [hok, append_assoc, append_assoc]

/-- After one that is cut off, the loop ends, and nothing may have been taken from it. -/
theorem parses_cut_iff (hlt : offset < length) (hcut : length < offset + entryLength mem offset) :
    Parses mem length offset ioapics overrides
        (.ok (ioapics ++ ioapicsAt mem offset, overrides ++ overridesAt mem offset), log) ↔
      (∀ i ∈ log, i < length) ∧ ioapicsAt mem offset = [] ∧ overridesAt mem offset = [] := by
  constructor
  · rintro ⟨hin, hzero | ⟨as, os, hlists, hok⟩⟩
    · cases hzero
    · cases hlists with
      | done hend => omega
      | entry _ _ hinside _ => omega
      | truncated _ _ =>
        simp only [Except.ok.injEq, Prod.mk.injEq, append_cancel_left_eq] at hok
        exact ⟨hin, hok⟩
  · rintro ⟨hin, hioapics, hoverrides⟩
    refine ⟨hin, .inr ⟨[], [], .truncated hlt hcut, ?_⟩⟩
    rw [hioapics, hoverrides]

/-- The loop is right from any entry on if the bytes read so far were inside and all entries from there on fit. -/
theorem parses_loop_iff (hturns : length < offset + turns) (hpositive : 0 < turns) :
    Parses mem length offset ioapics overrides (initApicLoop mem length turns offset ioapics overrides log) ↔
      (∀ i ∈ log, i < length) ∧ AllFit mem length offset := by
  induction turns generalizing offset ioapics overrides log with
  | zero => cases hpositive
  | succ turns ih =>
    rcases Nat.lt_or_ge offset length with hlt | hend
    · by_cases hzero : entryLength mem offset = 0
      · rw [initApicLoop_zero hlt hzero, allFit_iff hlt]
        constructor
        · intro h
          have hheader := h.inside (offset + 1) (by simp)
          exact ⟨fun i hi => h.inside i (by simp [hi]),
            ⟨hheader, fun hpos => absurd hzero hpos, fun hpos => absurd hzero hpos⟩,
            fun hpos => absurd hzero hpos⟩
        · rintro ⟨hlog, hfits, -⟩
          refine ⟨fun i hi => ?_, .inl rfl⟩
          have := hfits.header
          simp only [mem_append, mem_cons, not_mem_nil, or_false] at hi
          rcases hi with hi | rfl | rfl
          · exact hlog i hi
          · omega
          · omega
      · rw [initApicLoop_turn hlt hzero, allFit_iff hlt]
        rcases Nat.lt_or_ge length (offset + entryLength mem offset) with hcut | hinside
        · obtain ⟨k, rfl⟩ : ∃ k, turns = k + 1 := ⟨turns - 1, by omega⟩
          have hrest : AllFit mem length (offset + entryLength mem offset) := allFit_of_end hcut.le
          rw [initApicLoop_end hcut.le, fits_iff_of_cut hzero hcut, parses_cut_iff hlt hcut, forall_mem_append,
            and_assoc]
          simp only [hrest, implies_true, and_true]
        · rw [parses_inside_iff hlt hzero hinside, ih (by omega) (by omega), fits_iff_of_inside hzero hinside,
            forall_mem_append, and_assoc]
          simp only [ne_eq, hzero, not_false_eq_true, forall_const]
    · rw [initApicLoop_end hend]
      refine ⟨fun h => ⟨h.inside, allFit_of_end hend⟩, fun h => ⟨h.1, .inr ⟨[], [], .done hend, ?_⟩⟩⟩
      rw [append_nil, append_nil]

end Loop

/-- The parser stays inside the table, and returns what it should, if and only if every entry that the lengths lead
to has its length inside the table and, if it is of one of the two types, is complete and has room for its fields. -/
theorem initApic_parses_iff (hsize : 44 ≤ leNumber mem 4 4) :
    Parses mem (leNumber mem 4 4) 44 [] [] (initApic mem []) ↔ AllFit mem (leNumber mem 4 4) 44 := by
  rw [initApic, run_bind (run_readAt _ _ _ _), parses_loop_iff (by omega) (by omega)]
  refine and_iff_right fun i hi => ?_
  simp only [List.nil_append, List.mem_range'_1] at hi
  omega

def wholeEntry (i : ℕ) : UInt8 := [56, 187, 1, 12].getD ([4, 9, 44, 45].idxOf i) 0

theorem initApic_parses_whole :
    (verifyChecksum wholeEntry = true ∧ leNumber wholeEntry 4 4 = 56) ∧
    Parses wholeEntry (leNumber wholeEntry 4 4) 44 [] [] (initApic wholeEntry []) := by
  have hsize : leNumber wholeEntry 4 4 = 56 := by decide
  refine ⟨⟨by decide +kernel, hsize⟩, (initApic_parses_iff (by rw [hsize]; decide)).2 ?_⟩
  rw [hsize, allFit_iff (by decide)]
  exact ⟨⟨by decide, by decide, by decide⟩, fun _ => allFit_of_end (by decide)⟩

/-- A table whose last entry says that it is an I/O APIC of two bytes. -/
def shortEntry (i : ℕ) : UInt8 := [46, 207, 1, 2].getD ([4, 9, 44, 45].idxOf i) 0

theorem shortEntry_read_outside :
    verifyChecksum shortEntry = true ∧ leNumber shortEntry 4 4 = 46 ∧ 55 ∈ (initApic shortEntry []).2 ∧
    ¬Parses shortEntry (leNumber shortEntry 4 4) 44 [] [] (initApic shortEntry []) := by
  have hsize : leNumber shortEntry 4 4 = 46 := by decide
  have hread : 55 ∈ (initApic shortEntry []).2 := by decide
  refine ⟨by decide +kernel, hsize, hread, fun h => ?_⟩
  have hin := h.inside 55 hread
  rw [hsize] at hin
  omega

end MaramOS.Madt
