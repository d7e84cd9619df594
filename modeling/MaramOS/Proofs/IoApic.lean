import MaramOS.Spec.Apic

/-! Which I/O APIC a global system interrupt goes to, and which redirection entry of it.
The controllers are expected in the order of their bases, although nothing sorts them, and
a controller is given entries as if it had at most 120 of them. -/

namespace MaramOS.IOApic

open Prog

section Owner

variable {ioapics : List IOApic} {gsi i : ℕ} {a : IOApic}

/-- The base of the controller after the `i`th one, as `ioapic_index` sees it. -/
def nextBase (ioapics : List IOApic) (i : ℕ) : ℕ := (ioapics[i + 1]?.map IOApic.gsiBase).getD (2 ^ 32 - 1)

/-- The test of `ioapic_index` for the `i`th controller. -/
def Matches (ioapics : List IOApic) (gsi i : ℕ) : Prop :=
  ∃ a, ioapics[i]? = some a ∧ a.gsiBase ≤ gsi ∧ gsi < nextBase ioapics i

theorem matches_cons_zero : Matches (a :: ioapics) gsi 0 ↔
    a.gsiBase ≤ gsi ∧ gsi < (ioapics.head?.map IOApic.gsiBase).getD (2 ^ 32 - 1) := by
  simp [Matches, nextBase, List.head?_eq_getElem?]

theorem matches_cons_succ : Matches (a :: ioapics) gsi (i + 1) ↔ Matches ioapics gsi i := by
  simp only [Matches, nextBase, List.getElem?_cons_succ]

theorem le_of_indexLoop {k m : ℕ} (h : indexLoop gsi ioapics k = some m) : k ≤ m := by
  induction ioapics generalizing k with
  | nil => cases h
  | cons a ioapics ih =>
    rw [indexLoop] at h
    split_ifs at h
    · cases h
      exact le_rfl
    · exact (Nat.le_succ k).trans (ih h)

theorem indexLoop_eq_some_iff {k : ℕ} :
    indexLoop gsi ioapics k = some (k + i) ↔ Matches ioapics gsi i ∧ ∀ j < i, ¬Matches ioapics gsi j := by
  induction ioapics generalizing k i with
  | nil => simp [indexLoop, Matches]
  | cons a ioapics ih =>
    rw [indexLoop]
    by_cases hfirst : Matches (a :: ioapics) gsi 0
    · rw [if_pos (matches_cons_zero.1 hfirst), Option.some_inj]
      constructor
      · intro heq
        obtain rfl : i = 0 := by omega
        exact ⟨hfirst, fun j hj => absurd hj (Nat.not_lt_zero j)⟩
      · rintro ⟨-, hbefore⟩
        by_contra hne
        exact hbefore 0 (by omega) hfirst
    · rw [if_neg fun h => hfirst (matches_cons_zero.2 h)]
      cases i with
      | zero =>
        refine ⟨fun h => ?_, fun h => absurd h.1 hfirst⟩
        have := le_of_indexLoop h
        omega
      | succ i =>
        rw [Nat.add_comm i 1, ← Nat.add_assoc, ih, Nat.add_comm 1 i, matches_cons_succ]
        refine and_congr_right fun _ => ⟨fun h j hj => ?_, fun h j hj => ?_⟩
        · cases j with
          | zero => exact hfirst
          | succ j =>
            rw [matches_cons_succ]
            exact h j (by omega)
        · have hnext := h (j + 1) (by omega)
          rwa [matches_cons_succ] at hnext

theorem ioapicIndex_eq_ok_iff :
    ioapicIndex (some ioapics) gsi = .ok i ↔ Matches ioapics gsi i ∧ ∀ j < i, ¬Matches ioapics gsi j := by
  have hloop := @indexLoop_eq_some_iff ioapics gsi i 0
  rw [Nat.zero_add] at hloop
  rw [← hloop, ioapicIndex]
  cases indexLoop gsi ioapics 0 <;> simp

theorem ioapicIndex_eq_error_iff :
    ioapicIndex (some ioapics) gsi = .error .gsiUnderflow ↔ ∀ i, ioapicIndex (some ioapics) gsi ≠ .ok i := by
  rw [ioapicIndex]
  cases indexLoop gsi ioapics 0 <;> simp

/-- The controller that `gsi` belongs to: none with a base up to `gsi` has a greater one. -/
def Owner (ioapics : List IOApic) (gsi i : ℕ) : Prop :=
  ∃ a, ioapics[i]? = some a ∧ a.gsiBase ≤ gsi ∧ ∀ b ∈ ioapics, b.gsiBase ≤ gsi → b.gsiBase ≤ a.gsiBase

theorem exists_owner (ha : a ∈ ioapics) (hle : a.gsiBase ≤ gsi) : ∃ i, Owner ioapics gsi i := by
  obtain ⟨b, hb, hmax⟩ := Finset.exists_max_image (ioapics.toFinset.filter fun b => b.gsiBase ≤ gsi) IOApic.gsiBase
    ⟨a, by simp [ha, hle]⟩
  simp only [Finset.mem_filter, List.mem_toFinset] at hb hmax
  obtain ⟨i, hi⟩ := List.getElem?_of_mem hb.1
  exact ⟨i, b, hi, hb.2, fun c hc hcle => hmax c ⟨hc, hcle⟩⟩

structure Routes (ioapics : List IOApic) (gsi : ℕ) : Prop where
  ok : ∀ i, ioapicIndex (some ioapics) gsi = .ok i ↔ Owner ioapics gsi i
  error : ioapicIndex (some ioapics) gsi = .error .gsiUnderflow ↔ ∀ a ∈ ioapics, gsi < a.gsiBase

/-- The order of the list leads to the owner: no controller before it that could own `gsi` is followed by one that
could not, and the one that follows it could not, or there is none and `gsi` is not the greatest number. -/
def Ordered (ioapics : List IOApic) (gsi i : ℕ) : Prop :=
  (∀ j < i, ∀ a b, ioapics[j]? = some a → ioapics[j + 1]? = some b → a.gsiBase ≤ gsi → b.gsiBase ≤ gsi) ∧
  gsi < nextBase ioapics i

theorem Owner.ordered_iff (h : Owner ioapics gsi i) :
    Ordered ioapics gsi i ↔ Matches ioapics gsi i ∧ ∀ j < i, ¬Matches ioapics gsi j := by
  obtain ⟨c, hc, hle, -⟩ := h
  have hlen : i < ioapics.length := (List.getElem?_eq_some_iff.1 hc).1
  constructor
  · rintro ⟨hbefore, hnext⟩
    refine ⟨⟨c, hc, hle, hnext⟩, fun j hj => ?_⟩
    rintro ⟨a, ha, hale, hlt⟩
    have hb : ioapics[j + 1]? = some ioapics[j + 1] := List.getElem?_eq_getElem (by omega)
    rw [nextBase, hb, Option.map_some, Option.getD_some] at hlt
    exact absurd (hbefore j hj a _ ha hb hale) (Nat.not_le.2 hlt)
  · rintro ⟨⟨_, _, _, hnext⟩, hbefore⟩
    refine ⟨fun j hj a b ha hb hale => ?_, hnext⟩
    by_contra hlt
    refine hbefore j hj ⟨a, ha, hale, ?_⟩
    rw [nextBase, hb, Option.map_some, Option.getD_some]
    exact Nat.lt_of_not_le hlt

/-- `ioapic_index` finds the owner exactly when the list leads to it. -/
theorem routes_iff (ioapics : List IOApic) (gsi : ℕ) :
    Routes ioapics gsi ↔ ∀ i, Owner ioapics gsi i → Ordered ioapics gsi i := by
  constructor
  · intro h i hi
    exact hi.ordered_iff.2 (ioapicIndex_eq_ok_iff.1 ((h.ok i).2 hi))
  · intro h
    have hok : ∀ i, ioapicIndex (some ioapics) gsi = .ok i ↔ Owner ioapics gsi i := by
      intro i
      constructor
      · intro hfound
        obtain ⟨⟨a, ha, hle, hnext⟩, hbefore⟩ := ioapicIndex_eq_ok_iff.1 hfound
        obtain ⟨k, hk⟩ := exists_owner (List.mem_of_getElem? ha) hle
        have hkfound := ioapicIndex_eq_ok_iff.2 (hk.ordered_iff.1 (h k hk))
        rw [hfound] at hkfound
        cases hkfound
        exact hk
      · exact fun hi => ioapicIndex_eq_ok_iff.2 (hi.ordered_iff.1 (h i hi))
    refine ⟨hok, ?_⟩
    rw [ioapicIndex_eq_error_iff]
    constructor
    · intro hnone a ha
      by_contra hle
      obtain ⟨i, hi⟩ := exists_owner ha (Nat.le_of_not_lt hle)
      exact hnone i ((hok i).2 hi)
    · intro hall i hi
      obtain ⟨a, ha, hle, -⟩ := (hok i).1 hi
      exact absurd hle (Nat.not_le.2 (hall a (List.mem_of_getElem? ha)))

/-- A controller with base 24 that is listed before the one with base 0. -/
def descending : List IOApic := [⟨1, 0xFEC01000, 24⟩, ⟨0, 0xFEC00000, 0⟩]

theorem descending_misroutes :
    (descending.map IOApic.gsiBase).Nodup ∧ ioapicIndex (some descending) 30 = .ok 1 ∧ Owner descending 30 0 ∧
    ¬Routes descending 30 := by
  have howner : Owner descending 30 0 := ⟨⟨1, 0xFEC01000, 24⟩, rfl, by decide, by decide⟩
  refine ⟨by decide, rfl, howner, fun h => ?_⟩
  have hfound : ioapicIndex (some descending) 30 = .ok 0 := (h.ok 0).2 howner
  revert hfound
  decide

theorem greatest_refused (hne : ioapics ≠ []) (hbound : ∀ a ∈ ioapics, a.gsiBase < 2 ^ 32) :
    ¬Routes ioapics (2 ^ 32 - 1) := by
  intro h
  obtain ⟨a, ha⟩ := List.exists_mem_of_ne_nil ioapics hne
  have hle : a.gsiBase ≤ 2 ^ 32 - 1 := Nat.le_sub_one_of_lt (hbound a ha)
  obtain ⟨i, hi⟩ := exists_owner ha hle
  have hnext := (hi.ordered_iff.2 (ioapicIndex_eq_ok_iff.1 ((h.ok i).2 hi))).2
  rw [nextBase] at hnext
  cases hget : ioapics[i + 1]? with
  | none => simp [hget] at hnext
  | some b =>
    have := hbound b (List.mem_of_getElem? hget)
    simp only [hget, Option.map_some, Option.getD_some] at hnext
    omega

theorem Matches.owner (hsorted : ioapics.Pairwise fun a b => a.gsiBase ≤ b.gsiBase) (h : Matches ioapics gsi i) :
    Owner ioapics gsi i := by
  obtain ⟨a, ha, hle, hnext⟩ := h
  refine ⟨a, ha, hle, fun b hb hble => ?_⟩
  obtain ⟨k, hk⟩ := List.getElem?_of_mem hb
  obtain ⟨hilt, rfl⟩ := List.getElem?_eq_some_iff.1 ha
  obtain ⟨hklt, rfl⟩ := List.getElem?_eq_some_iff.1 hk
  rcases Nat.lt_trichotomy k i with hki | rfl | hik
  · exact List.pairwise_iff_getElem.1 hsorted k i hklt hilt hki
  · exact le_rfl
  · -- everything after the owner begins above `gsi`
    have hget : ioapics[i + 1]? = some ioapics[i + 1] := List.getElem?_eq_getElem (by omega)
    rw [nextBase, hget, Option.map_some, Option.getD_some] at hnext
    have hle : i + 1 ≤ k := hik
    rcases Nat.eq_or_lt_of_le hle with rfl | hlt
    · omega
    · have := List.pairwise_iff_getElem.1 hsorted (i + 1) k (by omega) hklt hlt
      omega

end Owner

section Entries

variable {ioapics : List IOApic} {s s' : IOApicState} {gsi i : ℕ} {reg : UInt8} {Q : ℕ → IOApicState → Prop}
  {log : List (ℕ × UInt8)}

/-- The calls that use a redirection entry. -/
inductive GsiCall
  | redirect (vector cpu : UInt8) (flags : UInt16)
  | unmask
  | mask
  deriving DecidableEq, Repr

def GsiCall.call : GsiCall → ℕ → Access Unit
  | .redirect vector cpu flags, gsi => IOApic.redirect gsi vector cpu flags
  | .unmask, gsi => IOApic.unmask gsi
  | .mask, gsi => IOApic.mask gsi

theorem wp_index (hs : s.ioapics = some ioapics) (hQ : ∀ i, ioapicIndex (some ioapics) gsi = .ok i → Q i s) :
    wp (index gsi) s Q fun _ _ => True := by
  refine wp_reads.2 ⟨fun i hi => hQ i ?_, fun _ _ => trivial⟩
  rw [hs] at hi
  cases hfound : ioapicIndex (some ioapics) gsi with
  | error e => rw [hfound] at hi; cases hi
  | ok k => rw [hfound] at hi; cases hi; rfl

theorem wp_gsiToEntry (hs : s.ioapics = some ioapics) {Q : UInt8 → IOApicState → Prop}
    (hQ : ∀ i a, ioapicIndex (some ioapics) gsi = .ok i → ioapics[i]? = some a →
      Q (UInt8.ofNat (gsi - a.gsiBase)) s) : wp (gsiToEntry gsi) s Q fun _ _ => True := by
  refine wp_bind.2 (wp_index hs fun i hi => wp_bind.2 (wp_reads.2 ⟨fun a ha => ?_, fun _ _ => trivial⟩))
  rw [hs] at ha
  cases hget : ioapics[i]? with
  | none => simp [hget] at ha
  | some b =>
    simp only [hget, Except.ok.injEq] at ha
    subst ha
    split_ifs
    · exact wp_fail.2 trivial
    · exact wp_pure.2 (hQ i b hi hget)

theorem wp_region (hQ : ∀ r, Q r s) : wp (region i) s Q fun _ _ => True :=
  wp_reads.2 ⟨fun r _ => hQ r, fun _ _ => trivial⟩

theorem wp_ioapicRead {Q : UInt32 → IOApicState → Prop}
    (hQ : ∀ v s', s'.accesses = s.accesses ++ [(i, reg)] → Q v s') : wp (ioapicRead i reg) s Q fun _ _ => True :=
  wp_bind.2 (wp_region fun _ => wp_bind.2 (wp_modify.2 (wp_reads.2 ⟨fun v _ => hQ v _ rfl, fun _ _ => trivial⟩)))

theorem wp_ioapicWrite {val : UInt32} {Q : Unit → IOApicState → Prop}
    (hQ : ∀ s', s'.accesses = s.accesses ++ [(i, reg)] → Q () s') : wp (ioapicWrite i reg val) s Q fun _ _ => True :=
  wp_bind.2 (wp_region fun _ => wp_modify.2 (hQ _ rfl))

/-- The number that is computed for the low half of the entry of `gsi`. -/
def regLow (a : IOApic) (gsi : ℕ) : UInt8 := RTE_BASE + 2 * UInt8.ofNat (gsi - a.gsiBase)

/-- What a call has accessed: the low half of one entry, and maybe the high half. -/
def Touches (ioapics : List IOApic) (gsi : ℕ) (log : List (ℕ × UInt8)) : Prop :=
  ∃ i a, Matches ioapics gsi i ∧ ioapics[i]? = some a ∧ (i, regLow a gsi) ∈ log ∧
    ∀ p ∈ log, p = (i, regLow a gsi) ∨ p = (i, regLow a gsi + 1)

theorem wp_located (hs : s.ioapics = some ioapics) {f : ℕ → UInt8 → Access Unit} {Q : Unit → IOApicState → Prop}
    (hf : ∀ i a, Matches ioapics gsi i → ioapics[i]? = some a →
      wp (f i (UInt8.ofNat (gsi - a.gsiBase))) s Q fun _ _ => True) :
    wp (index gsi >>= fun i => gsiToEntry gsi >>= f i) s Q fun _ _ => True := by
  refine wp_bind.2 (wp_index hs fun i hi => wp_bind.2 (wp_gsiToEntry hs fun k a hk ha => ?_))
  rw [hi] at hk
  cases hk
  exact hf i a (ioapicIndex_eq_ok_iff.1 hi).1 ha

theorem touches_of_call (hs : s.ioapics = some ioapics) (hlog : s.accesses = []) (c : GsiCall) {r : Unit}
    (hrun : c.call gsi s = (.ok r, s')) : Touches ioapics gsi s'.accesses := by
  have hcall : wp (c.call gsi) s (fun _ s' => Touches ioapics gsi s'.accesses) fun _ _ => True := by
    cases c with
    | redirect vector cpu flags =>
      refine wp_located hs fun i a hi ha => wp_bind.2 (wp_ioapicRead fun v s1 h1 =>
        wp_bind.2 (wp_ioapicWrite fun s2 h2 => wp_ioapicWrite fun s3 h3 => ?_))
      rw [h3, h2, h1, hlog]
      exact ⟨i, a, hi, ha, by simp [regLow], by simp [regLow]⟩
    | unmask | mask =>
      refine wp_located hs fun i a hi ha => wp_bind.2 (wp_ioapicRead fun v s1 h1 => wp_ioapicWrite fun s2 h2 => ?_)
      rw [h2, h1, hlog]
      exact ⟨i, a, hi, ha, by simp [regLow], by simp [regLow]⟩
  have htouches := wp_ok hcall hrun
  exact htouches

theorem toNat_regLow (a : IOApic) (gsi : ℕ) : (regLow a gsi).toNat = (16 + 2 * (gsi - a.gsiBase)) % 256 := by
  have hbase : RTE_BASE.toNat = 16 := rfl
  have htwo : (2 : UInt8).toNat = 2 := rfl
  rw [regLow, UInt8.toNat_add, UInt8.toNat_mul, UInt8.toNat_ofNat', hbase, htwo]
  omega

theorem toNat_regHigh (a : IOApic) (gsi : ℕ) : (regLow a gsi + 1).toNat = (17 + 2 * (gsi - a.gsiBase)) % 256 := by
  rw [UInt8.toNat_add, toNat_regLow, UInt8.toNat_one]
  omega

/-- Every register is one of the two of the entry, as exact integers. -/
def Exact (ioapics : List IOApic) (gsi : ℕ) (log : List (ℕ × UInt8)) : Prop :=
  ∀ p ∈ log, ∃ a, ioapics[p.1]? = some a ∧ a.gsiBase ≤ gsi ∧
    (p.2.toNat = 0x10 + 2 * (gsi - a.gsiBase) ∨ p.2.toNat = 0x10 + 2 * (gsi - a.gsiBase) + 1)

/-- Some controller begins less than 120 interrupts below `gsi`. -/
def Near (ioapics : List IOApic) (gsi : ℕ) : Prop := ∃ a ∈ ioapics, a.gsiBase ≤ gsi ∧ gsi < a.gsiBase + 120

theorem Touches.exact_iff (hsorted : ioapics.Pairwise fun a b => a.gsiBase ≤ b.gsiBase) (h : Touches ioapics gsi log) :
    Exact ioapics gsi log ↔ Near ioapics gsi := by
  obtain ⟨i, a, hmatch, ha, hlow, hlog⟩ := h
  obtain ⟨b, hb, hle, hmax⟩ := hmatch.owner hsorted
  rw [ha] at hb
  cases hb
  have hlownum := toNat_regLow a gsi
  have hhighnum := toNat_regHigh a gsi
  constructor
  · intro hexact
    obtain ⟨b, hb, -, hreg⟩ := hexact _ hlow
    rw [ha] at hb
    cases hb
    refine ⟨a, List.mem_of_getElem? ha, hle, ?_⟩
    simp only at hreg
    omega
  · rintro ⟨b, hb, hble, hnear⟩ p hp
    have hbase := hmax b hb hble
    rcases hlog p hp with rfl | rfl
    · refine ⟨a, ha, hle, Or.inl ?_⟩
      simp only
      omega
    · refine ⟨a, ha, hle, Or.inr ?_⟩
      simp only
      omega

theorem disjoint_of_exact {g h : ℕ} (hne : g ≠ h) {log' : List (ℕ × UInt8)} (hg : Exact ioapics g log)
    (hh : Exact ioapics h log') : List.Disjoint log log' := by
  intro p hp hp'
  obtain ⟨a, ha, hale, hreg⟩ := hg p hp
  obtain ⟨b, hb, hble, hreg'⟩ := hh p hp'
  rw [ha] at hb
  cases hb
  omega

/-- Two calls for different interrupts that succeed use different registers, and each the ones of its entry, if
and only if both interrupts are near the base of a controller. -/
theorem entries_separate_iff (hsorted : ioapics.Pairwise fun a b => a.gsiBase ≤ b.gsiBase) {s t s' t' : IOApicState}
    (hs : s.ioapics = some ioapics) (ht : t.ioapics = some ioapics) (hslog : s.accesses = [])
    (htlog : t.accesses = []) (c d : GsiCall) {g h : ℕ} (hne : g ≠ h) (hc : c.call g s = (.ok (), s'))
    (hd : d.call h t = (.ok (), t')) :
    (List.Disjoint s'.accesses t'.accesses ∧ Exact ioapics g s'.accesses ∧ Exact ioapics h t'.accesses) ↔
      Near ioapics g ∧ Near ioapics h := by
  have hg := (touches_of_call hs hslog c hc).exact_iff hsorted
  have hh := (touches_of_call ht htlog d hd).exact_iff hsorted
  constructor
  · rintro ⟨-, hgexact, hhexact⟩
    exact ⟨hg.1 hgexact, hh.1 hhexact⟩
  · rintro ⟨hgnear, hhnear⟩
    have hgexact := hg.2 hgnear
    have hhexact := hh.2 hhnear
    exact ⟨disjoint_of_exact hne hgexact hhexact, hgexact, hhexact⟩

def single : IOApicState := ⟨some [⟨0, 0xFEC00000, 0⟩], some [0xFEC00000], fun _ _ => 0, []⟩

theorem entries_separate_single :
    ((GsiCall.redirect 32 0 0).call 1 single).1 = .ok () ∧ (GsiCall.unmask.call 2 single).1 = .ok () ∧
    List.Disjoint ((GsiCall.redirect 32 0 0).call 1 single).2.accesses (GsiCall.unmask.call 2 single).2.accesses := by
  have hc : ((GsiCall.redirect 32 0 0).call 1 single).1 = .ok () := rfl
  have hd : (GsiCall.unmask.call 2 single).1 = .ok () := rfl
  have hnear : ∀ gsi < 120, Near [⟨0, 0xFEC00000, 0⟩] gsi := fun gsi hgsi =>
    ⟨_, List.mem_singleton.2 rfl, Nat.zero_le gsi, by omega⟩
  have hseparate := entries_separate_iff (List.pairwise_singleton _ _) rfl rfl rfl rfl (.redirect 32 0 0) .unmask
    (by decide) (run_of_result hc) (run_of_result hd)
  exact ⟨hc, hd, (hseparate.2 ⟨hnear 1 (by decide), hnear 2 (by decide)⟩).1⟩

/-- Interrupts 0 and 128 of one controller are given the same register. -/
theorem entries_shared :
    ∃ s' t', GsiCall.call .mask 0 single = (.ok (), s') ∧ GsiCall.call .mask 128 single = (.ok (), t') ∧
      s'.accesses = [(0, 0x10), (0, 0x10)] ∧ t'.accesses = [(0, 0x10), (0, 0x10)] ∧
      ¬List.Disjoint s'.accesses t'.accesses :=
  ⟨_, _, rfl, rfl, rfl, rfl, fun h => h (List.mem_cons_self) (List.mem_cons_self)⟩

end Entries

end MaramOS.IOApic
