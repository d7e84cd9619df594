import MaramOS.Proofs.PciBars

/-! Enumeration. All buses of the segments are in the worklist from the start, so that a bridge adds only buses outside of
its segment, where nothing is found, and none twice. What is wrong is the place a function is read from: the first segment
that has its bus, which need not be the segment where it was found. -/

namespace MaramOS.Pci

open List Prog
open PCIFunction (newIn)

variable {s : Segment} {segments : List Segment} {b d f : ℕ} {c : ConfigSpace} {α : Type} {st st' st'' : ScanState}

section Functions

theorem keeps_read32 (s : Segment) (b d f o : ℕ) : Keeps (read32 s b d f o) c := by
  cases hloc : locate s b d f o with
  | none => exact keeps_of_none (run_read32_none hloc c)
  | some addr => exact keeps_of_run (run_read32 hloc c)

theorem keeps_read8 (s : Segment) (b d f o : ℕ) : Keeps (read8 s b d f o) c :=
  (keeps_read32 s b d f _).bind fun _ => keeps_pure _

theorem run_unwrapOr {x : Config α} (h : Keeps x c) (a : α) : unwrapOr x a c = (.ok ((x c).1.toOption.getD a), c) := by
  rcases h.cases with hrun | ⟨a', hrun⟩
  · rw [unwrapOr, hrun]
    rfl
  · rw [unwrapOr, hrun]
    rfl

theorem run_unwrapOr_ok {x : Config α} {v : α} (h : x c = (.ok v, c)) (a : α) : unwrapOr x a c = (.ok v, c) := by
  rw [unwrapOr, h]

theorem Keeps.toOption_iff {x : Config α} {a : α} (h : Keeps x c) : (x c).1.toOption = some a ↔ x c = (.ok a, c) := by
  rcases h.cases with hrun | ⟨a', hrun⟩
  · simp [hrun, Except.toOption]
  · simp [hrun, Except.toOption]

theorem keeps_parseCapsLoop (turns : ℕ) (offset : BitVec 8) (caps : List CapHeader) :
    Keeps (parseCapsLoop s b d f turns offset caps) c := by
  induction turns generalizing offset caps with
  | zero => exact keeps_pure _
  | succ turns ih =>
    rw [parseCapsLoop]
    refine (keeps_read8 s b d f _).bind fun id => (keeps_read8 s b d f _).bind fun next => ?_
    dsimp only
    split_ifs
    · exact keeps_pure _
    · exact ih _ _

theorem keeps_parseCaps : Keeps (parseCaps s b d f) c := by
  refine (keeps_read8 s b d f _).bind fun capsPtr => ?_
  split_ifs
  · exact keeps_of_none rfl
  · exact keeps_parseCapsLoop _ _ _

theorem keeps_newIn (s : Segment) (b d f : ℕ) (c : ConfigSpace) : Keeps (newIn s b d f) c := by
  refine (keeps_read32 s b d f _).bind fun vendorData => ?_
  dsimp only
  split_ifs
  · exact keeps_of_none rfl
  · refine (keeps_read32 s b d f _).bind fun classData => (keeps_parseBarsLoop 6 c).bind fun bars => ?_
    exact (keeps_of_run (run_unwrapOr keeps_parseCaps [])).bind fun caps => keeps_pure _

theorem keeps_new (segments : List Segment) (b d f : ℕ) (c : ConfigSpace) : Keeps (PCIFunction.new segments b d f) c := by
  rw [PCIFunction.new]
  cases findEntry segments b with
  | none => exact keeps_of_none rfl
  | some e => exact keeps_newIn e b d f c

theorem newIn_ok {g : PCIFunction} (h : newIn s b d f c = (.ok g, c)) :
    g.bus = b ∧ g.device = d ∧ g.function = f ∧ s.region ≠ none := by
  have hmapped : s.region ≠ none := by
    intro hnone
    rw [newIn, run_bind_error (run_read32_none (locate_of_unmapped hnone) c)] at h
    cases h
  obtain ⟨vendorData, c1, -, h⟩ := run_bind_ok h
  dsimp only at h
  split_ifs at h
  · cases h
  · obtain ⟨classData, c2, -, h⟩ := run_bind_ok h
    obtain ⟨bars, c3, -, h⟩ := run_bind_ok h
    obtain ⟨caps, c4, -, h⟩ := run_bind_ok h
    cases h
    exact ⟨rfl, rfl, rfl, hmapped⟩

end Functions

section Presence

structure Place where
  segment : Segment
  bus : ℕ
  device : ℕ
  function : ℕ
  deriving DecidableEq

def Segment.vendor (c : ConfigSpace) (s : Segment) (bus device function : ℕ) : BitVec 16 :=
  (c.registers (s.place bus device function 0)).setWidth 16

def Segment.isMultifunction (c : ConfigSpace) (s : Segment) (bus device : ℕ) : Prop :=
  ((c.registers (s.place bus device 0 0xC) >>> 16) &&& 0xFF) &&& 0x80 ≠ 0

instance : Decidable (s.isMultifunction c b d) := inferInstanceAs (Decidable (_ ≠ _))

/-- The functions of a device: none unless it has function 0, and the others only if that has the multifunction bit. -/
def Segment.functions (c : ConfigSpace) (s : Segment) (bus device : ℕ) : List ℕ :=
  if s.vendor c bus device 0 = 0xFFFF then []
  else 0 :: if s.isMultifunction c bus device then
    (List.range' 1 7).filter fun function => s.vendor c bus device function ≠ 0xFFFF else []

def Segment.buses (s : Segment) : List ℕ := List.range' s.startBus (s.endBus + 1 - s.startBus)

def present (c : ConfigSpace) (segments : List Segment) : List Place :=
  segments.flatMap fun s => s.buses.flatMap fun bus => (List.range 32).flatMap fun device =>
    (s.functions c bus device).map fun function => ⟨s, bus, device, function⟩

def PCIFunction.identity (func : PCIFunction) : PCIFunction := { func with caps := [] }

/-- What is read of a function in its own segment: nothing if that is not mapped. -/
def Place.shown (c : ConfigSpace) (p : Place) : Option PCIFunction :=
  (newIn p.segment p.bus p.device p.function c).1.toOption.map PCIFunction.identity

def Place.found (segments : List Segment) (c : ConfigSpace) (p : Place) : Option PCIFunction :=
  if p.segment.region.isSome then (PCIFunction.new segments p.bus p.device p.function c).1.toOption else none

theorem mem_buses : b ∈ s.buses ↔ s.startBus ≤ b ∧ b ≤ s.endBus := by
  rw [Segment.buses, mem_range'_1]
  omega

end Presence

section Worklist

/-- The scan of a part of segment `s` has found `fs`, and has marked and pushed new buses of it. -/
structure Grows (s : Segment) (st st' : ScanState) (fs : List PCIFunction) (new : List ℕ) : Prop where
  devices : st'.devices = st.devices ++ fs
  toScan : st'.toScan = new.map (s, ·) ++ st.toScan
  marked : st'.scannedBuses.Perm (new.map (s.baseAddress, ·) ++ st.scannedBuses)
  fresh : ∀ b ∈ new, b < 256 ∧ (s.baseAddress, b) ∉ st.scannedBuses
  nodup : st.scannedBuses.Nodup → st'.scannedBuses.Nodup

theorem Grows.refl (s : Segment) (st : ScanState) : Grows s st st [] [] :=
  ⟨(append_nil _).symm, rfl, .refl _, fun _ hb => absurd hb not_mem_nil, id⟩

theorem Grows.trans {fs fs' : List PCIFunction} {new new' : List ℕ} (h : Grows s st st' fs new)
    (h' : Grows s st' st'' fs' new') : Grows s st st'' (fs ++ fs') (new' ++ new) where
  devices := by rw [h'.devices, h.devices, append_assoc]
  toScan := by rw [h'.toScan, h.toScan, map_append, append_assoc]
  marked := by
    rw [map_append, append_assoc]
    exact h'.marked.trans (h.marked.append_left _)
  fresh b hb := by
    rcases mem_append.1 hb with hb | hb
    · obtain ⟨hlt, hnot⟩ := h'.fresh b hb
      exact ⟨hlt, fun hmem => hnot (h.marked.mem_iff.2 (mem_append_right _ hmem))⟩
    · exact h.fresh b hb
  nodup hn := h'.nodup (h.nodup hn)

theorem foldlM_grows {γ : Type} {step : ScanState → γ → Config ScanState} {g : γ → List PCIFunction} (l : List γ)
    (hstep : ∀ x ∈ l, ∀ st, ∃ st' new, step st x c = (.ok st', c) ∧ Grows s st st' (g x) new) (st : ScanState) :
    ∃ st' new, l.foldlM step st c = (.ok st', c) ∧ Grows s st st' (l.flatMap g) new := by
  induction l generalizing st with
  | nil => exact ⟨st, [], rfl, .refl s st⟩
  | cons x l ih =>
    obtain ⟨st1, new1, hrun1, h1⟩ := hstep x mem_cons_self st
    obtain ⟨st2, new2, hrun2, h2⟩ := ih (fun y hy => hstep y (mem_cons_of_mem _ hy)) st1
    refine ⟨st2, new2 ++ new1, ?_, h1.trans h2⟩
    rw [foldlM_cons, run_bind hrun1, hrun2]

theorem busScanned_iff : st.busScanned s b = true ↔ (s.baseAddress, b) ∈ st.scannedBuses := by
  simp only [ScanState.busScanned, any_eq_true, Bool.and_eq_true, decide_eq_true_iff]
  constructor
  · rintro ⟨⟨base, bus⟩, hmem, rfl, rfl⟩
    exact hmem
  · exact fun hmem => ⟨_, hmem, rfl, rfl⟩

theorem pushBuses_grows (buses : List ℕ) (hlt : ∀ b ∈ buses, b < 256) (st : ScanState) :
    ∃ new, Grows s st (st.pushBuses s buses) [] new ∧
      (buses.Nodup → (∀ b ∈ buses, (s.baseAddress, b) ∉ st.scannedBuses) → new.Perm buses) := by
  induction buses generalizing st with
  | nil => exact ⟨[], .refl s st, fun _ _ => .refl _⟩
  | cons b buses ih =>
    have hrest := ih fun b hb => hlt b (mem_cons_of_mem _ hb)
    rw [ScanState.pushBuses, foldl_cons]
    split_ifs with hmark
    · rw [busScanned_iff] at hmark
      obtain ⟨new, hnew, -⟩ := hrest st
      exact ⟨new, hnew, fun _ hfresh => absurd hmark (hfresh b mem_cons_self)⟩
    · rw [busScanned_iff] at hmark
      have hpush : Grows s st { st with
          scannedBuses := st.scannedBuses ++ [(s.baseAddress, b)], toScan := (s, b) :: st.toScan } [] [b] := by
        refine ⟨(append_nil _).symm, rfl, perm_append_comm, fun x hx => ?_, fun hn => ?_⟩
        · rw [mem_singleton.1 hx]
          exact ⟨hlt b mem_cons_self, hmark⟩
        · exact perm_append_comm.nodup_iff.1 (nodup_cons.2 ⟨hmark, hn⟩)
      obtain ⟨new, hnew, hall⟩ := hrest _
      refine ⟨_, hpush.trans hnew, fun hnodup hfresh => ?_⟩
      obtain ⟨hb, hnodup⟩ := nodup_cons.1 hnodup
      refine perm_append_comm.trans ((hall hnodup fun x hx hmem => ?_).cons b)
      rcases mem_append.1 hmem with hmem | hmem
      · exact hfresh x (mem_cons_of_mem _ hx) hmem
      · cases mem_singleton.1 hmem
        exact hb hx

theorem range'_lt (reg : BitVec 32) (sec : ℕ) :
    ∀ b ∈ range' sec (((reg >>> 16) &&& 0xFF).toNat + 1 - sec), b < 256 := by
  intro b hb
  have hsub : ((reg >>> 16) &&& 0xFF).toNat ≤ 255 := by
    rw [BitVec.toNat_and]
    exact Nat.and_le_right
  rw [mem_range'_1] at hb
  omega

theorem visitFunction_grows (segments : List Segment) (s : Segment) (b d f : ℕ) (st : ScanState) (c : ConfigSpace) :
    ∃ st' new, visitFunction segments s b d f st c = (.ok st', c) ∧
      Grows s st st' (PCIFunction.new segments b d f c).1.toOption.toList new := by
  have hkeeps : Keeps (some <$> PCIFunction.new segments b d f) c := by
    rw [map_eq_pure_bind]
    exact (keeps_new segments b d f c).bind fun _ => keeps_pure _
  rw [visitFunction, run_bind (run_unwrapOr hkeeps _)]
  rcases (keeps_new segments b d f c).cases with hrun | ⟨g, hrun⟩
  · have hmap : (some <$> PCIFunction.new segments b d f) c = (.error .none, c) := by
      rw [map_eq_pure_bind, run_bind_error hrun]
    rw [hmap, hrun]
    exact ⟨st, [], rfl, .refl s st⟩
  · have hmap : (some <$> PCIFunction.new segments b d f) c = (.ok (some g), c) := by
      rw [map_eq_pure_bind, run_bind hrun]
      rfl
    have hpush : Grows s st { st with devices := st.devices ++ [g] } [g] [] :=
      ⟨rfl, rfl, .refl _, fun _ hb => absurd hb not_mem_nil, id⟩
    rw [hmap, hrun]
    dsimp only [Except.toOption, Option.getD_some, Option.toList_some]
    rw [run_bind (run_unwrapOr (keeps_read32 s b d f _) _)]
    split_ifs
    · rw [run_bind (run_unwrapOr (keeps_read32 s b d f _) _)]
      obtain ⟨new, hnew, -⟩ := pushBuses_grows _ (range'_lt _ _) { st with devices := st.devices ++ [g] }
      exact ⟨_, _, rfl, hpush.trans hnew⟩
    · exact ⟨_, [], rfl, hpush⟩

theorem run_absent (hs : s.Sound) (hregion : s.region ≠ none) (h : s.Has b d f) :
    absent s b d f c = (.ok (decide (s.vendor c b d f = 0xFFFF)), c) := by
  have hread : read16 s b d f 0 c = (.ok (s.vendor c b d f), c) := by
    rw [read16, run_bind (run_read32 (h.locate_eq hs hregion) c)]
    exact congrArg (fun x => (Except.ok x, c)) (congrArg (BitVec.setWidth 16) (BitVec.ushiftRight_zero _))
  rw [absent, run_bind (run_unwrapOr_ok hread _)]
  rfl

theorem filter_flatMap {γ β : Type} (p : γ → Prop) [DecidablePred p] (g : γ → List β) (l : List γ) :
    (l.filter fun x => p x).flatMap g = l.flatMap fun x => if p x then g x else [] := by
  induction l with
  | nil => rfl
  | cons x l ih =>
    rw [filter_cons, flatMap_cons, ← ih]
    by_cases hx : p x
    · rw [if_pos (decide_eq_true hx), if_pos hx, flatMap_cons]
    · rw [if_neg (by simpa using hx), if_neg hx, nil_append]

/-- What is found of a device and on a bus: nothing outside of the segment. -/
def onDevice (segments : List Segment) (c : ConfigSpace) (s : Segment) (bus device : ℕ) : List PCIFunction :=
  if bus ∈ s.buses then (s.functions c bus device).flatMap fun function =>
    (Place.found segments c ⟨s, bus, device, function⟩).toList else []

def onBus (segments : List Segment) (c : ConfigSpace) (q : Segment × ℕ) : List PCIFunction :=
  (List.range 32).flatMap (onDevice segments c q.1 q.2)

theorem visitDevice_dark (h : ¬(s.region ≠ none ∧ b ∈ s.buses)) (segments : List Segment) (st : ScanState) :
    visitDevice segments s b st d c = (.ok st, c) ∧ onDevice segments c s b d = [] := by
  have hloc : ∀ o, locate s b d 0 o = none := by
    intro o
    by_cases hregion : s.region = none
    · exact locate_of_unmapped hregion
    · rw [locate, ecamOffset, if_pos]
      have := mt (fun hb => ⟨hregion, hb⟩) h
      rw [mem_buses] at this
      omega
  have hread : read16 s b d 0 0 c = (.error .none, c) := run_bind_error (run_read32_none (hloc _) c)
  have habsent : absent s b d 0 c = (.ok true, c) := by
    rw [absent, run_bind (run_unwrapOr (keeps_of_none hread) _), hread]
    rfl
  refine ⟨by rw [visitDevice, run_bind habsent]; rfl, ?_⟩
  rw [onDevice]
  split_ifs with hb
  · have hnone : s.region = none := by_contra fun hregion => h ⟨hregion, hb⟩
    simp [Place.found, hnone]
  · rfl

section

variable (hs : s.Sound) (hregion : s.region ≠ none) (hhas : ∀ f < 8, s.Has b d f)
include hs hregion hhas

theorem visitOthers_grows (segments : List Segment) (st : ScanState) :
    ∃ st' new, ((range' 1 7).foldlM (fun st function => do
        if ← absent s b d function then pure st else visitFunction segments s b d function st) st : Config ScanState) c =
        (.ok st', c) ∧
      Grows s st st' (((range' 1 7).filter fun f => s.vendor c b d f ≠ 0xFFFF).flatMap fun f =>
        (PCIFunction.new segments b d f c).1.toOption.toList) new := by
  rw [filter_flatMap]
  apply foldlM_grows
  intro f hf st
  rw [mem_range'_1] at hf
  rw [run_bind (run_absent hs hregion (hhas f (by omega)))]
  by_cases hf : s.vendor c b d f = 0xFFFF
  · rw [if_pos (decide_eq_true hf), if_neg (not_not.2 hf)]
    exact ⟨st, [], rfl, .refl s st⟩
  · rw [if_neg (by simpa using hf), if_pos hf]
    exact visitFunction_grows segments s b d f st c

theorem visitDevice_shown (segments : List Segment) (st : ScanState) :
    ∃ st' new, visitDevice segments s b st d c = (.ok st', c) ∧
      Grows s st st' ((s.functions c b d).flatMap fun f => (PCIFunction.new segments b d f c).1.toOption.toList) new := by
  rw [visitDevice, run_bind (run_absent hs hregion (hhas 0 (by decide))), Segment.functions]
  by_cases hzero : s.vendor c b d 0 = 0xFFFF
  · rw [if_pos hzero, if_pos (decide_eq_true hzero)]
    exact ⟨st, [], rfl, .refl s st⟩
  · obtain ⟨st1, new1, hrun1, h1⟩ := visitFunction_grows segments s b d 0 st c
    have hheader := run_read32 ((hhas 0 (by decide)).locate_eq hs hregion : locate s b d 0 0xC = _) c
    rw [if_neg hzero, if_neg (by simpa using hzero), run_bind (run_unwrapOr_ok hheader _), run_bind hrun1,
      flatMap_cons]
    by_cases hmulti : s.isMultifunction c b d
    · obtain ⟨st2, new2, hrun2, h2⟩ := visitOthers_grows hs hregion hhas segments st1
      rw [if_pos hmulti]
      exact ⟨st2, _, (congrFun (if_pos hmulti) c).trans hrun2, h1.trans h2⟩
    · rw [if_neg hmulti, flatMap_nil, append_nil]
      exact ⟨st1, new1, congrFun (if_neg hmulti) c, h1⟩

end

theorem visitDevice_grows (hs : s.Sound) (segments : List Segment) (b : ℕ) (hd : d < 32) (st : ScanState)
    (c : ConfigSpace) :
    ∃ st' new, visitDevice segments s b st d c = (.ok st', c) ∧ Grows s st st' (onDevice segments c s b d) new := by
  by_cases hshown : s.region ≠ none ∧ b ∈ s.buses
  · obtain ⟨hregion, hb⟩ := hshown
    have hhas : ∀ f < 8, s.Has b d f := fun f hf => ⟨(mem_buses.1 hb).1, (mem_buses.1 hb).2, hd, hf⟩
    simp only [onDevice, if_pos hb, Place.found, if_pos (Option.isSome_iff_ne_none.2 hregion)]
    exact visitDevice_shown hs hregion hhas segments st
  · obtain ⟨hrun, hnothing⟩ := visitDevice_dark hshown segments st
    rw [hnothing]
    exact ⟨st, [], hrun, .refl s st⟩

/-- The pairs of the worklist are of the segments, and a pair is marked once. -/
structure Listed (segments : List Segment) (st : ScanState) : Prop where
  nodup : st.scannedBuses.Nodup
  bounded : ∀ p ∈ st.scannedBuses, p.1 ∈ segments.map Segment.baseAddress ∧ p.2 < 256
  listed : ∀ q ∈ st.toScan, q.1 ∈ segments

theorem Listed.length_le (h : Listed segments st) : st.scannedBuses.length ≤ segments.length * 256 := by
  have hsub : st.scannedBuses ⊆ segments.map Segment.baseAddress ×ˢ List.range 256 := fun p hp =>
    mem_product.2 ⟨(h.bounded p hp).1, mem_range.2 (h.bounded p hp).2⟩
  have hle := (h.nodup.subperm hsub).length_le
  rwa [length_product, length_map, length_range] at hle

theorem Listed.grows {fs : List PCIFunction} {new : List ℕ} (h : Listed segments st) (hs : s ∈ segments)
    (hg : Grows s st st' fs new) : Listed segments st' := by
  refine ⟨hg.nodup h.nodup, fun p hp => ?_, fun q hq => ?_⟩
  · rcases mem_append.1 (hg.marked.mem_iff.1 hp) with hp | hp
    · obtain ⟨x, hx, rfl⟩ := mem_map.1 hp
      exact ⟨mem_map_of_mem hs, (hg.fresh x hx).1⟩
    · exact h.bounded p hp
  · rw [hg.toScan] at hq
    rcases mem_append.1 hq with hq | hq
    · obtain ⟨x, -, rfl⟩ := mem_map.1 hq
      exact hs
    · exact h.listed q hq

theorem run_scanLoop (hsound : ∀ s ∈ segments, s.Sound) (turns : ℕ) (h : Listed segments st)
    (hcovered : ∀ s ∈ segments, ∀ b ∈ s.buses, (s.baseAddress, b) ∈ st.scannedBuses)
    (hturns : turns + st.scannedBuses.length = segments.length * 256 + 1 + st.toScan.length) :
    scanLoop segments turns st c = (.ok (st.devices ++ st.toScan.flatMap (onBus segments c)), c) := by
  induction turns generalizing st with
  | zero =>
    have := h.length_le
    omega
  | succ turns ih =>
    rw [scanLoop]
    cases htoScan : st.toScan with
    | nil =>
      rw [flatMap_nil, append_nil]
      rfl
    | cons q rest =>
      obtain ⟨s, b⟩ := q
      have hs : s ∈ segments := h.listed (s, b) (by rw [htoScan]; exact mem_cons_self)
      obtain ⟨st', new, hrun, hg⟩ := @foldlM_grows s c ℕ (visitDevice segments s b) (onDevice segments c s b) (List.range 32)
        (fun d hd st => visitDevice_grows (hsound s hs) segments b (mem_range.1 hd) st c) { st with toScan := rest }
      have h' : Listed segments st' := by
        refine @Listed.grows s segments { st with toScan := rest } st' _ _ ⟨h.nodup, h.bounded, fun q hq => h.listed q ?_⟩
          hs hg
        rw [htoScan]
        exact mem_cons_of_mem _ hq
      have hcovered' : ∀ s ∈ segments, ∀ b ∈ s.buses, (s.baseAddress, b) ∈ st'.scannedBuses := fun s hs b hb =>
        hg.marked.mem_iff.2 (mem_append_right _ (hcovered s hs b hb))
      -- what a bridge adds lies outside of the segment
      have hnone : (new.map (s, ·)).flatMap (onBus segments c) = [] := by
        rw [flatMap_eq_nil_iff]
        intro q hq
        obtain ⟨x, hx, rfl⟩ := mem_map.1 hq
        rw [onBus, flatMap_eq_nil_iff]
        exact fun d _ => if_neg fun hmem => (hg.fresh x hx).2 (hcovered s hs x hmem)
      have hlength := hg.marked.length_eq
      have hpushed := congrArg List.length hg.toScan
      simp only [length_append, length_map] at hlength hpushed
      rw [htoScan, length_cons] at hturns
      simp only
      rw [run_bind hrun, ih h' hcovered' (by omega), hg.devices, hg.toScan, flatMap_append, hnone, flatMap_cons,
        nil_append, append_assoc]
      rfl

def seeds (segments : List Segment) : List (Segment × ℕ) := segments.flatMap fun s => s.buses.map (s, ·)

theorem perm_push {γ : Type} {a b b' r t y : List γ} (h : a.Perm (r ++ y)) (hy : y.Perm (b ++ t)) (hb : b.Perm b') :
    a.Perm (b' ++ r ++ t) := by
  rw [append_assoc]
  exact (h.trans (hy.append_left r)).trans ((perm_append_comm_assoc r b t).trans (hb.append_right _))

theorem seed_spec (l : List Segment) (hsub : ∀ s ∈ l, s ∈ segments ∧ s.Sound) (hbases : (l.map Segment.baseAddress).Nodup)
    (h : Listed segments st) (hnew : ∀ s ∈ l, ∀ b, (s.baseAddress, b) ∉ st.scannedBuses) :
    ∃ st', l.foldl (fun st s => st.pushBuses s s.buses) st = st' ∧ Listed segments st' ∧ st'.devices = st.devices ∧
      st'.toScan.Perm (seeds l ++ st.toScan) ∧
      st'.scannedBuses.Perm ((seeds l).map (fun q => (q.1.baseAddress, q.2)) ++ st.scannedBuses) := by
  induction l generalizing st with
  | nil => exact ⟨st, rfl, h, rfl, .refl _, .refl _⟩
  | cons s rest ih =>
    rw [forall_mem_cons] at hsub
    rw [map_cons, nodup_cons] at hbases
    have hlt : ∀ b ∈ s.buses, b < 256 := by
      intro b hb
      have := hsub.1.2.endBus_lt
      rw [mem_buses] at hb
      omega
    obtain ⟨new, hg, hall⟩ := @pushBuses_grows s s.buses hlt st
    have hbuses := hall nodup_range' fun b _ => hnew s mem_cons_self b
    obtain ⟨st', heq, h', hdevices, htoScan, hmarked⟩ := ih hsub.2 hbases.2 (h.grows hsub.1.1 hg) fun t ht b hmem => by
      rcases mem_append.1 (hg.marked.mem_iff.1 hmem) with hmem | hmem
      · obtain ⟨x, -, hx⟩ := mem_map.1 hmem
        exact hbases.1 (mem_map.2 ⟨t, ht, (Prod.ext_iff.1 hx).1.symm⟩)
      · exact hnew t (mem_cons_of_mem _ ht) b hmem
    have hseeds : seeds (s :: rest) = s.buses.map (s, ·) ++ seeds rest := flatMap_cons
    refine ⟨st', heq, h', hdevices.trans (hg.devices.trans (append_nil _)), ?_, ?_⟩
    · rw [hseeds]
      exact perm_push htoScan (.of_eq hg.toScan) (hbuses.map _)
    · rw [hseeds, map_append, map_map]
      exact perm_push hmarked hg.marked (hbuses.map _)

theorem seeds_flatMap (segments : List Segment) (c : ConfigSpace) (l : List Segment) :
    (seeds l).flatMap (onBus segments c) = (present c l).filterMap (Place.found segments c) := by
  rw [filterMap_eq_flatMap_toList, seeds, present, flatMap_assoc, flatMap_assoc]
  refine flatMap_congr fun s _ => ?_
  rw [flatMap_map, flatMap_assoc]
  refine flatMap_congr fun b hb => ?_
  rw [onBus, flatMap_assoc]
  refine flatMap_congr fun d _ => ?_
  rw [onDevice, if_pos hb, flatMap_map]

theorem run_scan (hsound : ∀ s ∈ segments, s.Sound) (hbases : (segments.map Segment.baseAddress).Nodup)
    (c : ConfigSpace) : ∃ devices, scan segments c = (.ok devices, c) ∧
      devices.Perm ((present c segments).filterMap (Place.found segments c)) := by
  obtain ⟨st, heq, h, hdevices, htoScan, hmarked⟩ := @seed_spec segments ⟨[], [], []⟩ segments
    (fun s hs => ⟨hs, hsound s hs⟩) hbases (by constructor <;> simp) fun _ _ _ => not_mem_nil
  rw [append_nil] at htoScan hmarked
  have hseed : seedBuses segments = st := heq
  refine ⟨_, ?_, (htoScan.flatMap_right (onBus segments c)).trans (.of_eq (seeds_flatMap segments c segments))⟩
  have hcovered : ∀ s ∈ segments, ∀ b ∈ s.buses, (s.baseAddress, b) ∈ st.scannedBuses := fun s hs b hb =>
    hmarked.mem_iff.2 (mem_map.2 ⟨(s, b), mem_flatMap.2 ⟨s, hs, mem_map_of_mem hb⟩, rfl⟩)
  rw [scan, hseed, run_scanLoop hsound _ h hcovered ?_, hdevices]
  · rfl
  · rw [hmarked.length_eq, htoScan.length_eq, length_map]

end Worklist

section Identity

theorem shown_iff {p : Place} {g : PCIFunction} : p.shown c = some g ↔
    ∃ g', newIn p.segment p.bus p.device p.function c = (.ok g', c) ∧ g'.identity = g := by
  rw [Place.shown, Option.map_eq_some_iff]
  simp only [(keeps_newIn p.segment p.bus p.device p.function c).toOption_iff]

theorem found_iff {p : Place} {g : PCIFunction} : p.found segments c = some g ↔ p.segment.region ≠ none ∧
    ∃ e, findEntry segments p.bus = some e ∧ newIn e p.bus p.device p.function c = (.ok g, c) := by
  rw [Place.found, Option.ite_none_right_eq_some, Option.isSome_iff_ne_none,
    (keeps_new segments p.bus p.device p.function c).toOption_iff, PCIFunction.new]
  refine and_congr_right fun _ => ?_
  cases findEntry segments p.bus with
  | none =>
    constructor
    · rintro ⟨⟩
    · rintro ⟨_, ⟨⟩, -⟩
  | some e => simp only [Option.some.injEq, exists_eq_left']

/-- The scan ends. Its functions are one for one those of all segments, with the identity and the BARs that are read in
their own segments, if and only if all these are mapped and the first segment that has the bus of a function shows the
same. -/
theorem scan_from_own_segment_iff (hsound : ∀ s ∈ segments, s.Sound) (hbases : (segments.map Segment.baseAddress).Nodup)
    (c : ConfigSpace) :
    ∃ devices, scan segments c = (.ok devices, c) ∧
      ((devices.map fun g => some g.identity).Perm ((present c segments).map (Place.shown c)) ↔
        ∀ p ∈ present c segments, ∃ e g, findEntry segments p.bus = some e ∧ p.shown c = some g ∧
          Place.shown c ⟨e, p.bus, p.device, p.function⟩ = some g) := by
  obtain ⟨devices, hrun, hperm⟩ := run_scan hsound hbases c
  refine ⟨devices, hrun, fun h p hp => ?_, fun h => ?_⟩
  · -- the label of a function tells where it was looked for
    obtain ⟨g, hg, hshown⟩ := List.mem_map.1 (h.mem_iff.2 (List.mem_map_of_mem hp))
    obtain ⟨q, -, hfound⟩ := List.mem_filterMap.1 (hperm.mem_iff.1 hg)
    obtain ⟨-, e, hfind, hnew⟩ := found_iff.1 hfound
    obtain ⟨g', hown, hsame⟩ := shown_iff.1 hshown.symm
    obtain ⟨hbus, hdevice, hfunction, -⟩ := newIn_ok hnew
    obtain ⟨hbus', hdevice', hfunction', -⟩ := newIn_ok hown
    obtain ⟨_, b, d, f⟩ := p
    obtain ⟨_, b', d', f'⟩ := q
    have hlabel : ∀ (label : PCIFunction → ℕ), label g'.identity = label g.identity := fun label => congrArg label hsame
    obtain rfl : b' = b := hbus.symm.trans ((hlabel PCIFunction.bus).symm.trans hbus')
    obtain rfl : d' = d := hdevice.symm.trans ((hlabel PCIFunction.device).symm.trans hdevice')
    obtain rfl : f' = f := hfunction.symm.trans ((hlabel PCIFunction.function).symm.trans hfunction')
    exact ⟨e, g.identity, hfind, hshown.symm, shown_iff.2 ⟨g, hnew, rfl⟩⟩
  · refine (hperm.map _).trans (.of_eq ?_)
    rw [List.map_filterMap, ← List.filterMap_eq_map]
    refine List.filterMap_congr fun p hp => ?_
    obtain ⟨e, g, hfind, hown, hsame⟩ := h p hp
    obtain ⟨g', hnew, hid⟩ := shown_iff.1 hsame
    obtain ⟨g'', hnew', -⟩ := shown_iff.1 hown
    have hfound : p.found segments c = some g' := found_iff.2 ⟨(newIn_ok hnew').2.2.2, e, hfind, hnew⟩
    rw [hfound, Function.comp_apply, hown, Option.map_some, hid]

def cards (l : List (ℕ × BitVec 16)) : ConfigSpace where
  registers a := ((l.lookup a).map (BitVec.setWidth 32)).getD 0xFFFFFFFF
  writable _ := 0

def twoCards : ConfigSpace := cards [(0, 0x1234), (2 ^ 28, 0x5678)]

def firstBus (base : ℕ) : Segment := ⟨base, 0, 0, some ⟨⟨0, 2 ^ 20⟩⟩⟩

theorem firstBus_sound (base : ℕ) : (firstBus base).Sound := by
  refine ⟨show 0 < 256 by norm_num, fun m hm => ?_⟩
  cases hm
  norm_num [firstBus]

/-- A kernel space with room for the functions of four buses, and frames for the tables. -/
def busSpace : VMemAllocator :=
  ⟨fun _ => .empty, ⟨[⟨2 ^ 64 - 2 ^ 47, 2 ^ 22⟩]⟩, ⟨[some 4096, some 8192], [], []⟩⟩

/-- Buses 0 and 1, and buses 2 and 3 in another segment. -/
def disjointBuses : List Segment :=
  [⟨0, 0, 1, some ⟨⟨2 ^ 64 - 2 ^ 47, 2 ^ 21⟩⟩⟩, ⟨2 ^ 28, 2, 3, some ⟨⟨2 ^ 64 - 2 ^ 47 + 2 ^ 21, 2 ^ 21⟩⟩⟩]

open TreeMapper in
theorem scan_from_own_segment_disjoint :
    (∃ a, initSegments [⟨0, 0, 1, none⟩, ⟨2 ^ 28, 2, 3, none⟩] busSpace = (.ok (.ok disjointBuses), a)) ∧
    ∃ devices, scan disjointBuses twoCards = (.ok devices, twoCards) ∧
      (devices.map fun g => some g.identity).Perm ((present twoCards disjointBuses).map (Place.shown twoCards)) ∧
      ((present twoCards disjointBuses).filterMap (Place.shown twoCards)).map PCIFunction.vendorId = [0x1234, 0x5678] := by
  have hinit : (initSegments [⟨0, 0, 1, none⟩, ⟨2 ^ 28, 2, 3, none⟩] busSpace).1 = .ok (.ok disjointBuses) := by
    decide +kernel
  have hsound := initSegments_sound (by decide) (run_of_result hinit)
  obtain ⟨devices, hrun, hiff⟩ := scan_from_own_segment_iff hsound (by decide) twoCards
  have hown : ∀ p ∈ present twoCards disjointBuses, findEntry disjointBuses p.bus = some p.segment ∧
      (Place.shown twoCards p).isSome := by
    decide +kernel
  refine ⟨⟨_, run_of_result hinit⟩, devices, hrun, hiff.2 fun p hp => ?_, by decide +kernel⟩
  obtain ⟨hfind, hshown⟩ := hown p hp
  obtain ⟨g, hg⟩ := Option.isSome_iff_exists.1 hshown
  exact ⟨p.segment, g, hfind, hg, hg⟩

/-- Two segments have a bus 0. The function of the second is read in the first. -/
theorem second_segment_misread : ∃ devices,
    scan [firstBus 0, firstBus (2 ^ 28)] twoCards = (.ok devices, twoCards) ∧
    devices.map PCIFunction.vendorId = [0x1234, 0x1234] ∧
    ((present twoCards [firstBus 0, firstBus (2 ^ 28)]).filterMap (Place.shown twoCards)).map PCIFunction.vendorId =
      [0x1234, 0x5678] := by
  obtain ⟨devices, hrun, -⟩ := @run_scan [firstBus 0, firstBus (2 ^ 28)]
    (by simp [firstBus_sound]) (by decide) twoCards
  refine ⟨devices, hrun, ?_, by decide +kernel⟩
  have hvendors : (scan [firstBus 0, firstBus (2 ^ 28)] twoCards).1.toOption.map
      (List.map PCIFunction.vendorId) = some [0x1234, 0x1234] := by decide +kernel
  rw [hrun] at hvendors
  exact Option.some.inj hvendors

end Identity

end MaramOS.Pci
