import MaramOS.Proofs.Translation

/-! A mapper that walks the tree of tables. It follows the laws, so they can be met, and the
results about mapped pages can be read on concrete tables. -/

namespace MaramOS

open RadixTree

namespace PageTableEntry

/-- `create_next_table`: the table that an entry points to and its frame. -/
def createNextTable {n : ℕ} (e : PageTableEntry (n + 1)) (fs : Frames) :
    Except MapToError (ℕ × (Fin 512 → PageTableEntry n)) × Frames :=
  match e with
  | .empty =>
    match fs.allocateFrame with
    | (none, fs') => (.error .frameAllocationFailed, fs')
    | (some frame, fs') => (.ok (frame, fun _ => .empty), fs')
  | .leaf _ => (.error .parentEntryHugePage, fs)
  | .table frame es => (.ok (frame, es), fs)

def mapHere {n : ℕ} (page : MappedPage) (e : PageTableEntry n) (fs : Frames) :
    Except MapToError Unit × PageTableEntry n × Frames :=
  match e with
  | .empty => (.ok (), .leaf page, fs)
  | e => (.error .pageAlreadyMapped, e, fs)

/-- `map_to` of the page of level `k` at `addr`, below an entry of level `n`. -/
def mapTo (k addr : ℕ) (page : MappedPage) :
    (n : ℕ) → PageTableEntry n → Frames → Except MapToError Unit × PageTableEntry n × Frames
  | 0, e, fs => mapHere page e fs
  | n + 1, e, fs =>
    if n + 1 = k then mapHere page e fs
    else
      match createNextTable e fs with
      | (.error err, fs') => (.error err, e, fs')
      | (.ok (a, es), fs') =>
        let i := pageIndex addr n
        let r := mapTo k addr page n (es i) fs'
        (r.1, .table a (Function.update es i r.2.1), r.2.2)

def unmapHere {n : ℕ} (e : PageTableEntry n) : Except UnmapError (PageTableEntry n) :=
  match e with
  | .empty => .error .pageNotMapped
  | .leaf _ => .ok .empty
  | .table _ _ => .error .parentEntryHugePage

def unmap (k addr : ℕ) : (n : ℕ) → PageTableEntry n → Except UnmapError (PageTableEntry n)
  | 0, e => unmapHere e
  | n + 1, e =>
    if n + 1 = k then unmapHere e
    else
      match e with
      | .empty => .error .pageNotMapped
      | .leaf _ => .error .parentEntryHugePage
      | .table a es =>
        let i := pageIndex addr n
        match unmap k addr n (es i) with
        | .error err => .error err
        | .ok e' => .ok (.table a (Function.update es i e'))

/-- `clean_up_addr_range` for the pages from `lo` to `hi`, in an entry that stands for the addresses from
`base` on: the entry afterwards and the frames of the tables that were found empty. -/
def cleanUp (lo hi : ℕ) : (n : ℕ) → ℕ → PageTableEntry n → PageTableEntry n × List ℕ
  | 0, _, e => (e, [])
  | n + 1, base, e =>
    match e with
    | .table a es =>
      if base ≤ hi ∧ lo < base + pageSize (n + 1) then
        let cleaned := fun i : Fin 512 => cleanUp lo hi n (base + i * pageSize n) (es i)
        let freed := (List.finRange 512).flatMap fun i => (cleaned i).2
        if (List.finRange 512).all fun i => (cleaned i).1.isEmpty then (.empty, freed ++ [a])
        else (.table a fun i => (cleaned i).1, freed)
      else (e, [])
    | e => (e, [])

variable {n k addr frame : ℕ} {page : MappedPage} {fs fs' : Frames}

theorem allocateFrame_none (h : fs.allocateFrame = (none, fs')) : fs'.allocated = fs.allocated ∧ fs'.freed = fs.freed := by
  unfold Frames.allocateFrame at h
  split at h
  · cases h
    exact ⟨rfl, rfl⟩
  · cases h
    exact ⟨rfl, rfl⟩
  · cases h

theorem allocateFrame_some (h : fs.allocateFrame = (some frame, fs')) :
    fs'.allocated = frame :: fs.allocated ∧ fs'.freed = fs.freed := by
  unfold Frames.allocateFrame at h
  split at h
  · cases h
  · cases h
  · cases h
    exact ⟨rfl, rfl⟩

section MapTo

variable {e : PageTableEntry (n + 1)}

theorem createNextTable_error {err : MapToError} (h : createNextTable e fs = (.error err, fs')) :
    fs'.allocated = fs.allocated ∧ fs'.freed = fs.freed := by
  unfold createNextTable at h
  split at h
  · split at h
    · rename_i hnone
      cases h
      exact allocateFrame_none hnone
    · cases h
  · cases h
    exact ⟨rfl, rfl⟩
  · cases h

theorem createNextTable_ok {a : ℕ} {es : Fin 512 → PageTableEntry n} (h : createNextTable e fs = (.ok (a, es), fs')) :
    (∀ d, find d (table a es) = find d e) ∧
    labels (table a es) + (fs.allocated : Multiset ℕ) = labels e + (fs'.allocated : Multiset ℕ) ∧
    fs'.freed = fs.freed ∧ (e = .empty ∨ e = table a es) := by
  unfold createNextTable at h
  split at h
  · split at h
    · cases h
    · rename_i hsome
      cases h
      obtain ⟨halloc, hfreed⟩ := allocateFrame_some hsome
      refine ⟨fun d => ?_, ?_, hfreed, .inl rfl⟩
      · rw [find_table, find_empty, find_empty]
      · have hzero : ∑ i : Fin 512, labels (empty : RadixTree 512 ℕ MappedPage n) = 0 :=
          Finset.sum_eq_zero fun i _ => rfl
        rw [labels_table, hzero, halloc, ← Multiset.cons_coe, ← Multiset.singleton_add, ← Multiset.singleton_add, add_zero]
        exact (zero_add _).symm
  · cases h
  · cases h
    exact ⟨fun d => rfl, rfl, rfl, .inr rfl⟩

/-- What `map_to` does: the page is mapped where there was none, or no address leads anywhere else. -/
structure Mapped (k n addr : ℕ) (page : MappedPage) (e : PageTableEntry n) (r : Except MapToError Unit)
    (e' : PageTableEntry n) : Prop where
  found : ∀ u, r = .ok u → ∀ d, RadixTree.Agree k n d (pageIndex addr) → find d e' = some (k, page) ∧ find d e = none
  other : ∀ d, ¬RadixTree.Agree k n d (pageIndex addr) → find d e' = find d e
  failed : ∀ err, r = .error err → ∀ d, find d e' = find d e

theorem mapHere_mapped (e : PageTableEntry n) :
    Mapped n n addr page e (mapHere page e fs).1 (mapHere page e fs).2.1 := by
  cases e with
  | empty =>
    refine ⟨fun _ _ d _ => ⟨find_leaf, find_empty⟩, fun d hd => absurd agree_self hd, fun err herr => ?_⟩
    cases herr
  | leaf x =>
    refine ⟨fun _ hok => ?_, fun d hd => absurd agree_self hd, fun _ _ _ => rfl⟩
    cases hok
  | table a es =>
    refine ⟨fun _ hok => ?_, fun d hd => absurd agree_self hd, fun _ _ _ => rfl⟩
    cases hok

theorem mapHere_frames (e : PageTableEntry n) :
    (mapHere page e fs).2.2 = fs ∧ labels (mapHere page e fs).2.1 = labels e := by
  cases e <;> exact ⟨rfl, rfl⟩

theorem mapTo_mapped (hk : k ≤ n) (e : PageTableEntry n) (fs : Frames) :
    Mapped k n addr page e (mapTo k addr page n e fs).1 (mapTo k addr page n e fs).2.1 := by
  induction n generalizing fs with
  | zero =>
    obtain rfl := Nat.le_zero.1 hk
    exact mapHere_mapped e
  | succ n ih =>
    rw [mapTo]
    split_ifs with hkn
    · subst hkn
      exact mapHere_mapped e
    · have hkn : k ≤ n := by omega
      rcases hnext : createNextTable e fs with ⟨err | ⟨a, es⟩, fs'⟩
      · exact ⟨fun u hu => (by cases hu), fun d _ => rfl, fun _ _ _ => rfl⟩
      · obtain ⟨hfind, -⟩ := createNextTable_ok hnext
        have hrec := ih hkn (es (pageIndex addr n)) fs'
        simp only
        refine ⟨fun u hu d hd => ?_, fun d hd => ?_, fun err herr d => ?_⟩
        · obtain ⟨hn, hd⟩ := (agree_succ hkn).1 hd
          rw [find_update, if_pos hn, ← hfind d, find_table, hn]
          exact hrec.found u hu d hd
        · rw [find_update, ← hfind d]
          split_ifs with hn
          · rw [find_table, hn]
            exact hrec.other d fun hd' => hd ((agree_succ hkn).2 ⟨hn, hd'⟩)
          · rfl
        · rw [find_update, ← hfind d]
          split_ifs with hn
          · rw [find_table, hn]
            exact hrec.failed err herr d
          · rfl

theorem mapTo_frames (e : PageTableEntry n) (fs : Frames) :
    labels (mapTo k addr page n e fs).2.1 + (fs.allocated : Multiset ℕ) =
      labels e + ((mapTo k addr page n e fs).2.2.allocated : Multiset ℕ) ∧
    (mapTo k addr page n e fs).2.2.freed = fs.freed := by
  induction n generalizing fs with
  | zero =>
    obtain ⟨hfs, hlabels⟩ := @mapHere_frames _ page fs e
    rw [mapTo, hfs, hlabels]
    exact ⟨rfl, rfl⟩
  | succ n ih =>
    rw [mapTo]
    split_ifs with hkn
    · obtain ⟨hfs, hlabels⟩ := @mapHere_frames _ page fs e
      rw [hfs, hlabels]
      exact ⟨rfl, rfl⟩
    · rcases hnext : createNextTable e fs with ⟨err | ⟨a, es⟩, fs'⟩
      · obtain ⟨halloc, hfreed⟩ := createNextTable_error hnext
        simp only [halloc, hfreed, and_self]
      · obtain ⟨-, hlabels, hfreed, -⟩ := createNextTable_ok hnext
        obtain ⟨hrec, hfreed'⟩ := ih (es (pageIndex addr n)) fs'
        refine ⟨?_, hfreed'.trans hfreed⟩
        have hupdate := @labels_update 512 n ℕ MappedPage a es (pageIndex addr n)
          (mapTo k addr page n (es (pageIndex addr n)) fs').2.1
        -- both equations are added, and what they share is cancelled
        refine add_right_cancel (b := labels (es (pageIndex addr n)) + (fs'.allocated : Multiset ℕ)) ?_
        calc _ = (labels (table a (Function.update es (pageIndex addr n)
                  (mapTo k addr page n (es (pageIndex addr n)) fs').2.1)) + labels (es (pageIndex addr n))) +
                (fs.allocated : Multiset ℕ) + (fs'.allocated : Multiset ℕ) := by abel
          _ = (labels (table a es) + (fs.allocated : Multiset ℕ)) +
                (labels (mapTo k addr page n (es (pageIndex addr n)) fs').2.1 + (fs'.allocated : Multiset ℕ)) := by
              rw [hupdate]
              abel
          _ = _ := by
              rw [hlabels, hrec]
              abel

theorem mapTo_table (hk : k ≤ n) (a : ℕ) (es : Fin 512 → PageTableEntry n) (fs : Frames) :
    ∃ es', (mapTo k addr page (n + 1) (table a es) fs).2.1 = table a es' := by
  rw [mapTo, if_neg (by omega)]
  exact ⟨_, rfl⟩

end MapTo

section Unmap

structure Unmapped (k n addr : ℕ) (e e' : PageTableEntry n) : Prop where
  gone : ∀ d, RadixTree.Agree k n d (pageIndex addr) → find d e' = none ∧ ∃ x, find d e = some (k, x)
  other : ∀ d, ¬RadixTree.Agree k n d (pageIndex addr) → find d e' = find d e
  frames : labels e' = labels e

variable {e e' : PageTableEntry n}

theorem unmapHere_unmapped (h : unmapHere e = .ok e') : Unmapped n n addr e e' := by
  cases e with
  | empty => cases h
  | leaf x =>
    cases h
    exact ⟨fun d _ => ⟨find_empty, x, find_leaf⟩, fun d hd => absurd agree_self hd, rfl⟩
  | table a es => cases h

theorem unmap_unmapped (hk : k ≤ n) (h : unmap k addr n e = .ok e') :
    Unmapped k n addr e e' := by
  induction n with
  | zero =>
    obtain rfl := Nat.le_zero.1 hk
    rw [unmap] at h
    exact unmapHere_unmapped h
  | succ n ih =>
    by_cases hkn : n + 1 = k
    · subst hkn
      refine unmapHere_unmapped ?_
      cases e <;> rwa [unmap, if_pos rfl] at h
    · have hkn' : k ≤ n := by omega
      cases e with
      | empty =>
        rw [unmap, if_neg hkn] at h
        cases h
      | leaf x =>
        rw [unmap, if_neg hkn] at h
        cases h
      | table a es =>
        rw [unmap, if_neg hkn] at h
        simp only at h
        cases hrec : unmap k addr n (es (pageIndex addr n)) with
        | error err =>
          rw [hrec] at h
          cases h
        | ok t =>
          rw [hrec] at h
          cases h
          obtain ⟨hgone, hother, hframes⟩ := ih hkn' hrec
          refine ⟨fun d hd => ?_, fun d hd => ?_, ?_⟩
          · obtain ⟨hn, hd⟩ := (agree_succ hkn').1 hd
            rw [find_update, if_pos hn, find_table, hn]
            exact hgone d hd
          · rw [find_update]
            split_ifs with hn
            · rw [find_table, hn]
              exact hother d fun hd' => hd ((agree_succ hkn').2 ⟨hn, hd'⟩)
            · rfl
          · have hupdate := @labels_update 512 n ℕ MappedPage a es (pageIndex addr n) t
            rw [hframes] at hupdate
            exact add_right_cancel hupdate

theorem unmap_error {err : UnmapError} (h : unmap 0 addr n e = .error err) :
    err = .pageNotMapped ∧ find (pageIndex addr) e = none ∨
    err = .parentEntryHugePage ∧ ∃ k x, 0 < k ∧ find (pageIndex addr) e = some (k, x) := by
  induction n with
  | zero =>
    cases e with
    | empty =>
      cases h
      exact .inl ⟨rfl, rfl⟩
    | leaf x => cases h
  | succ n ih =>
    cases e with
    | empty =>
      cases h
      exact .inl ⟨rfl, rfl⟩
    | leaf x =>
      cases h
      exact .inr ⟨rfl, n + 1, x, Nat.succ_pos n, rfl⟩
    | table a es =>
      rw [unmap, if_neg (Nat.succ_ne_zero n)] at h
      simp only at h
      cases hrec : unmap 0 addr n (es (pageIndex addr n)) with
      | error err' =>
        rw [hrec] at h
        cases h
        exact ih hrec
      | ok t =>
        rw [hrec] at h
        cases h

theorem unmap_found (hk : k ≤ n) {x : MappedPage} (h : find (pageIndex addr) e = some (k, x)) :
    ∃ e', unmap k addr n e = .ok e' := by
  induction n with
  | zero =>
    cases e with
    | empty => cases h
    | leaf y => exact ⟨_, rfl⟩
  | succ n ih =>
    cases e with
    | empty => cases h
    | leaf y =>
      rw [find_leaf] at h
      cases h
      rw [unmap, if_pos rfl]
      exact ⟨_, rfl⟩
    | table a es =>
      have hle := find_level (find_table.symm.trans h)
      obtain ⟨t, ht⟩ := ih hle (find_table.symm.trans h)
      rw [unmap, if_neg (by omega)]
      simp only [ht]
      exact ⟨_, rfl⟩

theorem unmap_table {e e' : PageTableEntry (n + 1)} (hk : k ≤ n) (h : unmap k addr (n + 1) e = .ok e') :
    ∃ frame es es', e = .table frame es ∧ e' = .table frame es' := by
  cases e with
  | empty =>
    rw [unmap, if_neg (by omega)] at h
    cases h
  | leaf x =>
    rw [unmap, if_neg (by omega)] at h
    cases h
  | table frame es =>
    rw [unmap, if_neg (by omega)] at h
    simp only at h
    split at h
    · cases h
    · cases h
      exact ⟨frame, es, _, rfl, rfl⟩

end Unmap

section CleanUp

variable {lo hi : ℕ}

theorem cleanUp_spec (n base : ℕ) (e : PageTableEntry n) :
    (∀ d, find d (cleanUp lo hi n base e).1 = find d e) ∧
    labels (cleanUp lo hi n base e).1 + ((cleanUp lo hi n base e).2 : Multiset ℕ) = labels e := by
  induction n generalizing base with
  | zero => exact ⟨fun d => rfl, add_zero _⟩
  | succ n ih =>
    cases e with
    | empty => exact ⟨fun d => rfl, add_zero _⟩
    | leaf x => exact ⟨fun d => rfl, add_zero _⟩
    | table a es =>
      rw [cleanUp]
      have hsum : ∑ i : Fin 512, labels (cleanUp lo hi n (base + i * pageSize n) (es i)).1 +
          (((List.finRange 512).flatMap fun i : Fin 512 => (cleanUp lo hi n (base + i * pageSize n) (es i)).2 :
            List ℕ) :
            Multiset ℕ) = ∑ i, labels (es i) := by
        rw [coe_flatMap_finRange, ← Finset.sum_add_distrib]
        exact Finset.sum_congr rfl fun i _ => (ih _ (es i)).2
      split_ifs with hvisit
      · simp only
        split_ifs with hall
        · -- all entries are empty now, so no address led anywhere before
          have hempty : ∀ i : Fin 512, (cleanUp lo hi n (base + i * pageSize n) (es i)).1 = .empty := fun i =>
            isEmpty_iff.1 (List.all_eq_true.1 hall i (List.mem_finRange i))
          refine ⟨fun d => ?_, ?_⟩
          · rw [find_table, ← (ih (base + d n * pageSize n) (es (d n))).1 d, hempty, find_empty, find_empty]
          · have hzero : ∑ i : Fin 512, labels (cleanUp lo hi n (base + i * pageSize n) (es i)).1 = 0 :=
              Finset.sum_eq_zero fun i _ => by rw [hempty i]; rfl
            rw [hzero, zero_add] at hsum
            rw [← Multiset.coe_add, hsum, labels_table, ← Multiset.singleton_add, add_comm ({a} : Multiset ℕ)]
            exact zero_add _
        · refine ⟨fun d => (ih _ (es (d n))).1 d, ?_⟩
          rw [labels_table, labels_table, Multiset.cons_add, hsum]
      · exact ⟨fun d => rfl, add_zero _⟩

end CleanUp

section Vacant

variable {j : ℕ} {d : ℕ → Fin 512}

theorem createNextTable_vacant {e : PageTableEntry (n + 1)} (h : Vacant k d e) :
    (∃ err, (createNextTable e fs).1 = .error err ∧ Refused fs.grants 0) ∨
    ∃ a es fs' c, createNextTable e fs = (.ok (a, es), fs') ∧ c ≤ 1 ∧ fs'.grants = fs.grants.drop c ∧
      Vacant k d (es (d n)) := by
  cases e with
  | empty =>
    rcases fs with ⟨grants, allocated, freed⟩
    rcases grants with - | ⟨- | frame, grants⟩
    · exact .inl ⟨_, rfl, rfl⟩
    · exact .inl ⟨_, rfl, rfl⟩
    · exact .inr ⟨_, _, _, 1, rfl, le_rfl, rfl, vacant_empty⟩
  | leaf x => exact h.elim
  | table a es => exact .inr ⟨a, es, fs, 0, rfl, Nat.zero_le 1, rfl, h.2⟩

theorem mapHere_vacant {e : PageTableEntry n} (h : Vacant n d e) :
    (mapHere page e fs).1 = .ok () ∧ (mapHere page e fs).2.2.grants = fs.grants.drop 0 := by
  cases e with
  | empty => exact ⟨rfl, rfl⟩
  | leaf x => exact h.elim
  | table a es => exact absurd h.1 (by omega)

theorem mapTo_vacant {e : PageTableEntry n} (hk : k ≤ n) (h : Vacant k (pageIndex addr) e) :
    (∃ err, (mapTo k addr page n e fs).1 = .error err ∧ ∃ i < n - k, Refused fs.grants i) ∨
    (mapTo k addr page n e fs).1 = .ok () ∧ ∃ c ≤ n - k, (mapTo k addr page n e fs).2.2.grants = fs.grants.drop c := by
  induction n generalizing fs with
  | zero =>
    obtain rfl := Nat.le_zero.1 hk
    exact .inr ⟨(mapHere_vacant h).1, 0, le_rfl, (mapHere_vacant h).2⟩
  | succ n ih =>
    by_cases hkn : n + 1 = k
    · subst hkn
      rw [mapTo, if_pos rfl]
      exact .inr ⟨(mapHere_vacant h).1, 0, Nat.zero_le _, (mapHere_vacant h).2⟩
    · have hle : k ≤ n := by omega
      rw [mapTo, if_neg hkn]
      rcases createNextTable_vacant h with ⟨err, herr, hrefused⟩ | ⟨a, es, fs', c, hnext, hc, hgrants, hvacant⟩
      · obtain ⟨fs', hnext⟩ : ∃ fs', createNextTable e fs = (.error err, fs') := ⟨_, Prod.ext herr rfl⟩
        rw [hnext]
        exact .inl ⟨err, rfl, 0, by omega, hrefused⟩
      · rw [hnext]
        rcases @ih fs' (es (pageIndex addr n)) hle hvacant with ⟨err, herr, i, hi, hrefused⟩ | ⟨hok, c', hc', hgrants'⟩
        · refine .inl ⟨err, herr, c + i, by omega, ?_⟩
          rwa [hgrants, refused_drop] at hrefused
        · refine .inr ⟨hok, c + c', by omega, ?_⟩
          simp only [hgrants', hgrants, List.drop_drop]

theorem Vacant.mapTo {e : PageTableEntry n} (h : Vacant k d e) (hapart : ¬RadixTree.Agree (max k j) n d (pageIndex addr)) :
    Vacant k d (mapTo j addr page n e fs).2.1 := by
  induction n generalizing fs with
  | zero => exact absurd (agree_of_le (Nat.zero_le _)) hapart
  | succ n ih =>
    have hmax : max k j ≤ n := Nat.not_lt.1 fun hlt => hapart (agree_of_le hlt)
    have hk : k ≤ n := (le_max_left k j).trans hmax
    have hj : j ≤ n := (le_max_right k j).trans hmax
    rw [PageTableEntry.mapTo, if_neg (by omega)]
    rcases createNextTable_vacant h with ⟨err, herr, -⟩ | ⟨a, es, fs', c, hnext, -, -, hvacant⟩
    · obtain ⟨fs', hnext⟩ : ∃ fs', createNextTable e fs = (.error err, fs') := ⟨_, Prod.ext herr rfl⟩
      rw [hnext]
      exact h
    · rw [hnext]
      refine vacant_table.2 ⟨hk, ?_⟩
      by_cases hd : d n = pageIndex addr n
      · rw [hd, Function.update_self]
        rw [hd] at hvacant
        exact ih hvacant fun hagree => hapart ((agree_succ hmax).2 ⟨hd, hagree⟩)
      · rwa [Function.update_of_ne hd]

end Vacant

end PageTableEntry

theorem indexToAddr_l4 (i : Fin 512) :
    indexToAddr i 0 0 0 = if i.val < 256 then i.val * 2 ^ 39 else 2 ^ 64 - 2 ^ 48 + i.val * 2 ^ 39 := by
  revert i
  decide +kernel

theorem pageIndex_l4 {addr : ℕ} {i : Fin 512} (hlo : indexToAddr i 0 0 0 ≤ addr)
    (hhi : addr < indexToAddr i 0 0 0 + pageSize 3) : pageIndex addr 3 = i := by
  rw [indexToAddr_l4] at hlo hhi
  apply Fin.ext
  simp only [pageIndex, pageSize] at hhi ⊢
  split_ifs at hlo hhi <;> omega

namespace TreeMapper

open PageTableEntry

scoped instance treeMapper : Mapper where
  mapTo k addr page t fs :=
    let r := mapTo k addr page 3 (t (pageIndex addr 3)) fs
    (r.1, Function.update t (pageIndex addr 3) r.2.1, r.2.2)
  unmap k addr t :=
    match unmap k addr 3 (t (pageIndex addr 3)) with
    | .error err => .error err
    | .ok e => .ok (Function.update t (pageIndex addr 3) e)
  cleanUpAddrRange lo hi t :=
    if lo ≤ hi then
      let cleaned := fun i : Fin 512 => cleanUp lo hi 3 (indexToAddr i 0 0 0) (t i)
      (fun i => (cleaned i).1, (List.finRange 512).flatMap fun i => (cleaned i).2)
    else (t, [])

variable {k addr lo hi : ℕ} {t t' : PageTable}

theorem unmap_eq_ok (h : Mapper.unmap k addr t = .ok t') :
    ∃ e, unmap k addr 3 (t (pageIndex addr 3)) = .ok e ∧ t' = Function.update t (pageIndex addr 3) e := by
  simp only [Mapper.unmap] at h
  split at h
  · cases h
  · rename_i e he
    cases h
    exact ⟨e, he, rfl⟩

theorem lookup_update_eq {e : PageTableEntry 3} {w : ℕ}
    (h : pageIndex w 3 = pageIndex addr 3 → e.find (pageIndex w) = (t (pageIndex addr 3)).find (pageIndex w)) :
    PageTable.lookup (Function.update t (pageIndex addr 3) e) w = t.lookup w := by
  rw [PageTable.lookup_update]
  split_ifs with hroot
  · rw [h hroot, PageTable.lookup, hroot]
  · rfl

scoped instance : Mapper.PartialMap where
  mapTo_ok {k addr page t t' fs fs'} hk h := by
    obtain ⟨hfound, hother, -⟩ := @mapTo_mapped 3 k addr page (by omega) (t (pageIndex addr 3)) fs
    simp only [Mapper.mapTo, Prod.mk.injEq] at h
    obtain ⟨hok, rfl, -⟩ := h
    refine ⟨fun w hw => ?_, fun w hw => lookup_update_eq fun hroot => hother _ fun hagree => ?_⟩
    · obtain ⟨hroot, hagree⟩ := (PageTable.samePage_iff (by omega)).1 hw
      rw [PageTable.lookup_update, if_pos hroot, PageTable.lookup, hroot]
      exact hfound () hok _ hagree
    · exact hw ((PageTable.samePage_iff (by omega)).2 ⟨hroot, hagree⟩)
  mapTo_error {k addr page t t' fs fs' err} hk h w := by
    obtain ⟨-, -, hfailed⟩ := @mapTo_mapped 3 k addr page (by omega) (t (pageIndex addr 3)) fs
    simp only [Mapper.mapTo, Prod.mk.injEq] at h
    obtain ⟨herr, rfl, -⟩ := h
    exact lookup_update_eq fun _ => hfailed err herr _
  unmap_ok {k addr t t'} hk h := by
    obtain ⟨e, hrun, rfl⟩ := unmap_eq_ok h
    obtain ⟨hgone, hother, -⟩ := unmap_unmapped (by omega) hrun
    refine ⟨fun w hw => ?_, fun w hw => lookup_update_eq fun hroot => hother _ fun hagree => ?_⟩
    · obtain ⟨hroot, hagree⟩ := (PageTable.samePage_iff (by omega)).1 hw
      rw [PageTable.lookup_update, if_pos hroot, PageTable.lookup, hroot]
      exact hgone _ hagree
    · exact hw ((PageTable.samePage_iff (by omega)).2 ⟨hroot, hagree⟩)
  unmap_mapped {k addr page t} hk h := by
    obtain ⟨e, he⟩ := unmap_found (n := 3) (by omega) h
    simp only [Mapper.unmap, he]
    exact ⟨_, rfl⟩
  unmap_error {addr t err} h := by
    simp only [Mapper.unmap] at h
    split at h
    · rename_i err' herr
      cases h
      exact PageTableEntry.unmap_error herr
    · cases h
  cleanUp_lookup lo hi t w := by
    simp only [Mapper.cleanUpAddrRange]
    split_ifs
    · exact (cleanUp_spec 3 _ (t (pageIndex w 3))).1 _
    · rfl

theorem cleanUp_cases (lo hi base : ℕ) (e : PageTableEntry 3) :
    (cleanUp lo hi 3 base e).1 = e ∨ ∃ frame es, e = .table frame es ∧ (base ≤ hi ∧ lo < base + pageSize 3) ∧
      ((∃ es', (cleanUp lo hi 3 base e).1 = .table frame es') ∨ ∀ d, find d e = none) := by
  have hfind := (@cleanUp_spec lo hi 3 base e).1
  cases e with
  | empty => exact .inl rfl
  | leaf x => exact .inl rfl
  | table frame es =>
    rw [cleanUp] at hfind ⊢
    split_ifs at hfind ⊢ with hrange
    · refine .inr ⟨frame, es, rfl, hrange, ?_⟩
      simp only at hfind ⊢
      split_ifs at hfind ⊢
      · exact .inr fun d => (hfind d).symm.trans find_empty
      · exact .inl ⟨_, rfl⟩
    · exact .inl rfl

theorem exists_page_l4 {i : Fin 512} (hle : lo / pageSize 0 ≤ hi / pageSize 0)
    (hrange : indexToAddr i 0 0 0 ≤ hi ∧ lo < indexToAddr i 0 0 0 + pageSize 3) :
    ∃ addr, pageIndex addr 3 = i ∧ lo / pageSize 0 ≤ addr / pageSize 0 ∧ addr / pageSize 0 ≤ hi / pageSize 0 := by
  rcases Nat.le_total (indexToAddr i 0 0 0) lo with hge | hge
  · exact ⟨lo, pageIndex_l4 hge hrange.2, le_rfl, hle⟩
  · exact ⟨indexToAddr i 0 0 0, pageIndex_l4 le_rfl (Nat.lt_add_of_pos_right (by decide)),
      Nat.div_le_div_right hge, Nat.div_le_div_right hrange.1⟩

scoped instance : Mapper.KeepsEntries where
  mapTo_other _ hne := Function.update_of_ne hne _ _
  mapTo_table {k addr frame page t fs es} hk h := by
    obtain ⟨es', hes'⟩ := @mapTo_table 2 k addr page hk frame es fs
    refine ⟨es', ?_⟩
    simp only [Mapper.mapTo, Function.update_self]
    rw [h, hes']
  unmap_other _ h hne := by
    obtain ⟨e, -, rfl⟩ := unmap_eq_ok h
    exact Function.update_of_ne hne _ _
  unmap_table {k addr t t'} hk h := by
    obtain ⟨e, hrun, rfl⟩ := unmap_eq_ok h
    obtain ⟨frame, es, es', he, rfl⟩ := unmap_table hk hrun
    exact ⟨frame, es, es', he, Function.update_self _ _ _⟩
  cleanUp_entry lo hi t i := by
    simp only [Mapper.cleanUpAddrRange]
    split_ifs with hle
    · rcases cleanUp_cases lo hi (indexToAddr i 0 0 0) (t i) with hkept | ⟨frame, es, he, hrange, hrest⟩
      · exact .inl hkept
      · refine .inr ⟨frame, es, he, exists_page_l4 (Nat.div_le_div_right hle) hrange, hrest.imp_right fun hnone w hw => ?_⟩
        rw [PageTable.lookup, hw]
        exact hnone _
    · exact .inl rfl

scoped instance : Mapper.KeepsFrames where
  mapTo_frames {k} addr page t fs _ := by
    obtain ⟨hlabels, hfreed⟩ := @mapTo_frames 3 k addr page (t (pageIndex addr 3)) fs
    refine ⟨?_, hfreed⟩
    simp only [Mapper.mapTo]
    have hupdate := sum_update_add (Finset.mem_univ (pageIndex addr 3)) t
      (mapTo k addr page 3 (t (pageIndex addr 3)) fs).2.1 labels
    refine add_right_cancel (b := labels (t (pageIndex addr 3))) ?_
    rw [add_right_comm, hupdate, add_assoc, hlabels]
    abel
  unmap_frames {k addr t t'} hk h := by
    obtain ⟨e, hrun, rfl⟩ := unmap_eq_ok h
    have hupdate := sum_update_add (Finset.mem_univ (pageIndex addr 3)) t e labels
    rw [(unmap_unmapped (by omega) hrun).frames] at hupdate
    exact add_right_cancel hupdate
  cleanUp_frames lo hi t := by
    simp only [Mapper.cleanUpAddrRange]
    split_ifs
    · rw [coe_flatMap_finRange, ← Finset.sum_add_distrib]
      exact Finset.sum_congr rfl fun i _ => (cleanUp_spec 3 _ (t i)).2
    · exact add_zero _

scoped instance : Mapper.MapsVacant where
  mapTo_vacant hk h := mapTo_vacant (by omega) h
  mapTo_apart {j k v addr page t fs} hj hk h hapart := by
    simp only [Mapper.mapTo]
    by_cases hroot : pageIndex v 3 = pageIndex addr 3
    · rw [hroot, Function.update_self]
      rw [hroot] at h
      exact Vacant.mapTo h fun hagree => hapart ((PageTable.samePage_iff (by omega)).2 ⟨hroot, hagree⟩)
    · rwa [Function.update_of_ne hroot]

end TreeMapper

end MaramOS
