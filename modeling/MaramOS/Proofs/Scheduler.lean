import Mathlib.Data.List.FinRange
import MaramOS.Lib.Family
import MaramOS.Spec.Scheduler

/-! No task is lost or run twice. Each scheduler keeps its idle task in `curr` or
`ready`, and the tasks of all processors together with the batches that are being
stolen are those that were created and not dropped. A task that was killed is dropped
while the processor still runs on its stack. -/

namespace MaramOS

open Transition
open List (not_mem_nil mem_cons append_nil append_assoc singleton_append mem_reverse length_append
  mem_singleton mem_append nil_append count_append mem_cons_self mem_cons_of_mem mem_map)

namespace Scheduler

variable {s s' : Scheduler} {idle t : Task}

section Removal

theorem mem_wakeQueue {now : ℕ → ℕ} {l : List Task} {i j : ℕ} (h : j ∈ wakeQueue now l i) : i ≤ j ∧ j < i + l.length := by
  induction l generalizing i with
  | nil => exact absurd h not_mem_nil
  | cons t l ih =>
    rw [List.length_cons]
    rw [wakeQueue] at h
    split_ifs at h
    · rcases mem_cons.1 h with rfl | h
      · omega
      · have := ih h
        omega
    · have := ih h
      omega

theorem wakeQueue_pairwise (now : ℕ → ℕ) (l : List Task) (i : ℕ) : (wakeQueue now l i).Pairwise fun i j => i < j := by
  induction l generalizing i with
  | nil => exact .nil
  | cons t l ih =>
    rw [wakeQueue]
    split_ifs
    · exact .cons (fun j hj => (mem_wakeQueue hj).1) (ih (i + 1))
    · exact ih (i + 1)

theorem wakeTasks_extract {is : List ℕ} {woken rest : List Task} (h : extract is s.sleep = some (woken, rest)) :
    wakeTasks is s = some { s with sleep := rest, ready := s.ready ++ woken.map fun t => { t with state := .ready } } := by
  induction is generalizing s woken rest with
  | nil =>
    cases h
    rw [wakeTasks, List.map_nil, append_nil]
  | cons i is ih =>
    rw [extract] at h
    rw [wakeTasks]
    cases hget : s.sleep[i]? with
    | none =>
      rw [hget] at h
      cases h
    | some t =>
      rw [hget] at h
      simp only [Option.map_eq_some_iff, Prod.mk.injEq] at h
      obtain ⟨⟨xs, l⟩, hrun, rfl, rfl⟩ := h
      have hnext := @ih { s with sleep := s.sleep.eraseIdx i, ready := s.ready ++ [{ t with state := .ready }] } _ _ hrun
      rw [append_assoc, singleton_append] at hnext
      exact hnext

theorem wake_spec (now : ℕ → ℕ) (s : Scheduler) :
    ∃ woken rest, wakeTasks (wakeQueue now s.sleep 0).reverse s =
        some { s with sleep := rest, ready := s.ready ++ woken.map fun t => { t with state := .ready } } ∧
      (woken ++ rest).Perm s.sleep := by
  have hlt : ∀ i ∈ (wakeQueue now s.sleep 0).reverse, i < s.sleep.length := by
    intro i hi
    have := mem_wakeQueue (mem_reverse.1 hi)
    omega
  obtain ⟨woken, rest, hrun, hperm, -⟩ :=
    extract_spec hlt (List.pairwise_reverse.2 (wakeQueue_pairwise now s.sleep 0))
  exact ⟨woken, rest, wakeTasks_extract hrun, hperm⟩

theorem removeTasks_extract {is : List ℕ} {ready tasks xs rest : List Task} (h : extract is ready = some (xs, rest)) :
    removeTasks is ready tasks = (some (tasks ++ xs), rest) := by
  induction is generalizing ready tasks xs rest with
  | nil =>
    cases h
    rw [removeTasks, append_nil]
  | cons i is ih =>
    rw [extract] at h
    rw [removeTasks]
    cases hget : ready[i]? with
    | none =>
      rw [hget] at h
      cases h
    | some t =>
      rw [hget] at h
      simp only [Option.map_eq_some_iff, Prod.mk.injEq] at h
      obtain ⟨⟨xs, l⟩, hrun, rfl, rfl⟩ := h
      have hnext := @ih _ (tasks ++ [t]) _ _ hrun
      rw [append_assoc, singleton_append] at hnext
      exact hnext

theorem popQueue_spec {count : ℕ} {passed l : List Task} {queue : List ℕ} (hdec : queue.Pairwise fun i j => i < j)
    (hlt : ∀ i ∈ queue, i < passed.length)
    (huser : ∀ i ∈ queue, ∀ t, (passed ++ l)[i]? = some t → t.type = .user) :
    (popQueue count l passed.length queue).Pairwise (fun i j => i < j) ∧
    ∀ i ∈ popQueue count l passed.length queue, i < (passed ++ l).length ∧
      ∀ t, (passed ++ l)[i]? = some t → t.type = .user := by
  induction l generalizing passed queue with
  | nil =>
    rw [popQueue]
    refine ⟨hdec, fun i hi => ⟨?_, huser i hi⟩⟩
    rw [append_nil]
    exact hlt i hi
  | cons t l ih =>
    rw [popQueue]
    split_ifs with hfull htype
    · refine ⟨hdec, fun i hi => ⟨?_, huser i hi⟩⟩
      have := hlt i hi
      rw [length_append]
      omega
    · have hnext := @ih (passed ++ [t]) (queue ++ [passed.length]) ?_ ?_ ?_
      · rw [length_append, List.length_singleton] at hnext
        rwa [append_assoc, singleton_append] at hnext
      · refine List.pairwise_append.2 ⟨hdec, List.pairwise_singleton _ _, fun i hi j hj => ?_⟩
        rw [mem_singleton.1 hj]
        exact hlt i hi
      · intro i hi
        rw [length_append, List.length_singleton]
        rcases mem_append.1 hi with hi | hi
        · have := hlt i hi
          omega
        · rw [mem_singleton.1 hi]
          omega
      · intro i hi u hu
        rw [append_assoc, singleton_append] at hu
        rcases mem_append.1 hi with hi | hi
        · exact huser i hi u hu
        · rw [mem_singleton.1 hi, List.getElem?_append_right le_rfl, Nat.sub_self] at hu
          cases hu
          exact htype
    · have hnext := @ih (passed ++ [t]) queue hdec ?_ ?_
      · rw [length_append, List.length_singleton] at hnext
        rwa [append_assoc, singleton_append] at hnext
      · intro i hi
        have := hlt i hi
        rw [length_append]
        omega
      · rw [append_assoc, singleton_append]
        exact huser

theorem takeUserTasks_spec (count : ℕ) (s : Scheduler) :
    takeUserTasks count s = (none, s) ∨
    ∃ tasks rest, takeUserTasks count s = (some tasks, { s with ready := rest }) ∧ (tasks ++ rest).Perm s.ready ∧
      ∀ t ∈ tasks, t.type = .user := by
  rw [takeUserTasks]
  split_ifs
  · exact .inl rfl
  obtain ⟨hdec, hmem⟩ := @popQueue_spec count [] s.ready [] .nil (fun i hi => absurd hi not_mem_nil)
    fun i hi => absurd hi not_mem_nil
  obtain ⟨tasks, rest, hrun, hperm, htasks⟩ := extract_spec
    (fun i hi => (hmem i (mem_reverse.1 hi)).1) (List.pairwise_reverse.2 hdec)
  refine .inr ⟨tasks, rest, ?_, hperm, fun t ht => ?_⟩
  · have := @removeTasks_extract _ _ [] _ _ hrun
    simp only [nil_append, List.length_nil] at this
    simp only [this]
  · obtain ⟨i, hi, hget⟩ := htasks t ht
    exact (hmem i (mem_reverse.1 hi)).2 t hget

end Removal

def tasks (s : Scheduler) : List Task := s.curr :: (s.ready ++ s.sleep)

end Scheduler

def occurrences (id : ℕ) (l : List Task) : ℕ := (l.map Task.id).count id

section Occurrences

variable {id : ℕ} {l l' : List Task}

@[simp]
theorem occurrences_nil : occurrences id [] = 0 := rfl

@[simp]
theorem occurrences_cons (t : Task) : occurrences id (t :: l) = occurrences id l + if t.id = id then 1 else 0 := by
  rw [occurrences, List.map_cons, List.count_cons, occurrences]
  simp only [beq_iff_eq]

@[simp]
theorem occurrences_append : occurrences id (l ++ l') = occurrences id l + occurrences id l' := by
  rw [occurrences, List.map_append, count_append, occurrences, occurrences]

@[simp]
theorem occurrences_map_state (state : TaskState) :
    occurrences id (l.map fun t => { t with state := state }) = occurrences id l := by
  rw [occurrences, List.map_map, occurrences]
  rfl

theorem occurrences_perm (h : l.Perm l') : occurrences id l = occurrences id l' := (h.map Task.id).count_eq id

end Occurrences

namespace Scheduler

variable {s s' : Scheduler} {idle t : Task}

/-- A scheduler between two critical sections. -/
structure Tidy (idle : Task) (s : Scheduler) : Prop where
  terminate : s.terminate = []
  ready : ∀ t ∈ s.ready, t.state = .ready
  idle : ∃ t ∈ s.curr :: s.ready, t.id = idle.id ∧ t.type = .kernel ∧ t.state = .ready

theorem Tidy.new (htype : idle.type = .kernel) (hstate : idle.state = .ready) : Tidy idle (.new idle) :=
  ⟨rfl, fun _ ht => absurd ht not_mem_nil, idle, mem_cons_self, rfl, htype, hstate⟩

theorem Tidy.append (h : Tidy idle s) {ts : List Task} (hts : ∀ t ∈ ts, t.state = .ready) :
    Tidy idle { s with ready := s.ready ++ ts } := by
  refine ⟨h.terminate, fun t ht => ?_, ?_⟩
  · rcases mem_append.1 ht with ht | ht
    · exact h.ready t ht
    · exact hts t ht
  · obtain ⟨t, ht, hidle⟩ := h.idle
    exact ⟨t, List.mem_append_left ts ht, hidle⟩

theorem Tidy.set_user (h : Tidy idle s) (huser : s.curr.type = .user) (t : Task) :
    Tidy idle { s with curr := t } := by
  refine ⟨h.terminate, h.ready, ?_⟩
  obtain ⟨u, hu, hid, htype, hstate⟩ := h.idle
  rcases mem_cons.1 hu with rfl | hu
  · rw [huser] at htype
    cases htype
  · exact ⟨u, mem_cons_of_mem _ hu, hid, htype, hstate⟩

theorem Tidy.remove_user (h : Tidy idle s) {ts rest : List Task} (hperm : (ts ++ rest).Perm s.ready)
    (huser : ∀ t ∈ ts, t.type = .user) : Tidy idle { s with ready := rest } := by
  refine ⟨h.terminate, fun t ht => h.ready t (hperm.mem_iff.1 (List.mem_append_right ts ht)), ?_⟩
  obtain ⟨u, hu, hid, htype, hstate⟩ := h.idle
  refine ⟨u, ?_, hid, htype, hstate⟩
  rcases mem_cons.1 hu with rfl | hu
  · exact mem_cons_self
  · rcases mem_append.1 (hperm.mem_iff.2 hu) with hu | hu
    · rw [huser u hu] at htype
      cases htype
    · exact mem_cons_of_mem _ hu

theorem Tidy.set_sp (h : Tidy idle s) (sp : ℕ) : Tidy idle { s with curr := { s.curr with sp := sp } } := by
  refine ⟨h.terminate, h.ready, ?_⟩
  obtain ⟨u, hu, hid, htype, hstate⟩ := h.idle
  rcases mem_cons.1 hu with rfl | hu
  · exact ⟨_, mem_cons_self, hid, htype, hstate⟩
  · exact ⟨u, mem_cons_of_mem _ hu, hid, htype, hstate⟩

theorem Tidy.wake (h : Tidy idle s) (now : ℕ → ℕ) :
    ∃ s', wakeTasks (wakeQueue now s.sleep 0).reverse s = some s' ∧ Tidy idle s' ∧ s'.curr = s.curr ∧
      ∀ id, occurrences id s'.tasks = occurrences id s.tasks := by
  obtain ⟨woken, rest, hrun, hperm⟩ := wake_spec now s
  have hwoken : ∀ t ∈ woken.map (fun t : Task => { t with state := .ready }), t.state = .ready := by
    intro t ht
    obtain ⟨u, -, rfl⟩ := mem_map.1 ht
    rfl
  have hkept := h.append hwoken
  refine ⟨_, hrun, ⟨hkept.terminate, hkept.ready, hkept.idle⟩, rfl, fun id => ?_⟩
  have := @occurrences_perm id _ _ hperm
  simp only [tasks, occurrences_cons, occurrences_append, occurrences_map_state] at this ⊢
  omega

theorem Tidy.clonesIdle (h : Tidy idle s) : s.clonesIdle = false := by
  obtain ⟨u, hu, -, -, hstate⟩ := h.idle
  rcases mem_cons.1 hu with rfl | hu
  · simp only [Scheduler.clonesIdle, hstate, ne_eq, not_true_eq_false, decide_false, Bool.and_false]
  · have : s.ready ≠ [] := List.ne_nil_of_mem hu
    simp only [Scheduler.clonesIdle, List.isEmpty_eq_false_iff.2 this, Bool.false_and]

/-- What one switch does: only a terminated current task is dropped. -/
structure Switched (s s' : Scheduler) (dropped : List Task) : Prop where
  curr : s'.curr.state = .ready
  conserved : ∀ id, occurrences id s'.tasks + occurrences id dropped = occurrences id s.tasks
  dropped : ∀ t ∈ dropped, t.id = s.curr.id ∧ ∃ code, s.curr.state = .terminate code

theorem Tidy.switchTo (h : Tidy idle s) {next : Task} {rest : List Task} (hready : s.ready = next :: rest) :
    Tidy idle ({ s with ready := rest }.switchTo next).1 ∧
    Switched s ({ s with ready := rest }.switchTo next).1 ({ s with ready := rest }.switchTo next).2 := by
  have hstate : ∀ t ∈ next :: rest, t.state = .ready := by
    rw [← hready]
    exact h.ready
  have hnext := hstate next mem_cons_self
  have hrest := fun t ht => hstate t (mem_cons_of_mem next ht)
  obtain ⟨u, hu, hidle⟩ := h.idle
  rw [hready] at hu
  cases hcurr : s.curr.state with
  | ready =>
    simp only [Scheduler.switchTo, moveToQueue, hcurr]
    refine ⟨⟨rfl, fun t ht => ?_, u, ?_, hidle⟩, hnext, fun id => ?_, ?_⟩
    · rcases mem_append.1 ht with ht | ht
      · exact hrest t ht
      · rw [mem_singleton.1 ht]
        exact hcurr
    · simp only [mem_cons, mem_append, not_mem_nil, or_false] at hu ⊢
      tauto
    · simp only [tasks, hready, h.terminate, occurrences_cons, occurrences_append, occurrences_nil]
      omega
    · rw [h.terminate]
      exact fun t ht => absurd ht not_mem_nil
  | wait time =>
    simp only [Scheduler.switchTo, moveToQueue, hcurr]
    refine ⟨⟨rfl, hrest, u, ?_, hidle⟩, hnext, fun id => ?_, ?_⟩
    · rcases mem_cons.1 hu with rfl | hu
      · rw [hcurr] at hidle
        cases hidle.2.2
      · exact hu
    · simp only [tasks, hready, h.terminate, occurrences_cons, occurrences_append, occurrences_nil]
      omega
    · rw [h.terminate]
      exact fun t ht => absurd ht not_mem_nil
  | terminate code =>
    simp only [Scheduler.switchTo, moveToQueue, hcurr]
    refine ⟨⟨rfl, hrest, u, ?_, hidle⟩, hnext, fun id => ?_, fun t ht => ?_⟩
    · rcases mem_cons.1 hu with rfl | hu
      · rw [hcurr] at hidle
        cases hidle.2.2
      · exact hu
    · simp only [tasks, hready, h.terminate, occurrences_cons, occurrences_append, occurrences_nil, nil_append]
      omega
    · rw [h.terminate, nil_append, mem_singleton] at ht
      exact ⟨congrArg Task.id ht, code, hcurr⟩

theorem Tidy.schedLogic (h : Tidy idle s) (now : ℕ → ℕ) (oldSp : ℕ) :
    ∃ s' dropped, schedLogic idle now oldSp s = some (s', dropped) ∧ Tidy idle s' ∧ Switched s s' dropped := by
  obtain ⟨w, hwake, hw, hcurr, hsame⟩ := (h.set_sp oldSp).wake now
  have hsp : ∀ id, occurrences id ({ s with curr := { s.curr with sp := oldSp } } : Scheduler).tasks =
      occurrences id s.tasks := by
    intro id
    simp only [tasks, occurrences_cons]
  cases hready : w.ready with
  | nil =>
    refine ⟨w, [], ?_, hw, ?_, fun id => (hsame id).trans (hsp id), fun t ht => absurd ht not_mem_nil⟩
    · simp only [Scheduler.schedLogic, hwake, hready, hw.clonesIdle, Bool.false_eq_true, if_false]
    · obtain ⟨u, hu, -, -, hstate⟩ := hw.idle
      rw [hready, mem_singleton] at hu
      rwa [← hu]
  | cons next rest =>
    obtain ⟨htidy, hswitch⟩ := hw.switchTo hready
    refine ⟨_, ({ w with ready := rest }.switchTo next).2, ?_, htidy, hswitch.curr, fun id => ?_, ?_⟩
    · simp only [Scheduler.schedLogic, hwake, hready]
    · rw [hswitch.conserved id, hsame id, hsp id]
    · intro t ht
      obtain ⟨hid, code, hcode⟩ := hswitch.dropped t ht
      rw [hcurr] at hid hcode
      exact ⟨hid, code, hcode⟩

section Departure

/-- What a switch must not do: drop more than was in `terminate`, or the task that it leaves. -/
structure Departs (curr : Task) (terminate : List Task) (s' : Scheduler) (dropped : List Task) : Prop where
  deferred : ∀ t, dropped.count t ≤ terminate.count t
  survives : curr ∈ s'.tasks ++ s'.terminate

theorem departs_switchTo_iff (s : Scheduler) (next : Task) :
    Departs s.curr s.terminate (s.switchTo next).1 (s.switchTo next).2 ↔ ∀ code, s.curr.state ≠ .terminate code := by
  cases hstate : s.curr.state with
  | ready =>
    refine ⟨fun _ code => TaskState.noConfusion, fun _ => ⟨fun t => ?_, ?_⟩⟩
    · simp [switchTo, moveToQueue, hstate]
    · simp [switchTo, moveToQueue, hstate, tasks]
  | wait time =>
    refine ⟨fun _ code => TaskState.noConfusion, fun _ => ⟨fun t => ?_, ?_⟩⟩
    · simp [switchTo, moveToQueue, hstate]
    · simp [switchTo, moveToQueue, hstate, tasks]
  | terminate code =>
    refine ⟨fun h => ?_, fun h => absurd rfl (h code)⟩
    have hcount := h.deferred s.curr
    simp only [switchTo, moveToQueue, hstate, count_append, List.count_singleton_self] at hcount
    omega

/-- A call of `sched_logic` drops nothing but tasks that were in `terminate` before, and keeps the task on whose
stack it runs, if and only if this task has not been killed. -/
theorem schedLogic_departs_iff (idle : Task) (now : ℕ → ℕ) (oldSp : ℕ) (s : Scheduler) :
    (∃ s' dropped, schedLogic idle now oldSp s = some (s', dropped) ∧
      Departs { s.curr with sp := oldSp } s.terminate s' dropped) ↔ ∀ code, s.curr.state ≠ .terminate code := by
  obtain ⟨woken, rest, hwake, -⟩ := wake_spec now { s with curr := { s.curr with sp := oldSp } }
  generalize s.ready ++ woken.map (fun t => { t with state := .ready }) = ready at hwake
  have hiff := fun queue =>
    departs_switchTo_iff { s with curr := { s.curr with sp := oldSp }, sleep := rest, ready := queue }
  have hend : ∃ s' dropped, schedLogic idle now oldSp s = some (s', dropped) ∧
      (Departs { s.curr with sp := oldSp } s.terminate s' dropped ↔ ∀ code, s.curr.state ≠ .terminate code) := by
    cases ready with
    | cons next queue =>
      have hrun : schedLogic idle now oldSp s = some (switchTo
          { s with curr := { s.curr with sp := oldSp }, sleep := rest, ready := queue } next) := by
        simp only [schedLogic, hwake]
      exact ⟨_, _, hrun, hiff queue next⟩
    | nil =>
      by_cases hstate : s.curr.state = .ready
      · have hrun : schedLogic idle now oldSp s =
            some ({ s with curr := { s.curr with sp := oldSp }, sleep := rest, ready := [] }, []) := by
          simp only [schedLogic, hwake]
          simp [clonesIdle, hstate]
        refine ⟨_, _, hrun, fun _ code => ?_, fun _ => ⟨fun t => ?_, ?_⟩⟩
        · rw [hstate]
          exact TaskState.noConfusion
        · simp
        · simp [tasks]
      · have hrun : schedLogic idle now oldSp s = some (switchTo
            { s with curr := { s.curr with sp := oldSp }, sleep := rest, ready := [] } idle) := by
          simp only [schedLogic, hwake]
          simp [clonesIdle, hstate]
        exact ⟨_, _, hrun, hiff [] idle⟩
  obtain ⟨s', dropped, hrun, hend⟩ := hend
  constructor
  · rintro ⟨t, tasks, hrun', h⟩
    rw [hrun] at hrun'
    cases hrun'
    exact hend.1 h
  · exact fun h => ⟨s', dropped, hrun, hend.2 h⟩

/-- A user task that was killed while another one is ready. -/
def departing : Scheduler := ⟨⟨2, .user, .terminate 0, 0⟩, [⟨3, .user, .ready, 0⟩], [], []⟩

/-- The killed task is dropped by the very call that leaves it. -/
theorem schedLogic_drops_curr :
    schedLogic ⟨0, .kernel, .ready, 0⟩ (fun _ => 0) 64 departing =
      some (⟨⟨3, .user, .ready, 0⟩, [], [], []⟩, [⟨2, .user, .terminate 0, 64⟩]) ∧
    ¬Departs ⟨2, .user, .terminate 0, 64⟩ departing.terminate ⟨⟨3, .user, .ready, 0⟩, [], [], []⟩
      [⟨2, .user, .terminate 0, 64⟩] := by
  refine ⟨rfl, fun h => ?_⟩
  have hcount := h.deferred ⟨2, .user, .terminate 0, 64⟩
  revert hcount
  decide

end Departure

end Scheduler

namespace SchedSystem

variable {n : ℕ} {s s' : SchedSystem n} {idle : Fin n → Task} {c : Fin n}

/-- How often a task is in `curr`, `ready` or `sleep` of any processor or in a batch that is being stolen. -/
def copies (s : SchedSystem n) (id : ℕ) : ℕ :=
  ∑ c, occurrences id (s.sched c).tasks + ∑ c, occurrences id (s.steal c).batch

theorem copies_setSched (s : SchedSystem n) (c : Fin n) (sched : Scheduler) (id : ℕ) :
    (s.setSched c sched).copies id + occurrences id (s.sched c).tasks = s.copies id + occurrences id sched.tasks := by
  have := sum_update_add (Finset.mem_univ c) s.sched sched fun x => occurrences id x.tasks
  simp only [copies, setSched]
  omega

theorem copies_setSteal (s : SchedSystem n) (c : Fin n) (stage : StealStage) (id : ℕ) :
    (s.setSteal c stage).copies id + occurrences id (s.steal c).batch = s.copies id + occurrences id stage.batch := by
  have := sum_update_add (Finset.mem_univ c) s.steal stage fun x => occurrences id x.batch
  simp only [copies, setSteal]
  omega

structure Sound (idle : Fin n → Task) (s : SchedSystem n) : Prop where
  same : s.idle = idle
  tidy : ∀ c, (s.sched c).Tidy (idle c)
  doomed : ∀ c code, (s.sched c).curr.state = .terminate code → (s.sched c).curr.id ∈ s.killed
  batch : ∀ c, ∀ t ∈ (s.steal c).batch, t.state = .ready
  dropped : ∀ id ∈ s.dropped, id ∈ s.killed

/-- No task appears from nothing, and none is lost. -/
structure Conserved (s : SchedSystem n) : Prop where
  nodup : s.created.Nodup
  count : ∀ id, s.copies id + s.dropped.count id = s.created.count id

theorem Sound.setSched (h : Sound idle s) {sched : Scheduler} (htidy : sched.Tidy (idle c))
    (hdoomed : ∀ code, sched.curr.state = .terminate code → sched.curr.id ∈ s.killed) :
    Sound idle (s.setSched c sched) := by
  refine ⟨h.same, fun d => ?_, fun d => ?_, h.batch, h.dropped⟩
  · rcases eq_or_ne d c with rfl | hd
    · simpa only [SchedSystem.setSched, Function.update_self] using htidy
    · simpa only [SchedSystem.setSched, Function.update_of_ne hd] using h.tidy d
  · rcases eq_or_ne d c with rfl | hd
    · simpa only [SchedSystem.setSched, Function.update_self] using hdoomed
    · simpa only [SchedSystem.setSched, Function.update_of_ne hd] using h.doomed d

theorem Sound.setSteal (h : Sound idle s) {stage : StealStage} (hbatch : ∀ t ∈ stage.batch, t.state = .ready) :
    Sound idle (s.setSteal c stage) := by
  refine ⟨h.same, h.tidy, h.doomed, fun d => ?_, h.dropped⟩
  rcases eq_or_ne d c with rfl | hd
  · simpa only [SchedSystem.setSteal, Function.update_self] using hbatch
  · simpa only [SchedSystem.setSteal, Function.update_of_ne hd] using h.batch d

theorem Sound.drop (h : Sound idle s) {ids : List ℕ} (hids : ∀ id ∈ ids, id ∈ s.killed) :
    Sound idle { s with dropped := ids ++ s.dropped } := by
  refine ⟨h.same, h.tidy, h.doomed, h.batch, fun id hid => ?_⟩
  rcases mem_append.1 hid with hid | hid
  · exact hids id hid
  · exact h.dropped id hid

theorem Sound.kill (h : Sound idle s) (id : ℕ) : Sound idle { s with killed := id :: s.killed } :=
  ⟨h.same, h.tidy, fun c code hcode => mem_cons_of_mem _ (h.doomed c code hcode), h.batch,
    fun x hx => mem_cons_of_mem _ (h.dropped x hx)⟩

theorem Sound.start (htype : ∀ c, (idle c).type = .kernel) (hstate : ∀ c, (idle c).state = .ready) :
    Sound idle (start idle) := by
  refine ⟨rfl, fun c => .new (htype c) (hstate c), fun c code hcode => ?_, ?_, ?_⟩
  · have : (idle c).state = .terminate code := hcode
    rw [hstate c] at this
    cases this
  · exact fun c t ht => absurd ht not_mem_nil
  · exact fun id hid => absurd hid not_mem_nil

theorem Conserved.start (hids : Function.Injective fun c => (idle c).id) : Conserved (start idle) := by
  refine ⟨List.nodup_ofFn.2 hids, fun id => ?_⟩
  change ∑ c, [(idle c).id].count id + ∑ c, 0 + 0 = (List.ofFn fun c => (idle c).id).count id
  rw [count_ofFn, Finset.sum_const_zero]
  rfl

theorem Conserved.setSched (hs : Conserved s) {sched : Scheduler} {tasks : List Task}
    (htasks : ∀ id, occurrences id sched.tasks + occurrences id tasks = occurrences id (s.sched c).tasks) :
    Conserved { s.setSched c sched with dropped := tasks.map Task.id ++ s.dropped } := by
  refine ⟨hs.nodup, fun id => ?_⟩
  change (s.setSched c sched).copies id + (tasks.map Task.id ++ s.dropped).count id = s.created.count id
  have hcopies := s.copies_setSched c sched id
  have hcount := hs.count id
  have hkept := htasks id
  rw [count_append, show (tasks.map Task.id).count id = occurrences id tasks from rfl]
  omega

theorem Conserved.setSteal (hs : Conserved s) {stage : StealStage} (hstage : stage.batch = (s.steal c).batch) :
    Conserved (s.setSteal c stage) := by
  refine ⟨hs.nodup, fun id => ?_⟩
  change (s.setSteal c stage).copies id + s.dropped.count id = s.created.count id
  have hcopies := s.copies_setSteal c stage id
  have hcount := hs.count id
  rw [hstage] at hcopies
  omega

theorem Conserved.move (hs : Conserved s) {d : Fin n} {sched : Scheduler} {stage : StealStage}
    (hmove : ∀ id, occurrences id sched.tasks + occurrences id stage.batch =
      occurrences id (s.sched d).tasks + occurrences id (s.steal c).batch) :
    Conserved ((s.setSched d sched).setSteal c stage) := by
  refine ⟨hs.nodup, fun id => ?_⟩
  change ((s.setSched d sched).setSteal c stage).copies id + s.dropped.count id = s.created.count id
  have hsched := s.copies_setSched d sched id
  have hsteal := (s.setSched d sched).copies_setSteal c stage id
  have hcount := hs.count id
  have hmoved := hmove id
  rw [show (s.setSched d sched).steal = s.steal from rfl] at hsteal
  omega

theorem Sound.addTask (h : Sound idle s) (hs : Conserved s) {t : Task} (hnew : t.id ∉ s.created)
    (hstate : t.state = .ready) :
    Sound idle { s.setSched c ((s.sched c).addTask t) with created := t.id :: s.created } ∧
    Conserved { s.setSched c ((s.sched c).addTask t) with created := t.id :: s.created } := by
  have hready : ∀ u ∈ [t], u.state = .ready := fun u hu => mem_singleton.1 hu ▸ hstate
  have hset := h.setSched ((h.tidy c).append hready) (h.doomed c)
  refine ⟨⟨hset.same, hset.tidy, hset.doomed, hset.batch, hset.dropped⟩, List.nodup_cons.2 ⟨hnew, hs.nodup⟩, fun id => ?_⟩
  change (s.setSched c ((s.sched c).addTask t)).copies id + s.dropped.count id = (t.id :: s.created).count id
  have hcopies := s.copies_setSched c ((s.sched c).addTask t) id
  have hcount := hs.count id
  have hadded : occurrences id ((s.sched c).addTask t).tasks =
      occurrences id (s.sched c).tasks + if t.id = id then 1 else 0 := by
    simp only [Scheduler.addTask, Scheduler.tasks, occurrences_cons, occurrences_append, occurrences_nil]
    omega
  simp only [List.count_cons, beq_iff_eq]
  omega

theorem Sound.schedLogic (h : Sound idle s) (hs : Conserved s) {sched : Scheduler} {tasks : List Task}
    (htidy : sched.Tidy (idle c)) (hswitch : Scheduler.Switched (s.sched c) sched tasks) :
    Sound idle { s.setSched c sched with dropped := tasks.map Task.id ++ s.dropped } ∧
    Conserved { s.setSched c sched with dropped := tasks.map Task.id ++ s.dropped } := by
  refine ⟨?_, hs.setSched hswitch.conserved⟩
  have hset : Sound idle (s.setSched c sched) := by
    refine h.setSched htidy fun code hcode => ?_
    rw [hswitch.curr] at hcode
    cases hcode
  refine hset.drop fun id hid => ?_
  obtain ⟨t, ht, rfl⟩ := mem_map.1 hid
  obtain ⟨hid, code, hcode⟩ := hswitch.dropped t ht
  rw [hid]
  exact h.doomed c code hcode

theorem Conserved.set_state (hs : Conserved s) (c : Fin n) (state : TaskState) :
    Conserved (s.setSched c { s.sched c with curr := { (s.sched c).curr with state := state } }) := by
  refine @Conserved.setSched n s c hs _ [] fun id => ?_
  simp only [Scheduler.tasks, occurrences_cons, occurrences_nil, add_zero]

theorem Sound.idle_stage (h : Sound idle s) (hs : Conserved s) {stage : StealStage} (hheld : (s.steal c).batch = [])
    (hstage : stage.batch = []) : Sound idle (s.setSteal c stage) ∧ Conserved (s.setSteal c stage) := by
  refine ⟨h.setSteal fun t ht => ?_, hs.setSteal (hstage.trans hheld.symm)⟩
  rw [hstage] at ht
  exact absurd ht not_mem_nil

theorem Sound.count (h : Sound idle s) (hs : Conserved s) {stage : StealStage} (hheld : (s.steal c).batch = [])
    (hstage : stage.batch = []) :
    let s' := { s.setSched c { s.sched c with terminate := [] } with
      dropped := (s.sched c).terminate.map Task.id ++ s.dropped }
    Sound idle (s'.setSteal c stage) ∧ Conserved (s'.setSteal c stage) := by
  have htidy := h.tidy c
  rw [htidy.terminate]
  refine Sound.idle_stage ?_ (hs.setSched fun id => ?_) hheld hstage
  · exact h.setSched ⟨rfl, htidy.ready, htidy.idle⟩ (h.doomed c)
  · rfl

theorem Sound.take (h : Sound idle s) (hs : Conserved s) {d : Fin n} {tasks rest : List Task}
    (hheld : (s.steal c).batch = []) (hperm : (tasks ++ rest).Perm (s.sched d).ready)
    (huser : ∀ t ∈ tasks, t.type = .user) :
    let s' := (s.setSched d { s.sched d with ready := rest }).setSteal c (.holding tasks)
    Sound idle s' ∧ Conserved s' := by
  constructor
  · refine (h.setSched ((h.tidy d).remove_user hperm huser) (h.doomed d)).setSteal fun t ht => ?_
    exact (h.tidy d).ready t (hperm.mem_iff.1 (List.mem_append_left rest ht))
  · refine hs.move fun id => ?_
    have hmoved := @occurrences_perm id _ _ hperm
    rw [hheld, StealStage.batch]
    simp only [Scheduler.tasks, occurrences_cons, occurrences_append, occurrences_nil] at hmoved ⊢
    omega

theorem Sound.extend (h : Sound idle s) (hs : Conserved s) {tasks : List Task} (hsteal : s.steal c = .holding tasks) :
    let s' := (s.setSched c { s.sched c with ready := (s.sched c).ready ++ tasks }).setSteal c .start
    Sound idle s' ∧ Conserved s' := by
  have hready := h.batch c
  rw [hsteal] at hready
  constructor
  · refine (h.setSched ((h.tidy c).append hready) (h.doomed c)).setSteal fun t ht => ?_
    exact absurd ht not_mem_nil
  · refine hs.move fun id => ?_
    simp only [Scheduler.tasks, occurrences_cons, occurrences_append, hsteal, StealStage.batch, occurrences_nil]
    omega

theorem Sound.step {a : SchedAction n} (h : Sound idle s) (hs : Conserved s) (hstep : s.step a = some s') :
    Sound idle s' ∧ Conserved s' := by
  cases a with
  | addTask t c =>
    rw [SchedSystem.step] at hstep
    split_ifs at hstep with hbad
    cases hstep
    push Not at hbad
    exact h.addTask hs hbad.1 hbad.2
  | schedLogic c now oldSp =>
    obtain ⟨sched, tasks, hrun, htidy, hswitch⟩ := (h.tidy c).schedLogic now oldSp
    rw [SchedSystem.step, h.same, hrun] at hstep
    cases hstep
    exact h.schedLogic hs htidy hswitch
  | kill c code =>
    rw [SchedSystem.step] at hstep
    split_ifs at hstep with huser
    cases hstep
    have hkill := hs.set_state c (.terminate code)
    refine ⟨(h.kill (s.sched c).curr.id).setSched ((h.tidy c).set_user huser _) ?_, hkill.nodup, hkill.count⟩
    exact fun _ _ => mem_cons_self
  | wait c time =>
    rw [SchedSystem.step] at hstep
    split_ifs at hstep with huser
    cases hstep
    refine ⟨h.setSched ((h.tidy c).set_user huser _) ?_, hs.set_state c (.wait time)⟩
    intro code hcode
    cases hcode
  | count c =>
    cases hsteal : s.steal c <;> simp only [SchedSystem.step, hsteal, reduceCtorEq] at hstep
    cases hstep
    exact h.count hs (congrArg StealStage.batch hsteal) rfl
  | scan c =>
    cases hsteal : s.steal c <;> simp only [SchedSystem.step, hsteal, reduceCtorEq] at hstep
    split_ifs at hstep
    cases hstep
    exact h.idle_stage hs (congrArg StealStage.batch hsteal) rfl
  | choose c =>
    cases hsteal : s.steal c <;> simp only [SchedSystem.step, hsteal, reduceCtorEq] at hstep
    have hheld : (s.steal c).batch = [] := congrArg StealStage.batch hsteal
    split_ifs at hstep
    split at hstep
    · cases hstep
      exact h.idle_stage hs hheld rfl
    · split_ifs at hstep <;> cases hstep
      · exact h.idle_stage hs hheld rfl
      · exact h.idle_stage hs hheld rfl
  | take c =>
    cases hsteal : s.steal c <;> simp only [SchedSystem.step, hsteal, reduceCtorEq] at hstep
    have hheld : (s.steal c).batch = [] := congrArg StealStage.batch hsteal
    split_ifs at hstep with hlt
    rename_i taskCount busiest
    set d : Fin n := ⟨busiest, hlt⟩
    rcases Scheduler.takeUserTasks_spec (((s.sched d).taskCount.2 - taskCount) / 2) (s.sched d) with
      htake | ⟨tasks, rest, htake, hperm, huser⟩
    · rw [htake] at hstep
      cases hstep
      have hsame : s.setSched d (s.sched d) = s := by
        rw [SchedSystem.setSched, Function.update_eq_self]
      rw [hsame]
      exact h.idle_stage hs hheld rfl
    · rw [htake] at hstep
      cases hstep
      exact h.take hs hheld hperm huser
  | extend c =>
    cases hsteal : s.steal c <;> simp only [SchedSystem.step, hsteal, reduceCtorEq] at hstep
    cases hstep
    exact h.extend hs hsteal

/-- Tasks are neither lost nor duplicated, in any interleaving. Each idle task stays where it belongs. A call of
`sched_logic` always returns, never clones the idle task and never selects a terminated task. -/
theorem tasks_conserved (htype : ∀ c, (idle c).type = .kernel) (hstate : ∀ c, (idle c).state = .ready)
    (hids : Function.Injective fun c => (idle c).id) (hreach : Reaches step (fun _ _ => True) (start idle) s) :
    (∀ id, s.copies id ≤ 1) ∧ (∀ id ∈ s.created, id ∉ s.killed → s.copies id = 1) ∧
    (∀ c, ∃ t ∈ (s.sched c).curr :: (s.sched c).ready, t.id = (idle c).id) ∧
    ∀ c now oldSp, ∃ woken sched dropped,
      let called := { s.sched c with curr := { (s.sched c).curr with sp := oldSp } }
      Scheduler.wakeTasks (Scheduler.wakeQueue now called.sleep 0).reverse called = some woken ∧
      woken.clonesIdle = false ∧
      (s.sched c).schedLogic (s.idle c) now oldSp = some (sched, dropped) ∧ sched.curr.state = .ready := by
  obtain ⟨h, hs⟩ : Sound idle s ∧ Conserved s :=
    hreach.invariant (fun s => Sound idle s ∧ Conserved s) ⟨.start htype hstate, .start hids⟩
      fun _ _ _ h _ hstep => h.1.step h.2 hstep
  have hcount : ∀ id, s.copies id + s.dropped.count id = s.created.count id := hs.count
  refine ⟨fun id => ?_, fun id hid hkilled => ?_, fun c => ?_, fun c now oldSp => ?_⟩
  · have := List.nodup_iff_count_le_one.1 hs.nodup id
    have := hcount id
    omega
  · have hone := List.count_eq_one_of_mem hs.nodup hid
    have hzero := List.count_eq_zero_of_not_mem fun hdropped => hkilled (h.dropped id hdropped)
    have := hcount id
    omega
  · obtain ⟨t, ht, hid, -, -⟩ := (h.tidy c).idle
    exact ⟨t, ht, hid⟩
  · obtain ⟨woken, hwake, hwoken, -, -⟩ := ((h.tidy c).set_sp oldSp).wake now
    obtain ⟨sched, dropped, hrun, -, hswitch⟩ := (h.tidy c).schedLogic now oldSp
    rw [h.same]
    exact ⟨woken, sched, dropped, hwake, hwoken.clonesIdle, hrun, hswitch.curr⟩

def idlePair (c : Fin 2) : Task := ⟨c, .kernel, .ready, 0⟩

/-- The second processor steals one of two user tasks. -/
def theft : List (SchedAction 2) :=
  [.addTask ⟨2, .user, .ready, 0⟩ 0, .addTask ⟨3, .user, .ready, 0⟩ 0, .count 1, .scan 1, .scan 1, .choose 1, .take 1]

theorem tasks_conserved_theft :
    ∃ s, Transition.run step (start idlePair) theft = some s ∧ (s.steal 1).batch = [⟨2, .user, .ready, 0⟩] ∧
      (∀ id, s.copies id ≤ 1) ∧ ∀ id ∈ s.created, id ∉ s.killed → s.copies id = 1 := by
  obtain ⟨s, hrun, hbatch⟩ : ∃ s, Transition.run step (start idlePair) theft = some s ∧
      (s.steal 1).batch = [⟨2, .user, .ready, 0⟩] := ⟨_, rfl, rfl⟩
  have hids : Function.Injective fun c => (idlePair c).id := fun c d hcd => Fin.ext hcd
  obtain ⟨hle, hone, -, -⟩ := tasks_conserved (fun _ => rfl) (fun _ => rfl) hids
    (Reaches.start.run (fun _ _ _ => trivial) hrun)
  exact ⟨s, hrun, hbatch, hle, hone⟩

end SchedSystem

end MaramOS
