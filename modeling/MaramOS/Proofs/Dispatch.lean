import MaramOS.Proofs.Scheduler

/-! A ready task gets the processor. The queue is first in, first out, and a task leaves it
otherwise only when another processor steals it. -/

namespace MaramOS

open List Transition

/-- The task is in the queue with at most `k` others before it. -/
def Queued (t : Task) (k : ℕ) (l : List Task) : Prop := ∃ before after, l = before ++ t :: after ∧ before.length ≤ k

variable {t : Task} {k : ℕ} {l : List Task}

theorem Queued.append (h : Queued t k l) (l' : List Task) : Queued t k (l ++ l') := by
  obtain ⟨before, after, rfl, hk⟩ := h
  exact ⟨before, after ++ l', by simp, hk⟩

namespace Scheduler

variable {s s' : Scheduler} {idle : Task}

theorem moveToQueue_spec (s : Scheduler) (t : Task) :
    (s.moveToQueue t).curr = s.curr ∧ ∃ l, (s.moveToQueue t).ready = s.ready ++ l := by
  unfold moveToQueue
  cases t.state with
  | ready => exact ⟨rfl, _, rfl⟩
  | wait time => exact ⟨rfl, [], (append_nil _).symm⟩
  | terminate code => exact ⟨rfl, [], (append_nil _).symm⟩

theorem schedLogic_queued {now : ℕ → ℕ} {oldSp : ℕ} {dropped : List Task} (h : Queued t k s.ready)
    (hrun : schedLogic idle now oldSp s = some (s', dropped)) :
    s'.curr = t ∨ ∃ j, k = j + 1 ∧ Queued t j s'.ready := by
  obtain ⟨woken, rest, hwake, -⟩ := wake_spec now { s with curr := { s.curr with sp := oldSp } }
  obtain ⟨before, after, hready, hk⟩ := h
  simp only [schedLogic, hwake] at hrun
  rw [hready] at hrun
  cases before with
  | nil =>
    left
    simp only [nil_append, cons_append, switchTo, Option.some.injEq, Prod.mk.injEq] at hrun
    rw [← hrun.1]
    exact (moveToQueue_spec _ _).1
  | cons b before =>
    right
    simp only [cons_append, append_assoc, switchTo, Option.some.injEq, Prod.mk.injEq] at hrun
    rw [length_cons] at hk
    refine ⟨k - 1, by omega, ?_⟩
    rw [← hrun.1]
    obtain ⟨l, hl⟩ := (moveToQueue_spec { s with
      curr := b, ready := before ++ (t :: after ++ woken.map fun t => { t with state := .ready }), sleep := rest }
      { s.curr with sp := oldSp }).2
    refine ⟨before, after ++ woken.map (fun t => { t with state := .ready }) ++ l, hl.trans ?_, by omega⟩
    simp

theorem removeTasks_sublist (is : List ℕ) (ready tasks : List Task) : (removeTasks is ready tasks).2 <+ ready := by
  induction is generalizing ready tasks with
  | nil => exact .refl ready
  | cons i is ih =>
    rw [removeTasks]
    split
    · exact .refl ready
    · exact (ih _ _).trans (eraseIdx_sublist ready i)

theorem takeUserTasks_queued (count : ℕ) (h : Queued t k s.ready) :
    (∃ tasks, (takeUserTasks count s).1 = some tasks ∧ t ∈ tasks) ∨ Queued t k (takeUserTasks count s).2.ready := by
  have hsub : (takeUserTasks count s).2.ready <+ s.ready := by
    rw [takeUserTasks]
    split_ifs
    · exact .refl s.ready
    · exact removeTasks_sublist _ _ _
  rcases takeUserTasks_spec count s with htake | ⟨tasks, rest, htake, hperm, -⟩
  · rw [htake]
    exact .inr h
  rw [htake] at hsub ⊢
  obtain ⟨before, after, hready, hk⟩ := h
  rw [hready] at hsub hperm
  obtain ⟨r1, r2, hrest, hr1, hr2⟩ := sublist_append_iff.1 hsub
  rcases sublist_cons_iff.1 hr2 with hr2 | ⟨r, rfl, -⟩
  · refine .inl ⟨tasks, rfl, ?_⟩
    by_contra hnot
    have hcount := hperm.count_eq t
    simp only [show rest = r1 ++ r2 from hrest, count_append, count_cons_self, count_eq_zero_of_not_mem hnot] at hcount
    have := hr1.count_le t
    have := hr2.count_le t
    omega
  · exact .inr ⟨r1, r, hrest, hr1.length_le.trans hk⟩

end Scheduler

namespace SchedSystem

variable {n : ℕ} {s s' : SchedSystem n} {c : Fin n}

def switches (c : Fin n) : SchedAction n → ℕ
  | .schedLogic d _ _ => if d = c then 1 else 0
  | _ => 0

theorem setSched_queued (h : Queued t k (s.sched c).ready) {d : Fin n} {sched : Scheduler}
    (hsched : Queued t k (s.sched d).ready → Queued t k sched.ready) :
    Queued t k ((s.setSched d sched).sched c).ready := by
  simp only [setSched]
  rcases eq_or_ne c d with rfl | hne
  · rw [Function.update_self]
    exact hsched h
  · rwa [Function.update_of_ne hne]

/-- With each action the task runs, is stolen, or stays with one task less before it if there was a switch. -/
theorem step_queued {a : SchedAction n} (h : Queued t k (s.sched c).ready) (hstep : s.step a = some s') :
    (s'.sched c).curr = t ∨ (∃ d, t ∈ (s'.steal d).batch) ∨
      ∃ j, k = j + switches c a ∧ Queued t j (s'.sched c).ready := by
  have hstay : ∀ {d : Fin n} {sched : Scheduler}, (Queued t k (s.sched d).ready → Queued t k sched.ready) →
      ∃ j, k = j + 0 ∧ Queued t j ((s.setSched d sched).sched c).ready := fun hsched => ⟨k, rfl, setSched_queued h hsched⟩
  cases a with
  | addTask u d =>
    rw [SchedSystem.step] at hstep
    split_ifs at hstep
    cases hstep
    exact .inr (.inr (hstay fun hq => hq.append [u]))
  | schedLogic d now oldSp =>
    rw [SchedSystem.step] at hstep
    cases hsched : (s.sched d).schedLogic (s.idle d) now oldSp with
    | none =>
      rw [hsched] at hstep
      cases hstep
    | some r =>
      rw [hsched] at hstep
      cases hstep
      rcases eq_or_ne d c with rfl | hne
      · simp only [setSched, Function.update_self, switches, if_true]
        exact (Scheduler.schedLogic_queued h hsched).imp_right .inr
      · simp only [setSched, Function.update_of_ne hne.symm, switches, if_neg hne]
        exact .inr (.inr ⟨k, rfl, h⟩)
  | kill d | wait d =>
    rw [SchedSystem.step] at hstep
    split_ifs at hstep
    cases hstep
    exact .inr (.inr (hstay id))
  | count d =>
    cases hsteal : s.steal d <;> simp only [SchedSystem.step, hsteal, reduceCtorEq] at hstep
    cases hstep
    exact .inr (.inr (hstay id))
  | scan d | choose d =>
    cases hsteal : s.steal d <;> simp only [SchedSystem.step, hsteal, reduceCtorEq] at hstep
    repeat' split at hstep
    all_goals cases hstep <;> exact .inr (.inr ⟨k, rfl, h⟩)
  | take d =>
    cases hsteal : s.steal d <;> simp only [SchedSystem.step, hsteal, reduceCtorEq] at hstep
    split_ifs at hstep with hlt
    rename_i taskCount busiest
    set e : Fin n := ⟨busiest, hlt⟩
    set count := ((s.sched e).taskCount.2 - taskCount) / 2
    by_cases hstolen : ∃ tasks, ((s.sched e).takeUserTasks count).1 = some tasks ∧ t ∈ tasks
    · obtain ⟨tasks, htasks, ht⟩ := hstolen
      rw [htasks] at hstep
      cases hstep
      refine .inr (.inl ⟨d, ?_⟩)
      simp only [setSteal, Function.update_self]
      exact ht
    · split at hstep <;> cases hstep <;>
        exact .inr (.inr (hstay fun hq => (Scheduler.takeUserTasks_queued count hq).resolve_left hstolen))
  | extend d =>
    cases hsteal : s.steal d <;> simp only [SchedSystem.step, hsteal, reduceCtorEq] at hstep
    cases hstep
    exact .inr (.inr (hstay fun hq => hq.append _))

/-- No ready task starves. Whatever the processors do, a task with `k` others before it runs within `k + 1` switches
of its processor, with the stack pointer it was queued with, or is taken by another processor. -/
theorem ready_task_runs {as : List (SchedAction n)} (h : Queued t k (s.sched c).ready)
    (hrun : Transition.run step s as = some s') (hswitches : k < (as.map (switches c)).sum) :
    ∃ as1 s1, as1 <+: as ∧ Transition.run step s as1 = some s1 ∧ ((s1.sched c).curr = t ∨ ∃ d, t ∈ (s1.steal d).batch) := by
  induction as generalizing s k with
  | nil => exact absurd hswitches (Nat.not_lt_zero k)
  | cons a as ih =>
    rw [run_cons, Option.bind_eq_some_iff] at hrun
    obtain ⟨s1, hstep, hrun⟩ := hrun
    have hfirst : Transition.run step s [a] = some s1 := by rw [run_cons, hstep]; rfl
    rcases step_queued h hstep with hcurr | hstolen | ⟨j, rfl, hj⟩
    · exact ⟨[a], s1, prefix_append [a] as, hfirst, .inl hcurr⟩
    · exact ⟨[a], s1, prefix_append [a] as, hfirst, .inr hstolen⟩
    · rw [map_cons, sum_cons] at hswitches
      obtain ⟨as1, s2, hpre, hrun1, hdone⟩ := ih hj hrun (by omega)
      refine ⟨a :: as1, s2, cons_prefix_cons.2 ⟨rfl, hpre⟩, ?_, hdone⟩
      rw [run_cons, hstep]
      exact hrun1

/-- The idle task of one processor and two ready tasks. -/
def twoReady : SchedSystem 1 :=
  ⟨fun _ => ⟨0, .kernel, .ready, 0⟩,
    fun _ => ⟨⟨0, .kernel, .ready, 0⟩, [⟨1, .user, .ready, 8⟩, ⟨2, .user, .ready, 16⟩], [], []⟩, fun _ => .start,
    [0, 1, 2], [], []⟩

theorem ready_task_runs_second :
    ∃ as1 s1, as1 <+: [.schedLogic 0 (fun _ => 0) 64, .schedLogic 0 (fun _ => 0) 72] ∧
      Transition.run step twoReady as1 = some s1 ∧
      ((s1.sched 0).curr = ⟨2, .user, .ready, 16⟩ ∨ ∃ d, ⟨2, .user, .ready, 16⟩ ∈ (s1.steal d).batch) :=
  ready_task_runs ⟨[⟨1, .user, .ready, 8⟩], [], rfl, le_rfl⟩ rfl (by decide)

end SchedSystem

end MaramOS
