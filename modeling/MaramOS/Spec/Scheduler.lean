import Mathlib.Data.Nat.Notation
import Mathlib.Logic.Function.Basic
import MaramOS.Lib.Transition

/-! The scheduler of `scheduling/scheduler.rs` and `scheduling/mod.rs`. Of a task, only
what the scheduler looks at is kept: its type without the address space and stacks,
its state and its stack pointer. -/

namespace MaramOS

/-- `Wait` has the time to wake up at, in nanoseconds. -/
inductive TaskState
  | ready
  | wait (time : ℕ)
  | terminate (code : ℕ)
  deriving DecidableEq, Repr

inductive TaskType
  | kernel | user
  deriving DecidableEq, Repr

structure Task where
  id : ℕ
  type : TaskType
  state : TaskState
  sp : ℕ
  deriving DecidableEq, Repr

structure Scheduler where
  curr : Task
  ready : List Task
  terminate : List Task
  sleep : List Task
  deriving DecidableEq, Repr

namespace Scheduler

def new (idle : Task) : Scheduler := ⟨idle, [], [], []⟩

def addTask (s : Scheduler) (t : Task) : Scheduler := { s with ready := s.ready ++ [t] }

/-- The number of kernel and of user tasks that are ready. -/
def taskCount (s : Scheduler) : ℕ × ℕ :=
  s.ready.foldl (fun n t =>
    match t.type with
    | .kernel => (n.1 + 1, n.2)
    | .user => (n.1, n.2 + 1)) (0, 0)

/-- The first loop of `take_user_tasks`: `i` is the index of the first task, and `queue` are the indices found. -/
def popQueue (count : ℕ) : List Task → ℕ → List ℕ → List ℕ
  | [], _, queue => queue
  | t :: rest, i, queue =>
    if queue.length ≥ count then queue
    else popQueue count rest (i + 1) (if t.type = .user then queue ++ [i] else queue)

/-- The second loop of `take_user_tasks`. It gives up when an index is out of bounds. -/
def removeTasks : List ℕ → List Task → List Task → Option (List Task) × List Task
  | [], ready, tasks => (some tasks, ready)
  | i :: is, ready, tasks =>
    match ready[i]? with
    | none => (none, ready)
    | some t => removeTasks is (ready.eraseIdx i) (tasks ++ [t])

def takeUserTasks (count : ℕ) (s : Scheduler) : Option (List Task) × Scheduler :=
  if count > s.taskCount.2 then (none, s)
  else
    let r := removeTasks (popQueue count s.ready 0 []).reverse s.ready []
    (r.1, { s with ready := r.2 })

/-- Whether a sleeping task is woken; the clock is read for each of them. -/
def wakes (now : ℕ) (t : Task) : Bool :=
  match t.state with
  | .wait x => x < now
  | .ready => true
  | .terminate _ => true

def wakeQueue (now : ℕ → ℕ) : List Task → ℕ → List ℕ
  | [], _ => []
  | t :: rest, i => if wakes (now i) t then i :: wakeQueue now rest (i + 1) else wakeQueue now rest (i + 1)

/-- Moves the tasks with the given indices to the ready queue; an index out of bounds panics. -/
def wakeTasks : List ℕ → Scheduler → Option Scheduler
  | [], s => some s
  | i :: is, s =>
    match s.sleep[i]? with
    | none => none
    | some t => wakeTasks is { s with sleep := s.sleep.eraseIdx i, ready := s.ready ++ [{ t with state := .ready }] }

def moveToQueue (s : Scheduler) (t : Task) : Scheduler :=
  match t.state with
  | .ready => { s with ready := s.ready ++ [t] }
  | .terminate _ => { s with terminate := s.terminate ++ [t] }
  | .wait _ => { s with sleep := s.sleep ++ [t] }

/-- The end of `sched_logic`, with the tasks that `terminate.clear()` drops. -/
def switchTo (s : Scheduler) (next : Task) : Scheduler × List Task :=
  let s' := { s with curr := next }.moveToQueue s.curr
  ({ s' with terminate := [] }, s'.terminate)

/-- The branch of `sched_logic` that clones the idle task. -/
def clonesIdle (s : Scheduler) : Bool := s.ready.isEmpty && s.curr.state ≠ .ready

/-- `sched_logic` with the lock held: the scheduler afterwards and the tasks that are dropped. -/
def schedLogic (idle : Task) (now : ℕ → ℕ) (oldSp : ℕ) (s : Scheduler) : Option (Scheduler × List Task) :=
  let s := { s with curr := { s.curr with sp := oldSp } }
  match wakeTasks (wakeQueue now s.sleep 0).reverse s with
  | none => none
  | some s =>
    match s.ready with
    | next :: rest => some ({ s with ready := rest }.switchTo next)
    | [] => if s.clonesIdle then some (s.switchTo idle) else some (s, [])

end Scheduler

/-- `busiest_queue`, from the numbers of user tasks that it has found. -/
def busiestQueue (counts : List ℕ) : Option (ℕ × ℕ) :=
  let r := counts.zipIdx.foldl (fun (best : ℕ × Option ℕ) c => if c.1 > best.1 then (c.1, some c.2) else best) (0, none)
  r.2.map fun id => (id, r.1)

/-- Where the loop of `idle_task` is. All locks are dropped between these points. -/
inductive StealStage
  | start
  /-- The own tasks are counted, and `busiest_queue` has seen some of the queues. -/
  | counting (taskCount : ℕ) (counts : List ℕ)
  | chosen (taskCount busiest : ℕ)
  /-- The tasks are taken from their queue. -/
  | holding (tasks : List Task)
  deriving DecidableEq, Repr

def StealStage.batch : StealStage → List Task
  | .holding tasks => tasks
  | _ => []

/-- All processors. The last three fields are kept for the statements only: the identifiers of the tasks
that ever existed, of those that were killed and of those that were dropped. -/
structure SchedSystem (n : ℕ) where
  idle : Fin n → Task
  sched : Fin n → Scheduler
  steal : Fin n → StealStage
  created : List ℕ
  killed : List ℕ
  dropped : List ℕ

inductive SchedAction (n : ℕ)
  /-- `add_task`, which can choose any queue. -/
  | addTask (t : Task) (cpu : Fin n)
  | schedLogic (cpu : Fin n) (now : ℕ → ℕ) (oldSp : ℕ)
  | kill (cpu : Fin n) (code : ℕ)
  /-- The current user task goes to sleep. -/
  | wait (cpu : Fin n) (time : ℕ)
  | count (cpu : Fin n)
  | scan (cpu : Fin n)
  | choose (cpu : Fin n)
  | take (cpu : Fin n)
  | extend (cpu : Fin n)

namespace SchedSystem

variable {n : ℕ}

def start (idle : Fin n → Task) : SchedSystem n :=
  ⟨idle, fun c => .new (idle c), fun _ => .start, List.ofFn fun c => (idle c).id, [], []⟩

def setSched (s : SchedSystem n) (c : Fin n) (sched : Scheduler) : SchedSystem n :=
  { s with sched := Function.update s.sched c sched }

def setSteal (s : SchedSystem n) (c : Fin n) (stage : StealStage) : SchedSystem n :=
  { s with steal := Function.update s.steal c stage }

/-- One lock-protected step. The steps of an idle task are possible at any time, also when it does not run. -/
def step (s : SchedSystem n) : SchedAction n → Option (SchedSystem n)
  | .addTask t c =>
    if t.id ∈ s.created ∨ t.state ≠ .ready then none
    else some { s.setSched c ((s.sched c).addTask t) with created := t.id :: s.created }
  | .schedLogic c now oldSp =>
    match (s.sched c).schedLogic (s.idle c) now oldSp with
    | none => none
    | some (sched, tasks) => some { s.setSched c sched with dropped := tasks.map Task.id ++ s.dropped }
  | .kill c code =>
    let sched := s.sched c
    if sched.curr.type = .user then
      some { s.setSched c { sched with curr := { sched.curr with state := .terminate code } } with
        killed := sched.curr.id :: s.killed }
    else none
  | .wait c time =>
    let sched := s.sched c
    if sched.curr.type = .user then
      some (s.setSched c { sched with curr := { sched.curr with state := .wait time } })
    else none
  | .count c =>
    match s.steal c with
    | .start =>
      let sched := s.sched c
      some ({ s.setSched c { sched with terminate := [] } with
        dropped := sched.terminate.map Task.id ++ s.dropped }.setSteal c (.counting sched.taskCount.2 []))
    | _ => none
  | .scan c =>
    match s.steal c with
    | .counting taskCount counts =>
      if h : counts.length < n then
        some (s.setSteal c (.counting taskCount (counts ++ [(s.sched ⟨counts.length, h⟩).taskCount.2])))
      else none
    | _ => none
  | .choose c =>
    match s.steal c with
    | .counting taskCount counts =>
      if counts.length < n then none
      else
        match busiestQueue counts with
        | none => some (s.setSteal c .start)
        | some busiest =>
          if busiest.1 = c.val ∨ busiest.2 < 2 then some (s.setSteal c .start)
          else some (s.setSteal c (.chosen taskCount busiest.1))
    | _ => none
  | .take c =>
    match s.steal c with
    | .chosen taskCount busiest =>
      if h : busiest < n then
        let busy := s.sched ⟨busiest, h⟩
        let r := busy.takeUserTasks ((busy.taskCount.2 - taskCount) / 2)
        let s' := s.setSched ⟨busiest, h⟩ r.2
        match r.1 with
        | none => some (s'.setSteal c .start)
        | some tasks => some (s'.setSteal c (.holding tasks))
      else none
    | _ => none
  | .extend c =>
    match s.steal c with
    | .holding tasks =>
      let sched := s.sched c
      some ((s.setSched c { sched with ready := sched.ready ++ tasks }).setSteal c .start)
    | _ => none

end SchedSystem

end MaramOS
