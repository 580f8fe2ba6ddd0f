import Mathlib.Data.List.Perm.Subperm
import Nascent.Lib.Runs
import Nascent.Sched.Model

/-!
# The two lists of tasks

The scheduler with lists in place of the links: `Queues` has `overall_task_list` and the list of free
PCBs as lists of tasks. What is left of the links is one bit. `fetch_ready_task` does not reset the
`next` of a task that it takes from the front of the list, so the running task may still point to the
front (`linked`). This shows where the list has just become empty: `add_to_task_list` then puts the
last task on the list with whatever is behind it.

`Rep` is the relation between the two. Each operation on the links does to the lists what its
counterpart here says, as long as a PCB that is reaped is not on `overall_task_list`.
-/

namespace Nascent

open Linked (Chain)

/-- The state of the scheduler, with lists of tasks. -/
structure Queues extends Core where
  /-- The tasks of `overall_task_list`. -/
  list : List ℕ
  /-- The free PCBs. -/
  free : List ℕ
  /-- The `next` of the running task is the first task of the list. -/
  linked : Bool

namespace Queues

/-- A change of the running task. -/
def modifyCurrent (a : Queues) (f : Task → Task) : Queues :=
  { a with tasks := a.tasks.modify a.runningTask f }

/-- A running task that is put back is ready. -/
def demote (t : Tasks) (task : ℕ) : Tasks :=
  if (t task).taskState = .running then t.setState task .ready else t

/-- `add_to_task_list` for a task with the tasks `behind` behind it. -/
def addToTaskList (a : Queues) (task : ℕ) (behind : List ℕ) : Queues :=
  { a with
    tasks := demote a.tasks task
    list := if (a.tasks task).taskState = .zombie ∨ task ∈ a.list then a.list
      else if a.list = [] then task :: behind else a.list ++ [task] }

/-- The first ready task of the list. -/
def ready (a : Queues) : Option ℕ :=
  a.list.find? fun i => decide ((a.tasks i).taskState = .ready)

/-- `fetch_ready_task` with a ready task, which becomes the running one. -/
def take (a : Queues) (x : ℕ) : Queues :=
  { a with
    tasks := a.tasks.setState x .running
    runningTask := x
    list := a.list.erase x
    linked := decide (a.list.head? = some x ∧ a.list.erase x ≠ []) }

/-- `schedule`. -/
def schedule (a : Queues) : Queues :=
  match a.ready with
  | none => addToTaskList { a with runningTask := idleTask, linked := false } a.runningTask []
  | some x => (a.take x).addToTaskList a.runningTask
      (if a.linked = true ∧ a.runningTask ∉ a.list then [x] else [])

/-- `fork_process`. -/
def forkProcess (a : Queues) : Option Queues :=
  match a.free with
  | [] => none
  | child :: free =>
    let parent := a.runningTask
    some (addToTaskList { a with
      free := free
      born := a.born + 1
      tasks := (a.tasks.fetch child (a.born + 1)).modify child fun x => { x with
        parentTask := some parent, ppid := ((a.tasks.fetch child (a.born + 1)) parent).pid
        cont := .user, forker := ((a.tasks.fetch child (a.born + 1)) parent).uid } } child [])

/-- `sys_exit`. -/
def sysExit (a : Queues) (target : ℕ) : Queues :=
  schedule { a with tasks := a.tasks.exit target, exited := (a.tasks target).uid :: a.exited }

/-- What `wait_for_child` and `clean_child_pcb` do with a zombie. -/
def reap (a : Queues) (child : ℕ) : Queues :=
  { a with tasks := a.tasks.clear child, free := a.free ++ [child] }

/-- A loop of `wait_for_child`. -/
def reapChild (a : Queues) : Option ℕ × Queues :=
  match a.tasks.zombieChild a.current.pid with
  | none => (none, a)
  | some child =>
    (some child, { a.reap child with reported := (a.tasks child).uid :: a.reported })

/-- `clean_child_pcb`. -/
def cleanChildPcb (a : Queues) : Queues :=
  (List.range numPcb).foldl (fun a i =>
    if (a.tasks i).taskState = .zombie ∧ (a.tasks i).ppid = a.current.pid then a.reap i else a) a

/-- The running task is put to sleep. -/
def block (a : Queues) (state : TaskState) (cont : Cont) : Queues :=
  schedule (a.modifyCurrent fun x => { x with taskState := state, cont := cont })

/-- What follows a return from `wait_for_child`. -/
def afterWait (a : Queues) : Queues :=
  if a.runningTask = initTask then
    (a.modifyCurrent fun x => { x with cont := .initProcess }).cleanChildPcb
  else schedule (a.modifyCurrent fun x => { x with cont := .user })

/-- `wait_for_child` from its start. -/
def waitForChild (a : Queues) : Queues :=
  match a.reapChild with
  | (some _, a) => a.afterWait
  | (none, a) => a.block .suspended .waitForChild

/-- `wait_for_child` after its call of `schedule`. -/
def waitForChildWoken (a : Queues) : Queues := a.reapChild.2.afterWait

/-- `schedule_terminal_task`. -/
def scheduleTerminalTask (a : Queues) : Queues :=
  if a.terminalLineCount ≠ 0 then
    { a with terminalLineCount := a.terminalLineCount - 1 }.modifyCurrent fun x =>
      { x with cont := .user }
  else a.block .wait .readBuffer

/-- `terminal_handler` for a newline. -/
def terminalHandler (a : Queues) : Queues :=
  match a.list.find? fun i => decide ((a.tasks i).taskState = .wait) with
  | none => { a with terminalLineCount := a.terminalLineCount + 1 }
  | some task => { a with
      terminalLineCount := a.terminalLineCount + 1
      tasks := a.tasks.setState task .ready }

/-- `timer_int`. -/
def timerInt (a : Queues) : Queues :=
  if a.timerCount = 18 then
    schedule { a with timerCount := 0, tasks := a.tasks.countDown a.list }
  else if a.timerCount = -1 then schedule { a with timerCount := 0 }
  else { a with timerCount := a.timerCount + 1 }

/-- One action. -/
def step (a : Queues) (op : SchedOp) : Option Queues :=
  match op, a.current.cont with
  | .fork, .user => a.forkProcess
  | .exit, .user => some (a.sysExit a.runningTask)
  | .kill pid, .user => if pid < numPcb then some (a.sysExit pid) else none
  | .wait, .user => some a.waitForChild
  | .sleep sec, .user =>
    some ((a.modifyCurrent fun x => { x with sleepSec := sec }).block .sleep .user)
  | .read, .user => some a.scheduleTerminalTask
  | .yield, .user => some a.schedule
  | .yield, .idleProcess => some a.schedule
  | .tick, .user => some a.timerInt
  | .tick, .idleProcess => some a.timerInt
  | .enter, .user => some a.terminalHandler
  | .enter, .idleProcess => some a.terminalHandler
  | .resume, .waitForChild => some a.waitForChildWoken
  | .resume, .readBuffer => some a.scheduleTerminalTask
  | .resume, .initProcess => some a.waitForChild
  | _, _ => none

variable {a : Queues} {i task : ℕ} {behind : List ℕ}

theorem modifyCurrent_tasks {f : Task → Task} :
    (a.modifyCurrent f).tasks = a.tasks.modify a.runningTask f := rfl

theorem modifyCurrent_runningTask {f : Task → Task} :
    (a.modifyCurrent f).runningTask = a.runningTask := rfl

theorem reap_tasks : (a.reap i).tasks = a.tasks.clear i := rfl

theorem reapChild_of_none (h : a.tasks.zombieChild a.current.pid = none) :
    a.reapChild = (none, a) := by
  unfold reapChild
  rw [h]

theorem reapChild_of_some (h : a.tasks.zombieChild a.current.pid = some i) : a.reapChild =
    (some i, { a.reap i with reported := (a.tasks i).uid :: a.reported }) := by
  unfold reapChild
  rw [h]

/-- A task that is put back is on the list. -/
theorem mem_addToTaskList_self (h : (a.tasks task).taskState ≠ .zombie) :
    task ∈ (a.addToTaskList task behind).list := by
  simp only [addToTaskList, h, false_or]
  split_ifs with h1 h2
  · exact h1
  · exact List.mem_cons_self ..
  · exact List.mem_append_right _ (List.mem_singleton_self _)

/-- The tasks of the list stay when one is put back. -/
theorem mem_addToTaskList_of_mem (h : i ∈ a.list) : i ∈ (a.addToTaskList task behind).list := by
  simp only [addToTaskList]
  split_ifs with h1 h2
  · exact h
  · simp [h2] at h
  · exact List.mem_append_left _ h

end Queues

end Nascent
