import Mathlib.Data.List.Range
import Mathlib.Data.Int.Notation
import Nascent.Lib.Linked

/-!
# Tasks and the scheduler

The model of the process table of `sys/proc_mngr.c` and of what works on it: the list of free PCBs,
`overall_task_list`, `schedule`, `fork_process`, `sys_exit`, and `wait_for_child`, with sleeping, the
terminal, and the timer. A task is named by its index in `pcb_arr`. Both lists are threaded through
the one field `next`.

A context switch ends the work of one task and goes on with another, so the model runs from one
switch to the next. `Cont` says where a task goes on: in user mode, or in the loop of the kernel in
which it called `schedule`. Interrupts are off in the kernel, but for the `hlt` of the idle task, so
they only come in user mode and there.

Processes are numbered in the order of their creation, and `uid` is the number of the process that a
PCB holds, 0 for a free PCB. The fields `uid`, `forker`, `born`, `exited`, and `reported` are not in
the source and nothing in the model depends on them. The fields of a PCB that do not matter for the
lists are left out: the memory, the open files, the names, and `prev`, which is never read.
-/

namespace Nascent

/-- `TASK_STATES`. -/
inductive TaskState
  | running
  | ready
  | sleep
  | wait
  | idle
  | exit
  | zombie
  | suspended
deriving DecidableEq

/-- Where a task goes on when it is switched to. -/
inductive Cont
  /-- In user mode. -/
  | user
  /-- After the call of `schedule` in `wait_for_child`. -/
  | waitForChild
  /-- After the call of `schedule` in `schedule_terminal_task`. -/
  | readBuffer
  /-- At the start of the loop of `init_process`. -/
  | initProcess
  /-- In the loop of `idle_process`. -/
  | idleProcess
deriving DecidableEq

/-- `struct Task`. -/
structure Task where
  /-- `pid`. -/
  pid : ℤ
  /-- `ppid`. -/
  ppid : ℤ
  /-- `parent_task`. -/
  parentTask : Option ℕ
  /-- `sleep_sec`. -/
  sleepSec : BitVec 32
  /-- `task_state`. -/
  taskState : TaskState
  /-- Where the task goes on, which its registers and its kernel stack say. -/
  cont : Cont
  /-- The process that the PCB holds. -/
  uid : ℕ
  /-- The process that created it, 0 for the processes of the kernel. -/
  forker : ℕ

/-- `NUM_PCB`. -/
def numPcb : ℕ := 1000

/-- `INIT_TASK`, the first PCB to be handed out. -/
def initTask : ℕ := 0

/-- `IDLE_TASK`, the second. -/
def idleTask : ℕ := 1

/-- The fields of `pcb_arr` other than `next`. -/
abbrev Tasks := ℕ → Task

namespace Tasks

/-- The table with one task changed. -/
def modify (t : Tasks) (i : ℕ) (f : Task → Task) : Tasks := Function.update t i (f (t i))

/-- `task->task_state = state`. -/
def setState (t : Tasks) (i : ℕ) (state : TaskState) : Tasks :=
  t.modify i fun x => { x with taskState := state }

/-- The fields that `fetch_free_pcb` sets. -/
def fetch (t : Tasks) (i uid : ℕ) : Tasks :=
  t.modify i fun x => { x with
    parentTask := none, pid := i, ppid := -1, taskState := .ready, uid := uid }

/-- The fields that `clear_pcb` resets. -/
def clear (t : Tasks) (i : ℕ) : Tasks :=
  t.modify i fun x => { x with
    parentTask := none, sleepSec := 0, taskState := .ready, ppid := -1, uid := 0 }

/-- The first loop of `wait_for_child`, and the second: the first zombie with a given `ppid`. -/
def zombieChild (t : Tasks) (pid : ℤ) : Option ℕ :=
  (List.range numPcb).find? fun i =>
    decide ((t i).taskState = .zombie) && decide ((t i).ppid = pid)

/-- The start of `sys_exit`: the task becomes a zombie, and its parent is woken up. -/
def wake (t : Tasks) (target : ℕ) : Tasks :=
  let t := t.setState target .zombie
  match (t target).parentTask with
  | none => t
  | some parent =>
    if (t parent).taskState = .suspended then t.setState parent .ready else t

/-- The loop of `sys_exit` over the children, each of which it looks at once. -/
def adopt (t : Tasks) (target : ℕ) : Tasks := fun i =>
  if i < numPcb ∧ (t i).ppid = (t target).pid ∧ (t i).taskState ≠ .ready then
    { t i with ppid := (t initTask).pid }
  else t i

/-- What `sys_exit` does to the tasks before it calls `schedule`. -/
def exit (t : Tasks) (target : ℕ) : Tasks := (t.wake target).adopt target

/-- One task of the walk of `timer_int`: one second less to sleep. -/
def countDownTask (t : Tasks) (p : ℕ) : Tasks :=
  if (t p).taskState = .sleep then
    let t := t.modify p fun x => { x with sleepSec := x.sleepSec - 1 }
    if (t p).sleepSec = 0 then t.setState p .ready else t
  else t

/-- The walk of `timer_int` over the tasks of a list. -/
def countDown (t : Tasks) (l : List ℕ) : Tasks := l.foldl countDownTask t

end Tasks

/-- The state of the scheduler, without the lists. -/
structure Core where
  /-- The fields of `pcb_arr` other than `next`. -/
  tasks : Tasks
  /-- `RunningTask`. -/
  runningTask : ℕ
  /-- `timer_count`. -/
  timerCount : ℤ
  /-- `terminal_line_count`. -/
  terminalLineCount : ℤ
  /-- The number of processes so far. -/
  born : ℕ
  /-- The processes that have exited. -/
  exited : List ℕ
  /-- The processes that `wait_for_child` has reported. -/
  reported : List ℕ

/-- The fields of the running task. -/
def Core.current (c : Core) : Task := c.tasks c.runningTask

/-- The state of the scheduler. -/
structure Sched extends Core where
  /-- The field `next` of `pcb_arr`. -/
  next : ℕ → Option ℕ
  /-- `overall_task_list`. -/
  overallTaskList : Option ℕ
  /-- `free_pcb_head`. -/
  freePcbHead : Option ℕ

namespace Sched

/-- A change of the running task. -/
def modifyCurrent (s : Sched) (f : Task → Task) : Sched :=
  { s with tasks := s.tasks.modify s.runningTask f }

/-- The end of both functions that append a task to a list: the walk to the last task, and
`temp->next = task; task->next = NULL`. -/
def linkLast (s : Sched) (head task : ℕ) : Option Sched :=
  (Linked.lastFrom s.next numPcb head).map fun temp =>
    { s with next := Function.update (Function.update s.next temp (some task)) task none }

/-- `append_in_free_list`. -/
def appendInFreeList (s : Sched) (task : ℕ) : Option Sched :=
  match s.freePcbHead with
  | none => some { s with freePcbHead := some task, next := Function.update s.next task none }
  | some head => s.linkLast head task

/-- `add_to_task_list`. Where the list is empty, the source does not reset `task->next`. -/
def addToTaskList (s : Sched) (task : ℕ) : Option Sched :=
  let s := if (s.tasks task).taskState = .running then
    { s with tasks := s.tasks.setState task .ready } else s
  if (s.tasks task).taskState = .zombie then some s else
  match s.overallTaskList with
  | none => some { s with overallTaskList := some task }
  | some head => s.linkLast head task

/-- `wake_up_task`: the first task that waits for input. -/
def wakeUpTask (s : Sched) : Option Sched := do
  let found ← Linked.firstFrom s.next (fun i => decide ((s.tasks i).taskState = .wait)) (numPcb + 1)
    none s.overallTaskList
  match found with
  | none => some s
  | some (_, task) => some { s with tasks := s.tasks.setState task .ready }

/-- `fetch_ready_task`. Where the first task of the list is ready, the source does not reset its
`next`. -/
def fetchReadyTask (s : Sched) : Option (ℕ × Sched) := do
  let found ← Linked.firstFrom s.next (fun i => decide ((s.tasks i).taskState = .ready))
    (numPcb + 1) none s.overallTaskList
  match found with
  | none => some (idleTask, s)
  | some (prev, nextTask) =>
    let s := { s with tasks := s.tasks.setState nextTask .running }
    match prev with
    | none => some (nextTask, { s with overallTaskList := s.overallTaskList.bind s.next })
    | some prev => some (nextTask, { s with
        next := Function.update (Function.update s.next prev (s.next nextTask)) nextTask none })

/-- `schedule`. -/
def schedule (s : Sched) : Option Sched := do
  let last := s.runningTask
  let (task, s) ← s.fetchReadyTask
  addToTaskList { s with runningTask := task } last

/-- `fetch_free_pcb`. -/
def fetchFreePcb (s : Sched) : Option (ℕ × Sched) :=
  match s.freePcbHead with
  | none => none
  | some pcb => some (pcb, { s with
      freePcbHead := s.next pcb
      next := Function.update s.next pcb none
      tasks := s.tasks.fetch pcb (s.born + 1)
      born := s.born + 1 })

/-- `fork_process`. Without a free PCB the source dereferences a null pointer. -/
def forkProcess (s : Sched) : Option Sched := do
  let parent := s.runningTask
  let (child, s) ← s.fetchFreePcb
  addToTaskList { s with
    tasks := s.tasks.modify child fun x => { x with
      parentTask := some parent, ppid := (s.tasks parent).pid, cont := .user
      forker := (s.tasks parent).uid } } child

/-- `sys_exit`. -/
def sysExit (s : Sched) (target : ℕ) : Option Sched :=
  schedule { s with tasks := s.tasks.exit target, exited := (s.tasks target).uid :: s.exited }

/-- `clear_pcb`. -/
def clearPcb (s : Sched) (task : ℕ) : Sched :=
  { s with tasks := s.tasks.clear task, next := Function.update s.next task none }

/-- What `wait_for_child` and `clean_child_pcb` do with a zombie. -/
def reap (s : Sched) (child : ℕ) : Option Sched := (s.clearPcb child).appendInFreeList child

/-- A loop of `wait_for_child`: the first zombie child is reaped and returned. -/
def reapChild (s : Sched) : Option (Option ℕ × Sched) :=
  match s.tasks.zombieChild s.current.pid with
  | none => some (none, s)
  | some child => do
    let uid := (s.tasks child).uid
    let s ← s.reap child
    some (some child, { s with reported := uid :: s.reported })

/-- `clean_child_pcb`. -/
def cleanChildPcb (s : Sched) : Option Sched :=
  (List.range numPcb).foldlM (fun s i =>
    if (s.tasks i).taskState = .zombie ∧ (s.tasks i).ppid = s.current.pid then s.reap i
    else some s) s

/-- The running task is put to sleep until `schedule` finds it ready. -/
def block (s : Sched) (state : TaskState) (cont : Cont) : Option Sched :=
  schedule (s.modifyCurrent fun x => { x with taskState := state, cont := cont })

/-- `wait_for_child` until it returns or suspends the task. What follows a return is `SYS_wait_s` of
`syscall_handler` for a user task, and the rest of the loop of `init_process`. -/
def afterWait (s : Sched) : Option Sched :=
  if s.runningTask = initTask then
    (s.modifyCurrent fun x => { x with cont := .initProcess }).cleanChildPcb
  else schedule (s.modifyCurrent fun x => { x with cont := .user })

/-- `wait_for_child` from its start. -/
def waitForChild (s : Sched) : Option Sched := do
  let (found, s) ← s.reapChild
  match found with
  | some _ => s.afterWait
  | none => s.block .suspended .waitForChild

/-- `wait_for_child` after its call of `schedule`. -/
def waitForChildWoken (s : Sched) : Option Sched := do
  let (_, s) ← s.reapChild
  s.afterWait

/-- `schedule_terminal_task`. -/
def scheduleTerminalTask (s : Sched) : Option Sched :=
  if s.terminalLineCount ≠ 0 then
    some ({ s with terminalLineCount := s.terminalLineCount - 1 }.modifyCurrent fun x =>
      { x with cont := .user })
  else s.block .wait .readBuffer

/-- `terminal_handler` for a newline. -/
def terminalHandler (s : Sched) : Option Sched :=
  wakeUpTask { s with terminalLineCount := s.terminalLineCount + 1 }

/-- `timer_int`. -/
def timerInt (s : Sched) : Option Sched := do
  let s ← if s.timerCount = 18 then do
      let l ← Linked.nodesFrom s.next (numPcb + 1) s.overallTaskList
      some { s with timerCount := -1, tasks := s.tasks.countDown l }
    else some s
  let s := { s with timerCount := s.timerCount + 1 }
  if s.timerCount = 0 then s.schedule else some s

end Sched

/-! ## Boot -/

namespace Sched

/-- One PCB of `create_pcb_list`. -/
def linkPcb (s : Sched) (i : ℕ) : Sched :=
  match s.freePcbHead with
  | none => { s with freePcbHead := some i, next := Function.update s.next i none }
  | some head => { s with freePcbHead := some i, next := Function.update s.next i (some head) }

/-- `create_pcb_list`. -/
def createPcbList (s : Sched) : Sched := (List.range numPcb).reverse.foldl linkPcb s

/-- `create_init_process` and `create_idle_process`. -/
def createKernelProcess (s : Sched) (cont : Cont) : Option Sched := do
  let (pcb, s) ← s.fetchFreePcb
  addToTaskList { s with tasks := s.tasks.modify pcb fun x => { x with cont := cont } } pcb

/-- The state before `start`: all fields of `pcb_arr` are 0, and so is every pointer. -/
def blank : Sched where
  tasks := fun _ => ⟨0, 0, none, 0, .running, .user, 0, 0⟩
  next := fun _ => none
  overallTaskList := none
  freePcbHead := none
  runningTask := 0
  timerCount := 0
  terminalLineCount := 0
  born := 0
  exited := []
  reported := []

/-- The part of `start` that creates the first processes, up to the start of the shell. -/
def start : Option Sched := do
  let s ← (createPcbList blank).createKernelProcess .initProcess
  let s ← s.createKernelProcess .idleProcess
  let (pcb, s) ← s.fetchFreePcb
  some { s with
    runningTask := pcb
    tasks := s.tasks.modify pcb fun x => { x with taskState := .running, cont := .user } }

end Sched

/-! ## The system -/

/-- The actions. They are those of the running task, but for the two interrupts. -/
inductive SchedOp
  /-- `fork_process`. -/
  | fork
  /-- `sys_exit` of the running task. -/
  | exit
  /-- `sys_exit` of a task given by its pid. -/
  | kill (pid : ℕ)
  /-- `wait_for_child`. -/
  | wait
  /-- Sleep for some seconds. -/
  | sleep (sec : BitVec 32)
  /-- A read from the terminal. -/
  | read
  /-- `schedule`, by a user task or by the idle task. -/
  | yield
  /-- A kernel loop goes on after its call of `schedule`, or starts. -/
  | resume
  /-- The timer. -/
  | tick
  /-- The return key. -/
  | enter

/-- One action. -/
def Sched.step (s : Sched) (op : SchedOp) : Option Sched :=
  match op, s.current.cont with
  | .fork, .user => s.forkProcess
  | .exit, .user => s.sysExit s.runningTask
  | .kill pid, .user => if pid < numPcb then s.sysExit pid else none
  | .wait, .user => s.waitForChild
  | .sleep sec, .user =>
    (s.modifyCurrent fun x => { x with sleepSec := sec }).block .sleep .user
  | .read, .user => s.scheduleTerminalTask
  | .yield, .user => s.schedule
  | .yield, .idleProcess => s.schedule
  | .tick, .user => s.timerInt
  | .tick, .idleProcess => s.timerInt
  | .enter, .user => s.terminalHandler
  | .enter, .idleProcess => s.terminalHandler
  | .resume, .waitForChild => s.waitForChildWoken
  | .resume, .readBuffer => s.scheduleTerminalTask
  | .resume, .initProcess => s.waitForChild
  | _, _ => none

end Nascent
