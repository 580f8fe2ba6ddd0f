import Nascent.Sched.Lists
import Nascent.Sched.Wakeup

/-!
# Orphans

What `sys_exit` does to the children of the task that exits. They should all go to the init task, by their
`ppid` and by their `parent_task`. The loop passes over the children that are ready, as it takes them for
free PCBs, and one of them may have become so by this very exit: the parent that has just been woken up
(`Tasks.Skipped`). And no child gets another `parent_task` (`exit_reparents_iff`).
-/

namespace Nascent

open Linked (Chain)
open Runs (run Along visits_of_run)

namespace Tasks

variable {t : Tasks} {target i : ℕ}

/-- The loop of `sys_exit` finds the task ready. -/
def Skipped (t : Tasks) (target i : ℕ) : Prop :=
  i ≠ target ∧ ((t i).taskState = .ready ∨
    ((t target).parentTask = some i ∧ (t i).taskState = .suspended))

instance (t : Tasks) (target i : ℕ) : Decidable (t.Skipped target i) := instDecidableAnd

theorem exit_ready : (t.exit target i).taskState = .ready ↔ t.Skipped target i := by
  rw [exit_taskState, Skipped]
  split_ifs with htarget hwoken
  · exact iff_of_false (by decide) fun h => h.1 htarget
  · exact iff_of_true rfl ⟨htarget, .inr hwoken⟩
  · constructor
    · exact fun h => ⟨htarget, .inl h⟩
    · rintro ⟨-, h | h⟩
      · exact h
      · exact absurd h hwoken

end Tasks

namespace Sched

variable {s s' : Sched} {target task i : ℕ}

/-! ## The fields that a switch leaves alone -/

/-- `fetch_ready_task` sets the state of one task at most. -/
theorem fetchReadyTask_tasks (h : s.fetchReadyTask = some (task, s')) :
    s'.tasks = s.tasks ∨ s'.tasks = s.tasks.setState task .running := by
  obtain ⟨found, -, h⟩ := Option.bind_eq_some_iff.mp h
  match found with
  | none =>
    obtain rfl : s = s' := congrArg Prod.snd (Option.some.inj h)
    exact .inl rfl
  | some (none, x) =>
    obtain ⟨rfl, rfl⟩ := Prod.mk.inj (Option.some.inj h)
    exact .inr rfl
  | some (some prev, x) =>
    obtain ⟨rfl, rfl⟩ := Prod.mk.inj (Option.some.inj h)
    exact .inr rfl

/-- `schedule` leaves the records of the parents alone. -/
theorem schedule_parents (h : s.schedule = some s') : (s'.tasks i).ppid = (s.tasks i).ppid ∧
    (s'.tasks i).parentTask = (s.tasks i).parentTask := by
  obtain ⟨⟨task, s₁⟩, hfetch, hadd⟩ := Option.bind_eq_some_iff.mp h
  have hdemote : ∀ t : Tasks, (Queues.demote t s.runningTask i).ppid = (t i).ppid ∧
      (Queues.demote t s.runningTask i).parentTask = (t i).parentTask := by
    intro t
    rw [Queues.demote]
    split_ifs
    · exact ⟨Tasks.setState_ppid .., Tasks.setState_parentTask ..⟩
    · exact ⟨rfl, rfl⟩
  have hfirst : (s₁.tasks i).ppid = (s.tasks i).ppid ∧
      (s₁.tasks i).parentTask = (s.tasks i).parentTask := by
    rcases fetchReadyTask_tasks hfetch with heq | heq
    · rw [heq]
      exact ⟨rfl, rfl⟩
    · rw [heq]
      exact ⟨Tasks.setState_ppid .., Tasks.setState_parentTask ..⟩
  rw [addToTaskList_tasks hadd]
  exact ⟨(hdemote _).1.trans hfirst.1, (hdemote _).2.trans hfirst.2⟩

/-! ## The children of a task -/

/-- The PCB is not on the list of free PCBs. -/
def Allocated (s : Sched) (i : ℕ) : Prop :=
  i < numPcb ∧ ∀ free, Chain s.next s.freePcbHead free → i ∉ free

/-- The task is a child of the target. -/
def Child (s : Sched) (target i : ℕ) : Prop :=
  s.Allocated i ∧ (s.tasks i).ppid = (s.tasks target).pid

/-- The children of the target are children of the init task in `s'`, and the other tasks have the parent
that they had. -/
def Reparented (s : Sched) (target : ℕ) (s' : Sched) : Prop :=
  ∀ i, s.Allocated i →
    if (s.tasks i).ppid = (s.tasks target).pid then
      (s'.tasks i).ppid = (s.tasks initTask).pid ∧ (s'.tasks i).parentTask = some initTask
    else
      (s'.tasks i).ppid = (s.tasks i).ppid ∧ (s'.tasks i).parentTask = (s.tasks i).parentTask

/-- Where the lists are in order, the PCBs that are not free are those that hold a process. -/
theorem InOrder.allocated_iff (h : s.InOrder) (hi : i < numPcb) :
    s.Allocated i ↔ (s.tasks i).uid ≠ 0 := by
  obtain ⟨a, hrep, ho⟩ := h
  rw [hrep.tasks, ne_eq, ← ho.free_iff i hi]
  constructor
  · exact fun hall => hall.2 a.free hrep.free
  · intro hnot
    refine ⟨hi, fun free hfree => ?_⟩
    rw [hfree.unique hrep.free]
    exact hnot

/-- Where the lists are in order, `sys_exit` gets through to its switch. -/
theorem InOrder.sysExit_returns (h : s.InOrder) (hu : s.current.cont = .user)
    (huid : (s.tasks target).uid ≠ 0) : ∃ s', s.sysExit target = some s' := by
  obtain ⟨a, hrep, ho⟩ := h
  rw [hrep.current] at hu
  rw [hrep.tasks] at huid
  obtain ⟨s', hs', -⟩ := hrep.sysExit (ho.exit hu huid _)
  exact ⟨s', hs'⟩

/-- The parents after `sys_exit`. -/
theorem sysExit_parents (h : s.sysExit target = some s') : (s'.tasks i).ppid =
    (if i < numPcb ∧ (s.tasks i).ppid = (s.tasks target).pid ∧ ¬ s.tasks.Skipped target i then
      (s.tasks initTask).pid else (s.tasks i).ppid) ∧
    (s'.tasks i).parentTask = (s.tasks i).parentTask := by
  obtain ⟨hppid, hparent⟩ := schedule_parents (i := i) h
  constructor
  · have hexit := Tasks.exit_ppid s.tasks target i
    simp only [ne_eq, Tasks.exit_ready] at hexit
    exact hppid.trans hexit
  · rw [hparent]
    exact Tasks.exit_parentTask ..

/-- `sys_exit` leaves the parents of the tasks alone that are no children. -/
theorem sysExit_others (h : s.sysExit target = some s')
    (hne : (s.tasks i).ppid ≠ (s.tasks target).pid) :
    (s'.tasks i).ppid = (s.tasks i).ppid ∧ (s'.tasks i).parentTask = (s.tasks i).parentTask := by
  obtain ⟨hppid, hparent⟩ := sysExit_parents (i := i) h
  rw [if_neg fun hc => hne hc.2.1] at hppid
  exact ⟨hppid, hparent⟩

/-- A child goes to the init task if and only if the loop does not pass over it. -/
theorem sysExit_child (h : s.sysExit target = some s') (hc : s.Child target i) :
    (s'.tasks i).ppid = (s.tasks initTask).pid ↔
      ((s.tasks target).pid = (s.tasks initTask).pid ∨ ¬ s.tasks.Skipped target i) := by
  obtain ⟨⟨hlt, -⟩, hpid⟩ := hc
  rw [(sysExit_parents h).1]
  split_ifs with hloop
  · exact iff_of_true rfl (.inr hloop.2.2)
  · rw [hpid]
    constructor
    · exact .inl
    · rintro (heq | hskip)
      · exact heq
      · exact absurd ⟨hlt, hpid, hskip⟩ hloop

/-- All children of a task go to the init task when it exits, and no other task gets another parent, if and
only if each child has the init task as its `parent_task` already, and the loop of `sys_exit` does not pass
over it. -/
theorem exit_reparents_iff (h : s.sysExit target = some s') :
    s.Reparented target s' ↔ ∀ i, s.Child target i → (s.tasks i).parentTask = some initTask ∧
      ((s.tasks target).pid = (s.tasks initTask).pid ∨ ¬ s.tasks.Skipped target i) := by
  constructor
  · intro hre i hc
    have hi := hre i hc.1
    rw [if_pos hc.2] at hi
    rw [(sysExit_parents h).2] at hi
    exact ⟨hi.2, (sysExit_child h hc).mp hi.1⟩
  · intro hall i ha
    split_ifs with hpid
    · obtain ⟨hparent, hloop⟩ := hall i ⟨ha, hpid⟩
      rw [(sysExit_parents h).2]
      exact ⟨(sysExit_child h ⟨ha, hpid⟩).mpr hloop, hparent⟩
    · exact sysExit_others h hpid

/-- Task 2 runs. Its child 3 is suspended, and has the init task as its `parent_task`. -/
def waitingChild : Sched where
  tasks := fun i => ⟨i, if i = 3 then 2 else if i = 2 then 0 else -1, if i = 3 then some initTask else none, 0,
    if i = 2 then .running else if i = 3 then .suspended else .ready, .user, i, 0⟩
  runningTask := 2
  timerCount := 0
  terminalLineCount := 0
  born := 5
  exited := []
  reported := []
  next := fun i => if i = 0 then some 3 else none
  overallTaskList := some 0
  freePcbHead := none

/-- When task 2 exits, its child goes to the init task. -/
theorem exit_reparents_waiting : ∃ s', waitingChild.sysExit 2 = some s' ∧ waitingChild.Child 2 3 ∧
    waitingChild.Reparented 2 s' := by
  have hexit : (waitingChild.sysExit 2).isSome := by decide +kernel
  obtain ⟨s', hs'⟩ := Option.isSome_iff_exists.mp hexit
  have hchild : waitingChild.Child 2 3 := by
    refine ⟨⟨by decide, fun free hfree => ?_⟩, rfl⟩
    obtain rfl : free = [] := hfree.unique rfl
    exact List.not_mem_nil
  refine ⟨s', hs', hchild, (exit_reparents_iff hs').mpr fun i hc => ?_⟩
  have hpid : (if i = 3 then 2 else if i = 2 then 0 else -1 : ℤ) = 2 := hc.2
  obtain rfl : i = 3 := by
    by_contra h3
    rw [if_neg h3] at hpid
    split at hpid
    · exact absurd hpid (by decide)
    · exact absurd hpid (by decide)
  exact ⟨rfl, .inr (by decide)⟩

/-- The shell creates a child and exits. The child is ready, and still has the shell as its parent. -/
theorem exit_leaves_orphan : ∃ s₀ s s', start = some s₀ ∧ run step s₀ [.fork] = some s ∧
    s.Allocated 2 ∧ (s.tasks 2).taskState ≠ .zombie ∧ s.sysExit 2 = some s' ∧
    ¬ s.Reparented 2 s' := by
  obtain ⟨s₀, hs₀, -⟩ := rep_start
  have hcond : (start.map fun s => (decide (Along step (fun s op => s.KillsLive op) s [.fork]),
      decide (Along step (fun s op => s.ReapsOffList op) s [.fork]))) = some (true, true) := by
    decide +kernel
  have hrun : ((start.bind (run step · [.fork])).map fun s =>
      ((decide ((s.tasks 2).taskState = .zombie), (s.tasks 2).uid, (s.tasks 3).uid),
        ((s.tasks 0).pid, (s.tasks 2).pid, (s.tasks 3).ppid),
        (s.sysExit 2).map fun s' => (s'.tasks 3).ppid)) =
      some ((false, 3, 4), (0, 2, 2), some 2) := by decide +kernel
  rw [hs₀] at hcond hrun
  simp only [Option.map_some, Option.some.injEq, Prod.mk.injEq, decide_eq_true_eq] at hcond
  rw [Option.bind_some] at hrun
  obtain ⟨s, hs, hval⟩ := Option.map_eq_some_iff.mp hrun
  simp only [Prod.mk.injEq, decide_eq_false_iff_not] at hval
  obtain ⟨⟨hlive, huid, hchild⟩, ⟨hinit, hpid, hppid⟩, hexit⟩ := hval
  obtain ⟨s', hs', hafter⟩ := Option.map_eq_some_iff.mp hexit
  have hord : s.InOrder := (visits_of_run hs).invariant (hcond.1.and hcond.2)
    (fun s op s' h hc hstep => h.step hc.1 hc.2 hstep) (inOrder_start hs₀)
  refine ⟨s₀, s, s', hs₀, hs, (hord.allocated_iff (by decide)).mpr (by rw [huid]; decide), hlive, hs',
    fun hre => ?_⟩
  have h3 := hre 3 ((hord.allocated_iff (by decide)).mpr (by rw [hchild]; decide))
  rw [if_pos (hppid.trans hpid.symm), hafter] at h3
  have htwo : (2 : ℤ) = 0 := h3.1.trans hinit
  exact absurd htwo (by decide)

end Sched

end Nascent
