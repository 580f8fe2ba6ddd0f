import Nascent.Sched.Boot

/-!
# No task is lost

The two lists of tasks over whole runs. As long as no PCB is reaped while it is on
`overall_task_list`, both lists are in order in every state that is reached from `start`: a living
task is on `overall_task_list` or is running, and no PCB is on both lists
(`lists_intact`).

A killed task stays on the list as a zombie, and nothing takes it off when its parent reaps it.
`clear_pcb` then resets its link, which cuts off the rest of the list, and it becomes ready, so the
next call of `schedule` may run a free PCB (`killed_child_cuts_list`).
-/

namespace Nascent

open Linked (Chain)
open Runs

namespace Sched

/-- The tasks of `overall_task_list`, as the walk of `timer_int` finds them. -/
def taskList (s : Sched) : Option (List ℕ) :=
  Linked.nodesFrom s.next (numPcb + 1) s.overallTaskList

/-- The PCBs that the action reaps are not on `overall_task_list`. -/
def ReapsOffList (s : Sched) (op : SchedOp) : Prop :=
  ∀ l ∈ s.taskList, ∀ i ∈ s.reaped op, i ∉ l

instance (s : Sched) (op : SchedOp) : Decidable (s.ReapsOffList op) :=
  match h : s.taskList with
  | none => isTrue fun l hl => by
      rw [h] at hl
      cases hl
  | some l => decidable_of_iff (∀ i ∈ s.reaped op, i ∉ l)
      ⟨fun hd l' hl' => by
        rw [h] at hl'
        exact Option.some.inj hl' ▸ hd, fun hd => hd l h⟩

/-- No task is lost, duplicated, or free while it lives. -/
def Intact (s : Sched) : Prop :=
  ∃ l free, Chain s.next s.overallTaskList l ∧ l.Nodup ∧ Chain s.next s.freePcbHead free ∧
    (∀ i ∈ l, i ∉ free) ∧
    ∀ i < numPcb, (s.tasks i).uid ≠ 0 → (s.tasks i).taskState ≠ .zombie → i ≠ s.runningTask →
      l.count i = 1

/-- The links are those of lists that are in order. -/
def InOrder (s : Sched) : Prop := ∃ a, Rep s a ∧ a.Settled

variable {s s' : Sched} {a : Queues} {op : SchedOp}

/-- The walk over the list finds the list. -/
theorem taskList_of_rep (h : Rep s a) (ho : a.Orderly) : s.taskList = some a.list :=
  Linked.nodesFrom_of_chain h.list (Nat.lt_succ_of_le (h.list_length ho))

/-- What an action reaps only depends on the tasks. -/
theorem reaped_of_rep (h : Rep s a) : s.reaped op = a.reaped op := congrArg (Core.reaped · op) h.core

/-- Lists in order lose no task. -/
theorem InOrder.intact (h : s.InOrder) : s.Intact := by
  obtain ⟨a, hrep, ho⟩ := h
  refine ⟨a.list, a.free, hrep.list, ho.list_nodup, hrep.free, ho.disjoint, fun i hi hu hz hr => ?_⟩
  rw [hrep.tasks] at hu hz
  rw [hrep.runningTask] at hr
  exact List.count_eq_one_of_mem ho.list_nodup (ho.queued i hi hu hz hr)

/-- An action that reaps no task of the list does to the lists what it does to the links, and keeps them in
order. -/
theorem InOrder.exists_queues (h : s.InOrder) (hk : s.KillsLive op) (hl : s.ReapsOffList op)
    (hs : s.step op = some s') : ∃ a a' : Queues, s.toCore = a.toCore ∧ a.Settled ∧ a.step op = some a' ∧
      s'.toCore = a'.toCore ∧ s'.InOrder := by
  obtain ⟨a, hrep, ho⟩ := h
  have hk' : a.KillsLive op := hrep.core ▸ hk
  have hl' : ∀ i ∈ a.reaped op, i ∉ a.list := by
    rw [← reaped_of_rep hrep]
    exact hl a.list (taskList_of_rep hrep ho.toOrderly)
  obtain ⟨a', hstep, hrep'⟩ := hrep.exists_queues ho hk' hl' hs
  exact ⟨a, a', hrep.core, ho, hstep, hrep'.core, a', hrep', ho.step hk' hl' hstep⟩

/-- An action that reaps no task of the list keeps the lists in order. -/
theorem InOrder.step (h : s.InOrder) (hk : s.KillsLive op) (hl : s.ReapsOffList op)
    (hs : s.step op = some s') : s'.InOrder := by
  obtain ⟨-, -, -, -, -, -, h'⟩ := h.exists_queues hk hl hs
  exact h'

/-- The lists are in order at the start. -/
theorem inOrder_start (h : start = some s) : s.InOrder := by
  obtain ⟨s₀, hs₀, hrep⟩ := rep_start
  obtain rfl : s = s₀ := by
    rw [h] at hs₀
    exact Option.some.inj hs₀
  exact ⟨Queues.start, hrep, Queues.settled_start⟩

/-- In every run from the start that kills only living tasks and reaps no task that is on
`overall_task_list`, no task is ever lost. -/
theorem lists_intact (s₀ : Sched) (h₀ : start = some s₀) (ops : List SchedOp)
    (hkill : Along step (fun s op => s.KillsLive op) s₀ ops)
    (hreap : Along step (fun s op => s.ReapsOffList op) s₀ ops)
    (t : Sched) (ht : Visits step s₀ ops t) : t.Intact := by
  refine InOrder.intact (ht.invariant (hkill.and hreap) (fun s op s' hs hc hstep => ?_)
    (inOrder_start h₀))
  exact hs.step hc.1 hc.2 hstep

/-- A run in which the shell waits for its child and reaps it. -/
theorem lists_intact_run : ∃ s₀, start = some s₀ ∧
    ∀ t, Visits step s₀ [.fork, .wait, .resume, .yield, .exit, .resume] t → t.Intact := by
  obtain ⟨s₀, hs₀, -⟩ := rep_start
  have hfirst : (start.map fun s =>
      (decide (Along step (fun s op => s.KillsLive op) s [.fork, .wait, .resume, .yield, .exit]),
        decide (Along step (fun s op => s.ReapsOffList op) s
          [.fork, .wait, .resume, .yield, .exit]))) = some (true, true) := by decide +kernel
  have hlast : ((start.bind (run step · [.fork, .wait, .resume, .yield, .exit])).map fun t =>
      (t.reaped .resume, decide (t.ReapsOffList .resume))) = some ([3], true) := by decide +kernel
  rw [hs₀] at hfirst hlast
  simp only [Option.map_some, Option.some.injEq, Prod.mk.injEq, decide_eq_true_eq] at hfirst
  refine ⟨s₀, hs₀, lists_intact s₀ hs₀ _ ?_ ?_⟩
  · exact hfirst.1.concat (a := SchedOp.resume) fun t _ => trivial
  · refine hfirst.2.concat (a := SchedOp.resume) fun t ht => ?_
    rw [Option.bind_some, Option.mem_def.mp ht] at hlast
    simp only [Option.map_some, Option.some.injEq, Prod.mk.injEq, decide_eq_true_eq] at hlast
    exact hlast.2

/-! ## A reaped task on the list -/

/-- What `append_in_free_list` does to the links of tasks that are not free. -/
theorem appendInFreeList_links {free : List ℕ} {task : ℕ} (hfree : Chain s.next s.freePcbHead free)
    (hlen : free.length ≤ numPcb) (htask : task ∉ free) : ∃ next head,
      s.appendInFreeList task = some { s with next := next, freePcbHead := head } ∧
      next task = none ∧ ∀ i, i ≠ task → i ∉ free → next i = s.next i := by
  rw [appendInFreeList]
  cases hhead : s.freePcbHead with
  | none =>
    exact ⟨_, _, rfl, Function.update_self .., fun i hi _ => Function.update_of_ne hi ..⟩
  | some head =>
    rw [hhead] at hfree
    obtain ⟨next, heq, -, -, hnext⟩ := linkLast_spec hfree hlen fun h => absurd h htask
    refine ⟨next, some head, heq.trans (by rw [hhead]), ?_, hnext⟩
    -- The link is the last one that is written.
    obtain ⟨temp, -, hs⟩ := Option.map_eq_some_iff.mp heq
    have hlinks : Function.update (Function.update s.next temp (some task)) task none = next :=
      congrArg Sched.next hs
    rw [← hlinks]
    exact Function.update_self ..

/-- `fetch_ready_task` takes the first task of the list where it is ready. -/
theorem fetchReadyTask_of_front {x : ℕ} (hfront : s.overallTaskList = some x)
    (hready : (s.tasks x).taskState = .ready) : s.fetchReadyTask = some (x, { s with
      tasks := s.tasks.setState x .running, overallTaskList := s.next x }) := by
  have hfirst : Linked.firstFrom s.next (fun i => decide ((s.tasks i).taskState = .ready))
      (numPcb + 1) none (some x) = some (some (none, x)) := by
    rw [Linked.firstFrom, if_pos (decide_eq_true hready)]
  rw [fetchReadyTask, hfront, hfirst]
  rfl

/-- A zombie at the front of the list cuts off the rest of the list when it is reaped, and it runs
next. -/
theorem wait_cuts_list {child : ℕ} (h : s.InOrder) (hu : s.current.cont = .user)
    (hz : s.tasks.zombieChild s.current.pid = some child) (hfront : s.overallTaskList = some child)
    (hnext : s.next s.runningTask = none) : ∃ t, s.step .wait = some t ∧ t.runningTask = child ∧
      t.overallTaskList = some s.runningTask ∧ t.next s.runningTask = none ∧
      ∀ i, i ≠ child → i ≠ s.runningTask → t.tasks i = s.tasks i := by
  obtain ⟨a, hrep, ho⟩ := h
  obtain ⟨hninit, hnidle⟩ := ho.not_kernel (hrep.current ▸ hu)
  have hrun := hrep.runningTask
  obtain ⟨hlt, hzombie, -⟩ := Tasks.zombieChild_spec hz
  have hza : (a.tasks child).taskState = .zombie := hrep.tasks ▸ hzombie
  have hne : s.runningTask ≠ child := fun hc => ho.ne_running hnidle hza (hc ▸ hrun)
  have hcf : child ∉ a.free := fun hm =>
    ho.uid_of_zombie hlt hza ((ho.free_iff child hlt).mp hm)
  have hrf : s.runningTask ∉ a.free := hrun ▸ ho.running
  -- The zombie is reaped.
  obtain ⟨next, head, happ, hchild, hother⟩ := appendInFreeList_links (s := s.clearPcb child)
    (hrep.free.update_of_notMem hcf none) (hrep.free_length ho.toOrderly) hcf
  have hr : next s.runningTask = none :=
    (hother _ hne hrf).trans ((Function.update_of_ne hne ..).trans hnext)
  -- It is ready and the first of the list, so `schedule` takes it.
  set t₁ : Tasks := (s.tasks.clear child).modify s.runningTask fun x => { x with cont := .user }
    with ht₁
  have hready : (t₁ child).taskState = .ready := by
    rw [ht₁, Tasks.modify_of_ne _ _ _ hne.symm, Tasks.clear_self]
  have hlive : (t₁.setState child .running s.runningTask).taskState ≠ .zombie := by
    rw [Tasks.setState_of_ne hne, ht₁, Tasks.modify_self, Tasks.clear_of_ne hne, hrep.tasks, hrun]
    exact ho.alive hnidle
  refine ⟨⟨{ s.toCore with
      tasks := Queues.demote (t₁.setState child .running) s.runningTask
      runningTask := child
      reported := (s.tasks child).uid :: s.reported }, next, some s.runningTask, head⟩,
    ?_, rfl, rfl, hr, fun i hi hir => ?_⟩
  · set s₁ : Sched := ⟨{ s.toCore with
      tasks := s.tasks.clear child, reported := (s.tasks child).uid :: s.reported },
      next, s.overallTaskList, head⟩
    have hreap : s.reapChild = some (some child, s₁) := by
      unfold reapChild
      rw [hz]
      simp only [reap, happ, Option.bind_eq_bind, Option.bind_some]
      rfl
    have hwait : s.step .wait = s.waitForChild := by
      unfold step
      rw [hu]
    have hni : s.runningTask ≠ initTask := hrun ▸ hninit
    rw [hwait]
    unfold waitForChild
    rw [hreap]
    have hfetch := fetchReadyTask_of_front
      (s := s₁.modifyCurrent fun x => { x with cont := .user }) hfront hready
    simp only [Option.bind_eq_bind, Option.bind_some, afterWait]
    rw [if_neg (show s₁.runningTask ≠ initTask from hni), schedule, hfetch]
    exact addToTaskList_of_none hchild hlive
  · show Queues.demote (t₁.setState child .running) s.runningTask i = s.tasks i
    rw [Queues.demote_of_ne hir, Tasks.setState_of_ne hi, ht₁, Tasks.modify_of_ne _ _ _ hir,
      Tasks.clear_of_ne hi]

/-- The shell kills its child, which is on the list, and waits for it: the init task and the idle
task are lost, and a free PCB runs. -/
theorem killed_child_cuts_list :
    ¬ ∀ (s₀ : Sched) (ops : List SchedOp), start = some s₀ →
      Along step (fun s op => s.KillsLive op) s₀ ops → ∀ t, Visits step s₀ ops t → t.Intact := by
  intro hall
  obtain ⟨s₀, hs₀, -⟩ := rep_start
  -- The run up to the call of `wait_for_child`.
  have hfirst : (start.map fun s =>
      (decide (Along step (fun s op => s.KillsLive op) s [.fork, .kill 3, .resume, .yield]),
        decide (Along step (fun s op => s.ReapsOffList op) s
          [.fork, .kill 3, .resume, .yield]))) = some (true, true) := by decide +kernel
  have hstate : ((start.bind (run step · [.fork, .kill 3, .resume, .yield])).map fun s =>
      ((decide (s.current.cont = .user), s.tasks.zombieChild s.current.pid, s.overallTaskList),
        (s.next s.runningTask, s.runningTask),
        ((s.tasks 0).uid, decide ((s.tasks 0).taskState = .zombie)))) =
      some ((true, some 3, some 3), (none, 2), (1, false)) := by decide +kernel
  rw [hs₀] at hfirst hstate
  simp only [Option.map_some, Option.some.injEq, Prod.mk.injEq, decide_eq_true_eq] at hfirst
  rw [Option.bind_some] at hstate
  obtain ⟨s, hs, hval⟩ := Option.map_eq_some_iff.mp hstate
  simp only [Prod.mk.injEq, decide_eq_true_eq, decide_eq_false_iff_not] at hval
  obtain ⟨⟨hu, hz, hfront⟩, ⟨hnext, hrun⟩, huid, hlive⟩ := hval
  have hord : s.InOrder := (visits_of_run hs).invariant (hfirst.1.and hfirst.2)
    (fun s op s' h hc hstep => h.step hc.1 hc.2 hstep) (inOrder_start hs₀)
  obtain ⟨t, ht, htrun, hfront', hnext', hsame⟩ := wait_cuts_list hord hu hz hfront hnext
  have hrunt : run step s₀ ([.fork, .kill 3, .resume, .yield] ++ [.wait]) = some t := by
    rw [run_append, hs]
    simp [ht]
  obtain ⟨l, free, hl, -, -, -, hcount⟩ := hall s₀ _ hs₀
    (hfirst.1.concat (a := SchedOp.wait) fun _ _ => trivial) t (visits_of_run hrunt)
  -- Only the shell is on the list.
  rw [hrun] at hfront' hnext' hsame
  obtain rfl : l = [2] := hl.unique ⟨hfront', hnext'⟩
  have hinit := hcount 0 (by decide) (by rw [hsame 0 (by decide) (by decide), huid]; decide)
    (by rw [hsame 0 (by decide) (by decide)]; exact hlive) (by rw [htrun]; decide)
  exact absurd hinit (by decide)

end Sched

end Nascent
