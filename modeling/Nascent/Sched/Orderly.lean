import Mathlib.Data.List.Nodup
import Nascent.Sched.Fields
import Nascent.Sched.Queue

/-!
# The order of the lists

The invariant of the lists. A task is on `overall_task_list`, or it is free, or it is running, or it
is a zombie. What is special is the running task: it may be on the list too. This happens to the init
task and the idle task only. The idle task runs when no task is ready, without being taken off the
list, and where it was the only task left, the init task drags it along when it is put back
(`linked`). Either way it is at the end of the list, so `add_to_task_list` links it to itself and
then resets the link. Only a zombie may run from the middle of the list, since it is never put back:
the idle task after it was killed.

`Orderly` holds at each call of `schedule`, and `Settled` adds what holds between two actions.
-/

namespace Nascent

namespace Queues

/-- The lists are in order. -/
structure Orderly (a : Queues) : Prop where
  /-- The list has no task twice. -/
  list_nodup : a.list.Nodup
  /-- No PCB is free twice. -/
  free_nodup : a.free.Nodup
  /-- No task is on both lists. -/
  disjoint : ∀ i ∈ a.list, i ∉ a.free
  /-- The tasks of the list are in the process table. -/
  list_lt : ∀ i ∈ a.list, i < numPcb
  /-- The free PCBs are in the process table. -/
  free_lt : ∀ i ∈ a.free, i < numPcb
  /-- A PCB is free if and only if it holds no process. -/
  free_iff : ∀ i < numPcb, i ∈ a.free ↔ (a.tasks i).uid = 0
  /-- The running task is in the process table. -/
  running_lt : a.runningTask < numPcb
  /-- The running task is a process. -/
  running_uid : a.current.uid ≠ 0
  /-- The other processes are on the list while they live. -/
  queued : ∀ i < numPcb, (a.tasks i).uid ≠ 0 → (a.tasks i).taskState ≠ .zombie →
    i ≠ a.runningTask → i ∈ a.list
  /-- A running task on the list is one of the kernel's. -/
  kernel : a.runningTask ∈ a.list → a.runningTask = initTask ∨ a.runningTask = idleTask
  /-- A running task on the list is the last one there or a zombie. -/
  last : a.runningTask ∈ a.list →
    a.current.taskState = .zombie ∨ a.list.getLast? = some a.runningTask
  /-- The running task is only linked to a task. -/
  linked : a.linked = true → a.list ≠ []
  /-- The init task is on the list, or it is running and alive. -/
  init : initTask ∈ a.list ∨ (a.runningTask = initTask ∧ a.current.taskState ≠ .zombie)
  /-- The idle task is on the list, or it is running and alive. -/
  idle : idleTask ∈ a.list ∨ (a.runningTask = idleTask ∧ a.current.taskState ≠ .zombie)
  /-- No other process has the state of a running task. -/
  runs : ∀ i < numPcb, (a.tasks i).uid ≠ 0 → (a.tasks i).taskState = .running → i = a.runningTask
  /-- The states of free PCBs. -/
  free_state : ∀ i ∈ a.free, (a.tasks i).taskState = .ready ∨ (a.tasks i).taskState = .running
  /-- The states of the idle task. -/
  idle_state : (a.tasks idleTask).taskState = .ready ∨ (a.tasks idleTask).taskState = .running ∨
    (a.tasks idleTask).taskState = .zombie
  /-- Where the init task goes on. -/
  init_cont : (a.tasks initTask).cont = .initProcess ∨ (a.tasks initTask).cont = .waitForChild
  /-- Where the idle task goes on. -/
  idle_cont : (a.tasks idleTask).cont = .idleProcess

/-- The lists are in order between two actions. -/
structure Settled (a : Queues) : Prop extends a.Orderly where
  /-- A running zombie is the idle task. -/
  zombie : a.current.taskState = .zombie → a.runningTask = idleTask

variable {a : Queues} {i x task : ℕ} {behind : List ℕ}

namespace Orderly

variable (h : a.Orderly)

include h

/-- The running task is not free. -/
theorem running : a.runningTask ∉ a.free := fun hm =>
  h.running_uid ((h.free_iff _ h.running_lt).mp hm)

/-- A task of the list is a process. -/
theorem uid_of_mem (hi : i ∈ a.list) : (a.tasks i).uid ≠ 0 := fun h0 =>
  h.disjoint i hi ((h.free_iff i (h.list_lt i hi)).mpr h0)

/-- A zombie is a process. -/
theorem uid_of_zombie (hi : i < numPcb) (hz : (a.tasks i).taskState = .zombie) :
    (a.tasks i).uid ≠ 0 := fun h0 => by
  rcases h.free_state i ((h.free_iff i hi).mpr h0) with hs | hs
  · rw [hz] at hs
    cases hs
  · rw [hz] at hs
    cases hs

/-- The idle task is always in its loop. -/
theorem ne_idle (hc : a.current.cont ≠ .idleProcess) : a.runningTask ≠ idleTask := fun hr => by
  rw [Core.current, hr] at hc
  exact hc h.idle_cont

/-- The init task is always in its loop. -/
theorem ne_init (hc : a.current.cont ≠ .initProcess) (hw : a.current.cont ≠ .waitForChild) :
    a.runningTask ≠ initTask := fun hr => by
  rw [Core.current, hr] at hc hw
  exact h.init_cont.elim hc hw

/-- A task in user mode is not one of the kernel's. -/
theorem not_kernel (hu : a.current.cont = .user) :
    a.runningTask ≠ initTask ∧ a.runningTask ≠ idleTask := by
  refine ⟨h.ne_init ?_ ?_, h.ne_idle ?_⟩ <;> rw [hu] <;> exact Cont.noConfusion

/-- A change of the states of tasks, and of other fields that do not matter here. -/
theorem withTasks {b : Queues} {t : Tasks} (ht : b.tasks = t) (hlist : b.list = a.list)
    (hfree : b.free = a.free) (hlinked : b.linked = a.linked)
    (hrun : b.runningTask = a.runningTask) (huid : ∀ i, (t i).uid = (a.tasks i).uid)
    (hlive : ∀ i < numPcb, (a.tasks i).uid ≠ 0 → (t i).taskState ≠ .zombie →
      (a.tasks i).taskState ≠ .zombie)
    (hruns : ∀ i < numPcb, (t i).taskState = .running → (a.tasks i).taskState = .running)
    (hlast : a.runningTask ∈ a.list → a.current.taskState = .zombie →
      (t a.runningTask).taskState = .zombie)
    (hinit : initTask ∈ a.list ∨ (t a.runningTask).taskState ≠ .zombie)
    (hidle : idleTask ∈ a.list ∨ (t a.runningTask).taskState ≠ .zombie)
    (hstate : ∀ i ∈ a.free, (t i).taskState = (a.tasks i).taskState)
    (hidles : (t idleTask).taskState = .ready ∨ (t idleTask).taskState = .running ∨
      (t idleTask).taskState = .zombie)
    (hicont : (t initTask).cont = .initProcess ∨ (t initTask).cont = .waitForChild)
    (hdcont : (t idleTask).cont = .idleProcess) : b.Orderly where
  list_nodup := hlist ▸ h.list_nodup
  free_nodup := hfree ▸ h.free_nodup
  disjoint := by
    rw [hlist, hfree]
    exact h.disjoint
  list_lt := hlist ▸ h.list_lt
  free_lt := hfree ▸ h.free_lt
  free_iff i hi := by
    rw [hfree, ht, huid]
    exact h.free_iff i hi
  running_lt := hrun ▸ h.running_lt
  running_uid := by
    rw [Core.current, ht, hrun, huid]
    exact h.running_uid
  queued i hi hu hz hne := by
    rw [ht, huid] at hu
    rw [ht] at hz
    rw [hlist]
    exact h.queued i hi hu (hlive i hi hu hz) (hrun ▸ hne)
  kernel := by
    rw [hrun, hlist]
    exact h.kernel
  last := by
    rw [Core.current, ht, hrun, hlist]
    exact fun hm => (h.last hm).imp_left (hlast hm)
  linked := by
    rw [hlinked, hlist]
    exact h.linked
  init := by
    rw [Core.current, ht, hrun, hlist]
    exact h.init.elim .inl fun hr => hinit.imp_right fun hz => ⟨hr.1, hz⟩
  idle := by
    rw [Core.current, ht, hrun, hlist]
    exact h.idle.elim .inl fun hr => hidle.imp_right fun hz => ⟨hr.1, hz⟩
  runs i hi hu hs := by
    rw [ht] at hs
    rw [ht, huid] at hu
    exact (h.runs i hi hu (hruns i hi hs)).trans hrun.symm
  free_state i hi := by
    rw [ht, hstate i (hfree ▸ hi)]
    exact h.free_state i (hfree ▸ hi)
  idle_state := ht ▸ hidles
  init_cont := ht ▸ hicont
  idle_cont := ht ▸ hdcont

end Orderly

/-! ## `schedule` -/

theorem demote_of_ne {t : Tasks} (h : i ≠ task) : demote t task i = t i := by
  rw [demote]
  split_ifs
  · exact Tasks.setState_of_ne h
  · rfl

@[simp] theorem demote_uid (t : Tasks) : (demote t task i).uid = (t i).uid := by
  rw [demote]
  split_ifs <;> simp

@[simp] theorem demote_cont (t : Tasks) : (demote t task i).cont = (t i).cont := by
  rw [demote]
  split_ifs <;> simp

theorem demote_taskState (t : Tasks) : (demote t task i).taskState =
    if i = task ∧ (t i).taskState = .running then .ready else (t i).taskState := by
  by_cases h : i = task
  · subst h
    rw [demote]
    by_cases hr : (t i).taskState = .running
    · simp [hr, Tasks.setState_taskState]
    · simp [hr]
  · rw [demote_of_ne h, if_neg fun hc => h hc.1]

theorem demote_zombie (t : Tasks) :
    (demote t task i).taskState = .zombie ↔ (t i).taskState = .zombie := by
  rw [demote_taskState]
  split_ifs with h
  · rw [h.2]
    simp
  · rfl

/-- What `add_to_task_list` does to the list. -/
theorem list_addToTaskList (a : Queues) (task : ℕ) (behind : List ℕ) :
    (a.addToTaskList task behind).list = a.list ∨
    (a.list = [] ∧ (a.addToTaskList task behind).list = task :: behind) ∨
    (a.addToTaskList task behind).list = a.list ++ [task] := by
  by_cases h1 : (a.tasks task).taskState = .zombie ∨ task ∈ a.list
  · exact .inl (if_pos h1)
  · by_cases h2 : a.list = []
    · exact .inr (.inl ⟨h2, (if_neg h1).trans (if_pos h2)⟩)
    · exact .inr (.inr ((if_neg h1).trans (if_neg h2)))

/-- What `fetch_ready_task` leaves: the state `b` before the task that was running in `a` is put
back, with the tasks `behind` behind it where the list is empty. -/
structure Fetched (a b : Queues) (behind : List ℕ) : Prop where
  /-- The list of free PCBs is the same. -/
  free : b.free = a.free
  /-- The list has no task twice. -/
  list_nodup : b.list.Nodup
  /-- The list has no new task. -/
  list_sub : ∀ i ∈ b.list, i ∈ a.list
  /-- At most the new running task has left the list. -/
  keep : ∀ i ∈ a.list, i ≠ b.runningTask → i ∈ b.list
  /-- The new running task was on the list, or it is the idle task. -/
  running : b.runningTask ∈ a.list ∨ b.runningTask = idleTask
  /-- Only the state of the new running task has changed. -/
  other : ∀ i ≠ b.runningTask, b.tasks i = a.tasks i
  /-- The process in a PCB is the same. -/
  uid : ∀ i, (b.tasks i).uid = (a.tasks i).uid
  /-- Tasks go on where they were to go on. -/
  cont : ∀ i, (b.tasks i).cont = (a.tasks i).cont
  /-- The tasks behind the one that is put back were on the list. -/
  behind_mem : ∀ i ∈ behind, i ∈ a.list ∧ i ≠ a.runningTask
  /-- They are distinct. -/
  behind_nodup : behind.Nodup
  /-- The state of the idle task. -/
  idle_state : (b.tasks idleTask).taskState = .ready ∨ (b.tasks idleTask).taskState = .running ∨
    (b.tasks idleTask).taskState = .zombie
  /-- The new running task is alive or the idle task. -/
  alive : (b.tasks b.runningTask).taskState = .zombie → b.runningTask = idleTask ∧ idleTask ∈ b.list

namespace Fetched

variable {b : Queues} (hb : Fetched a b behind) (h : a.Orderly)

include hb

/-- The list after the task is put back. -/
theorem mem_list (hi : i ∈ (b.addToTaskList a.runningTask behind).list) :
    i ∈ a.list ∨ i = a.runningTask := by
  simp only [addToTaskList] at hi
  split_ifs at hi
  · exact .inl (hb.list_sub i hi)
  · rcases List.mem_cons.mp hi with rfl | hi
    · exact .inr rfl
    · exact .inl (hb.behind_mem i hi).1
  · rcases List.mem_append.mp hi with hi | hi
    · exact .inl (hb.list_sub i hi)
    · exact .inr (List.mem_singleton.mp hi)

/-- A task other than the new running one stays a zombie or alive. -/
theorem zombie_iff (hi : i ≠ b.runningTask) :
    (demote b.tasks a.runningTask i).taskState = .zombie ↔ (a.tasks i).taskState = .zombie := by
  rw [demote_zombie, hb.other i hi]

/-- A task that was on the list, or was running and alive, is on the list or is running now. -/
theorem mem_or_running (hi : i ∈ a.list ∨ (a.runningTask = i ∧ a.current.taskState ≠ .zombie)) :
    i ∈ (b.addToTaskList a.runningTask behind).list ∨ b.runningTask = i := by
  by_cases hr : i = b.runningTask
  · exact .inr hr.symm
  refine .inl ?_
  rcases hi with hi | ⟨rfl, hz⟩
  · exact mem_addToTaskList_of_mem (hb.keep i hi hr)
  · refine mem_addToTaskList_self fun hc => hz ?_
    rw [hb.other _ hr] at hc
    exact hc

include h

/-- The order of the lists after `schedule`, but for what depends on how the new task was found. -/
theorem settled
    (hkernel : b.runningTask ∈ (b.addToTaskList a.runningTask behind).list →
      (b.runningTask = initTask ∨ b.runningTask = idleTask) ∧
      ((demote b.tasks a.runningTask b.runningTask).taskState = .zombie ∨
        (b.addToTaskList a.runningTask behind).list.getLast? = some b.runningTask))
    (hlinked : b.linked = true → b.list ≠ []) :
    (b.addToTaskList a.runningTask behind).Settled where
  list_nodup := by
    simp only [addToTaskList]
    split_ifs with h1 h2
    · exact hb.list_nodup
    · exact List.nodup_cons.mpr ⟨fun hm => (hb.behind_mem _ hm).2 rfl, hb.behind_nodup⟩
    · refine List.nodup_append.mpr ⟨hb.list_nodup, List.nodup_singleton _, fun x hx y hy hxy => ?_⟩
      obtain rfl := List.mem_singleton.mp hy
      exact h1 (.inr (hxy ▸ hx))
  free_nodup := hb.free ▸ h.free_nodup
  disjoint i hi := by
    show i ∉ b.free
    rw [hb.free]
    rcases hb.mem_list hi with hi | rfl
    · exact h.disjoint i hi
    · exact h.running
  list_lt i hi := by
    rcases hb.mem_list hi with hi | rfl
    · exact h.list_lt i hi
    · exact h.running_lt
  free_lt := hb.free ▸ h.free_lt
  free_iff i hi := by
    show i ∈ b.free ↔ (demote b.tasks a.runningTask i).uid = 0
    rw [hb.free, demote_uid, hb.uid]
    exact h.free_iff i hi
  running_lt := by
    rcases hb.running with hm | hm
    · exact h.list_lt _ hm
    · exact (show b.runningTask = _ from hm) ▸ (by decide : idleTask < numPcb)
  running_uid := by
    show (demote b.tasks a.runningTask b.runningTask).uid ≠ 0
    rw [demote_uid, hb.uid]
    rcases hb.running with hm | hm
    · exact h.uid_of_mem hm
    · rw [hm]
      rcases h.idle with hm | ⟨hr, -⟩
      · exact h.uid_of_mem hm
      · exact hr ▸ h.running_uid
  queued i hi hu hz hne := by
    simp only [addToTaskList, demote_uid, hb.uid] at hu
    have hz' : (a.tasks i).taskState ≠ .zombie := fun hc => hz ((hb.zombie_iff hne).mpr hc)
    refine (hb.mem_or_running ?_).resolve_right fun hc => hne hc.symm
    by_cases hr : i = a.runningTask
    · refine .inr ⟨hr.symm, ?_⟩
      rw [Core.current, ← hr]
      exact hz'
    · exact .inl (h.queued i hi hu hz' hr)
  kernel hm := (hkernel hm).1
  last hm := (hkernel hm).2
  linked hl hnil := by
    obtain ⟨i, hi⟩ := List.exists_mem_of_ne_nil _ (hlinked hl)
    have hmem : i ∈ (b.addToTaskList a.runningTask behind).list := mem_addToTaskList_of_mem hi
    rw [hnil] at hmem
    cases hmem
  init := by
    refine (hb.mem_or_running h.init).imp_right fun hr => ⟨hr, fun hz => ?_⟩
    exact absurd (hr.symm.trans (hb.alive ((demote_zombie _).mp hz)).1) (by decide)
  idle := by
    by_cases hz : (demote b.tasks a.runningTask b.runningTask).taskState = .zombie
    · exact .inl (mem_addToTaskList_of_mem (hb.alive ((demote_zombie _).mp hz)).2)
    · exact (hb.mem_or_running h.idle).imp_right fun hr => ⟨hr, hz⟩
  runs i hi hu hs := by
    by_contra hne
    have hs : (demote b.tasks a.runningTask i).taskState = .running := hs
    simp only [addToTaskList, demote_uid, hb.uid] at hu
    rw [demote_taskState, hb.other i hne] at hs
    split_ifs at hs with hc
    exact hc ⟨h.runs i hi hu hs, hs⟩
  free_state i hi := by
    show (demote b.tasks a.runningTask i).taskState = .ready ∨
      (demote b.tasks a.runningTask i).taskState = .running
    have hi : i ∈ a.free := hb.free ▸ hi
    have hr : i ≠ a.runningTask := fun hc => h.running (hc ▸ hi)
    have hne : i ≠ b.runningTask := fun hc => by
      rcases hb.running with hm | hm
      · exact h.disjoint i (hc ▸ hm) hi
      · rcases h.idle with hm' | ⟨hr', -⟩
        · exact h.disjoint i (hc.trans hm ▸ hm') hi
        · exact hr (hc.trans (hm.trans hr'.symm))
    rw [demote_of_ne hr, hb.other i hne]
    exact h.free_state i hi
  idle_state := by
    show (demote b.tasks a.runningTask idleTask).taskState = .ready ∨
      (demote b.tasks a.runningTask idleTask).taskState = .running ∨
      (demote b.tasks a.runningTask idleTask).taskState = .zombie
    rw [demote_taskState]
    split_ifs
    · exact .inl rfl
    · exact hb.idle_state
  init_cont := by
    show (demote b.tasks a.runningTask initTask).cont = _ ∨
      (demote b.tasks a.runningTask initTask).cont = _
    rw [demote_cont, hb.cont]
    exact h.init_cont
  idle_cont := by
    show (demote b.tasks a.runningTask idleTask).cont = _
    rw [demote_cont, hb.cont]
    exact h.idle_cont
  zombie hz := (hb.alive ((demote_zombie _).mp hz)).1

end Fetched

theorem ready_mem (hx : a.ready = some x) : x ∈ a.list ∧ (a.tasks x).taskState = .ready :=
  ⟨List.mem_of_find?_eq_some hx, by simpa using List.find?_some hx⟩

theorem ready_none (hn : a.ready = none) (hi : i ∈ a.list) : (a.tasks i).taskState ≠ .ready := by
  simpa using List.find?_eq_none.mp hn i hi

namespace Orderly

variable (h : a.Orderly)

include h

/-- `fetch_ready_task` without a ready task. -/
theorem fetched_none : Fetched a { a with runningTask := idleTask, linked := false } [] where
  free := rfl
  list_nodup := h.list_nodup
  list_sub _ hi := hi
  keep _ hi _ := hi
  running := .inr rfl
  other _ _ := rfl
  uid _ := rfl
  cont _ := rfl
  behind_mem _ hi := by cases hi
  behind_nodup := List.nodup_nil
  idle_state := h.idle_state
  alive hz := by
    refine ⟨rfl, h.idle.resolve_right fun hr => hr.2 ?_⟩
    rw [Core.current, hr.1]
    exact hz

/-- `fetch_ready_task` with a ready task. -/
theorem fetched_some (hx : a.ready = some x) : Fetched a (a.take x)
    (if a.linked = true ∧ a.runningTask ∉ a.list then [x] else []) where
  free := rfl
  list_nodup := h.list_nodup.erase x
  list_sub _ hi := List.mem_of_mem_erase hi
  keep _ hi hne := (List.mem_erase_of_ne hne).mpr hi
  running := .inl (ready_mem hx).1
  other _ hne := Tasks.setState_of_ne hne
  uid _ := by simp [take]
  cont _ := by simp [take]
  behind_mem i hi := by
    split_ifs at hi with hc
    · obtain rfl := List.mem_singleton.mp hi
      exact ⟨(ready_mem hx).1, fun hr => hc.2 (hr ▸ (ready_mem hx).1)⟩
    · cases hi
  behind_nodup := by
    split_ifs
    · exact List.nodup_singleton x
    · exact List.nodup_nil
  idle_state := by
    simp only [take, Tasks.setState_taskState]
    split_ifs
    · exact .inr (.inl rfl)
    · exact h.idle_state
  alive hz := by
    have hrun : (a.tasks.setState x .running x).taskState = .running := by
      simp [Tasks.setState_taskState]
    exact TaskState.noConfusion (hrun.symm.trans hz)

/-- The idle task runs from the end of the list, unless it is a zombie. -/
theorem idle_last (hn : a.ready = none) :
    (demote a.tasks a.runningTask idleTask).taskState = .zombie ∨
      (addToTaskList { a with runningTask := idleTask, linked := false } a.runningTask
        []).list.getLast? = some idleTask := by
  rw [demote_zombie]
  by_cases hz : (a.tasks idleTask).taskState = .zombie
  · exact .inl hz
  refine .inr ?_
  by_cases hm : idleTask ∈ a.list
  · -- It is not ready, so it is the task that was running, which is the last of the list.
    have hrun : (a.tasks idleTask).taskState = .running :=
      (h.idle_state.resolve_left (ready_none hn hm)).resolve_right hz
    have heq := h.runs _ (by decide) (h.uid_of_mem hm) hrun
    have hlast := (h.last (heq ▸ hm)).resolve_left fun hc => hz (by rw [heq]; exact hc)
    simp only [addToTaskList]
    rw [if_pos (.inr (heq ▸ hm)), hlast, ← heq]
  · -- It was running and is put back.
    obtain ⟨hr, -⟩ := h.idle.resolve_left hm
    simp only [addToTaskList, hr, hz, hm, or_self, if_false]
    split_ifs <;> simp

/-- A task that still hangs behind the last one was the only one on the list, so it is one of the
kernel's. -/
theorem kernel_of_singleton (hone : a.list = [x]) :
    x = initTask ∨ x = idleTask := by
  have hcase : ∀ i, i ∈ a.list ∨ (a.runningTask = i ∧ a.current.taskState ≠ .zombie) →
      x = i ∨ a.runningTask = i := fun i hi => by
    rcases hi with hi | hi
    · rw [hone] at hi
      exact .inl (List.mem_singleton.mp hi).symm
    · exact .inr hi.1
  rcases hcase _ h.init with hx | hx
  · exact .inl hx
  · refine .inr ((hcase _ h.idle).resolve_right fun hc => ?_)
    exact absurd (hx.symm.trans hc) (by decide)

/-- A ready task that runs from the list is one of the kernel's, at the end of the list. -/
theorem taken_last (hx : a.ready = some x)
    (hm : x ∈ ((a.take x).addToTaskList a.runningTask
      (if a.linked = true ∧ a.runningTask ∉ a.list then [x] else [])).list) :
    (x = initTask ∨ x = idleTask) ∧ ((a.take x).addToTaskList a.runningTask
      (if a.linked = true ∧ a.runningTask ∉ a.list then [x] else [])).list.getLast? = some x := by
  have hxl : x ∉ (a.take x).list := h.list_nodup.not_mem_erase
  have hxm := (ready_mem hx).1
  rcases list_addToTaskList (a.take x) a.runningTask
    (if a.linked = true ∧ a.runningTask ∉ a.list then [x] else []) with heq | ⟨hnil, heq⟩ | heq
  · rw [heq] at hm
    exact absurd hm hxl
  · rw [heq] at hm ⊢
    have hone : a.list = [x] := by
      obtain ⟨l₁, l₂, -, hl, he⟩ := List.exists_erase_eq hxm
      rw [show (a.take x).list = _ from he, List.append_eq_nil_iff] at hnil
      rw [hl, hnil.1, hnil.2, List.nil_append]
    refine ⟨h.kernel_of_singleton hone, ?_⟩
    split_ifs at hm ⊢ with hc
    · rfl
    · rw [List.mem_singleton.mp hm]
      rfl
  · rw [heq] at hm ⊢
    obtain rfl : x = a.runningTask :=
      List.mem_singleton.mp ((List.mem_append.mp hm).resolve_left hxl)
    exact ⟨h.kernel hxm, by simp⟩

/-- `schedule` keeps the lists in order. -/
theorem schedule : a.schedule.Settled := by
  rw [Queues.schedule]
  cases hready : a.ready with
  | none =>
    exact h.fetched_none.settled h (fun _ => ⟨.inr rfl, h.idle_last hready⟩) fun hc => by cases hc
  | some x =>
    refine (h.fetched_some hready).settled h (fun hm => ?_) fun hl => ?_
    · obtain ⟨hk, hl⟩ := h.taken_last hready hm
      exact ⟨hk, .inr hl⟩
    · simp only [take, decide_eq_true_eq] at hl
      exact hl.2

end Orderly

end Queues

end Nascent
