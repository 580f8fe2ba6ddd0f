import Nascent.Sched.Lists

/-!
# How PCBs are used again

A PCB that was reaped goes to the end of the list of free PCBs, so it is used again once all the others
were. The lemmas here follow the lists through long runs: a task forks many children one after the other
(`run_forks`), and the tasks of `overall_task_list` exit one after the other (`run_exits`). What happens on
the lists happens on the links (`rep_run`).
-/

namespace Nascent

open Runs

namespace Tasks

variable {t : Tasks} {i r : ℕ}

/-- `sys_exit` leaves a task as it is that is neither a child of the target nor its waiting parent. -/
theorem exit_of_ne (hne : i ≠ r) (hparent : (t r).parentTask = some i → (t i).taskState ≠ .suspended)
    (hppid : (t i).ppid ≠ (t r).pid) : t.exit r i = t i := by
  unfold exit adopt
  rw [wake_of_ne hne hparent, (wake_fields t r r).2.2.1, if_neg fun h => hppid h.2.1]

/-- The target itself becomes a zombie. -/
theorem exit_self (hppid : (t r).ppid ≠ (t r).pid) : (t.exit r r).taskState = .zombie ∧
    (t.exit r r).ppid = (t r).ppid := by
  refine ⟨by rw [exit_taskState, if_pos rfl], ?_⟩
  rw [exit_ppid, if_neg fun h => hppid h.2.1]

end Tasks

namespace Queues

variable {a a' b : Queues} {r x : ℕ} {pre post ks rest : List ℕ} {op : SchedOp} {ops : List SchedOp}

/-! ## `schedule` -/

/-- The first ready task of the list. -/
theorem ready_eq (hlist : a.list = pre ++ x :: post) (hpre : ∀ i ∈ pre, (a.tasks i).taskState ≠ .ready)
    (hx : (a.tasks x).taskState = .ready) : a.ready = some x := by
  have hnone : pre.find? (fun i => decide ((a.tasks i).taskState = .ready)) = none :=
    List.find?_eq_none.mpr fun i hi => by simpa using hpre i hi
  rw [ready, hlist, List.find?_append, hnone, Option.none_or, List.find?_cons_of_pos (by simpa using hx)]

/-- `schedule` with a ready task: a zombie is not put back, and any other task goes to the end. -/
theorem schedule_of_ready (hlist : a.list = pre ++ x :: post)
    (hpre : ∀ i ∈ pre, (a.tasks i).taskState ≠ .ready) (hx : (a.tasks x).taskState = .ready)
    (hne : pre ≠ []) (hr : a.runningTask ∉ a.list) : a.schedule.runningTask = x ∧ a.schedule.free = a.free ∧
      a.schedule.tasks = demote (a.tasks.setState x .running) a.runningTask ∧
      a.schedule.list = pre ++ post ++ (if a.current.taskState = .zombie then [] else [a.runningTask]) := by
  have hxpre : x ∉ pre := fun hm => hpre x hm hx
  have hlist' : (a.take x).list = pre ++ post := by
    show a.list.erase x = pre ++ post
    rw [hlist, List.erase_append_right _ hxpre, List.erase_cons_head]
  have hrx : a.runningTask ≠ x := fun heq => hr (by rw [hlist, heq]; simp)
  have hr' : a.runningTask ∉ (a.take x).list := fun hm => hr (List.mem_of_mem_erase hm)
  have hstate : ((a.take x).tasks a.runningTask).taskState = a.current.taskState := by
    show (a.tasks.setState x .running a.runningTask).taskState = _
    rw [Tasks.setState_of_ne hrx]
    rfl
  have hnil : (a.take x).list ≠ [] := fun hnil => hne (List.append_eq_nil_iff.mp (hlist' ▸ hnil)).1
  unfold schedule
  rw [ready_eq hlist hpre hx]
  refine ⟨rfl, rfl, rfl, ?_⟩
  rw [← hlist']
  by_cases hz : a.current.taskState = .zombie
  · rw [if_pos hz, List.append_nil]
    exact if_pos (.inl (hstate.trans hz))
  · rw [if_neg hz]
    exact (if_neg (not_or.mpr ⟨hstate ▸ hz, hr'⟩)).trans (if_neg hnil)

/-- The tasks after `schedule`, but for the old and the new running task. -/
theorem demote_setState_of_ne {t : Tasks} {i : ℕ} (hr : i ≠ r) (hx : i ≠ x) :
    demote (t.setState x .running) r i = t i := by
  rw [demote_of_ne hr, Tasks.setState_of_ne hx]

/-- A task that gives up the processor goes to the end of the list, and the first ready task runs. -/
theorem step_yield (hu : a.current.cont = .user ∨ a.current.cont = .idleProcess)
    (hrunning : a.current.taskState = .running) (hr : a.runningTask ∉ a.list)
    (hlist : a.list = pre ++ x :: post) (hpre : ∀ i ∈ pre, (a.tasks i).taskState ≠ .ready) (hne : pre ≠ [])
    (hx : (a.tasks x).taskState = .ready) : ∃ b, a.step .yield = some b ∧ b.runningTask = x ∧
      b.list = pre ++ post ++ [a.runningTask] ∧ b.free = a.free ∧
      (∀ i, i ≠ a.runningTask → i ≠ x → b.tasks i = a.tasks i) ∧
      b.tasks x = { a.tasks x with taskState := .running } ∧
      b.tasks a.runningTask = { a.current with taskState := .ready } := by
  have hstep : a.step .yield = some a.schedule := by
    unfold step
    rcases hu with hu | hu
    · rw [hu]
    · rw [hu]
  have hrx : x ≠ a.runningTask := fun heq => hr (by rw [hlist, ← heq]; simp)
  obtain ⟨hrun, hfree, htasks, hblist⟩ := schedule_of_ready hlist hpre hx hne hr
  refine ⟨_, hstep, hrun, ?_, hfree, fun i hi hix => ?_, ?_, ?_⟩
  · rw [hblist, if_neg (by rw [hrunning]; decide)]
  · rw [htasks, demote_setState_of_ne hi hix]
  · rw [htasks, demote_of_ne hrx, Tasks.setState, Tasks.modify_self]
  · have hstate : (a.tasks.setState x .running a.runningTask).taskState = .running := by
      rw [Tasks.setState_of_ne hrx.symm]
      exact hrunning
    rw [htasks, demote, if_pos hstate, Tasks.setState, Tasks.modify_self, Tasks.setState_of_ne hrx.symm,
      Core.current]

/-! ## Forks -/

/-- The fields of the task that `fork_process` creates. -/
theorem forkProcess_child (hf : a.forkProcess = some a') : ∃ child ∈ a.free.head?,
    (∀ i ≠ child, a'.tasks i = a.tasks i) ∧ (a'.tasks child).uid = a.born + 1 ∧
    (a'.tasks child).taskState = .ready ∧ (a'.tasks child).pid = child ∧
    (a.runningTask ≠ child → (a'.tasks child).ppid = a.current.pid ∧
      (a'.tasks child).parentTask = some a.runningTask ∧ (a'.tasks child).forker = a.current.uid) ∧
    (a'.tasks child).cont = .user ∧
    a'.born = a.born + 1 ∧ a'.exited = a.exited ∧ a'.reported = a.reported := by
  unfold forkProcess at hf
  split at hf
  · cases hf
  rename_i child free hfree
  obtain rfl := Option.some.inj hf
  refine ⟨child, by rw [hfree]; rfl, fun i hi => ?_, ?_, ?_, ?_, fun hr => ?_, ?_, rfl, rfl, rfl⟩
  · simp only [addToTaskList]
    rw [demote_of_ne hi, Tasks.modify_of_ne _ _ _ hi, Tasks.fetch, Tasks.modify_of_ne _ _ _ hi]
  · simp [addToTaskList, Tasks.fetch]
  · simp [addToTaskList, demote_taskState, Tasks.fetch]
  · simp [addToTaskList, Tasks.fetch, demote]
  · simp [addToTaskList, Tasks.fetch, demote, Tasks.modify_of_ne _ _ _ hr, Core.current]
  · simp [addToTaskList, Tasks.fetch]

/-- A task as `fork_process` leaves it, of the parent `r` with the pid `q`. -/
structure IsChildOf (x : Task) (k r : ℕ) (q : ℤ) : Prop where
  /-- It is ready. -/
  taskState : x.taskState = .ready
  /-- It is in user mode. -/
  cont : x.cont = .user
  /-- Its pid. -/
  pid : x.pid = k
  /-- The pid of the parent. -/
  ppid : x.ppid = q
  /-- The parent. -/
  parentTask : x.parentTask = some r

/-- One fork. -/
theorem step_fork {k : ℕ} (hu : a.current.cont = .user) (hfree : a.free = k :: rest) (hr : a.runningTask ≠ k)
    (hk : k ∉ a.list) : ∃ b, a.step .fork = some b ∧ b.runningTask = a.runningTask ∧
      b.list = a.list ++ [k] ∧ b.free = rest ∧ b.born = a.born + 1 ∧ (∀ i ≠ k, b.tasks i = a.tasks i) ∧
      IsChildOf (b.tasks k) k a.runningTask a.current.pid ∧ (b.tasks k).uid = a.born + 1 ∧
      (b.tasks k).forker = a.current.uid := by
  have hstep : a.step .fork = a.forkProcess := by
    unfold step
    rw [hu]
  obtain ⟨b, hb⟩ : ∃ b, a.forkProcess = some b := by
    unfold forkProcess
    rw [hfree]
    exact ⟨_, rfl⟩
  obtain ⟨k', free, hfree', hbfree, hbr, -, hlist, -⟩ := forkProcess_spec hb
  obtain ⟨k'', hhead, hother, huid, hstate, hpid, hrec, hcont, hborn, -⟩ := forkProcess_child hb
  rw [hfree] at hfree' hhead
  obtain ⟨rfl, rfl⟩ := List.cons.inj hfree'
  obtain rfl : k = k'' := Option.some.inj hhead
  obtain ⟨hppid, hparent, hforker⟩ := hrec hr
  rw [if_neg hk] at hlist
  exact ⟨b, hstep.trans hb, hbr, hlist, hbfree, hborn, hother, ⟨hstate, hcont, hpid, hppid, hparent⟩, huid,
    hforker⟩

/-- A task forks children one after the other. -/
theorem run_forks : ∀ {ks rest : List ℕ} {a : Queues}, a.current.cont = .user → a.free = ks ++ rest →
    ks.Nodup → a.runningTask ∉ ks → (∀ k ∈ ks, k ∉ a.list) →
    ∃ b, run step a (List.replicate ks.length .fork) = some b ∧ b.runningTask = a.runningTask ∧
      b.list = a.list ++ ks ∧ b.free = rest ∧ b.born = a.born + ks.length ∧
      (∀ i ∉ ks, b.tasks i = a.tasks i) ∧
      ∀ k ∈ ks, IsChildOf (b.tasks k) k a.runningTask a.current.pid ∧ a.born < (b.tasks k).uid
  | [], rest, a, _, hfree, _, _, _ =>
    ⟨a, rfl, rfl, (List.append_nil _).symm, hfree, rfl, fun _ _ => rfl, fun _ hk => absurd hk List.not_mem_nil⟩
  | k :: ks, rest, a, hu, hfree, hnd, hr, hks => by
    obtain ⟨hknd, hnd⟩ := List.nodup_cons.mp hnd
    obtain ⟨hrk, hrks⟩ := not_or.mp (List.mem_cons.not.mp hr)
    obtain ⟨b, hstep, hbr, hbl, hbf, hbb, hother, hchild, huid, -⟩ :=
      step_fork hu hfree hrk (hks k (List.mem_cons_self ..))
    have hcur : b.current = a.current := by
      rw [Core.current, hbr, hother _ hrk]
      rfl
    -- The other children are forked from the state after it.
    have hks' : ∀ j ∈ ks, j ∉ b.list := by
      intro j hj hm
      rw [hbl] at hm
      rcases List.mem_append.mp hm with hm | hm
      · exact hks j (List.mem_cons_of_mem _ hj) hm
      · exact hknd (List.mem_singleton.mp hm ▸ hj)
    obtain ⟨c, hrun, hcr, hcl, hcf, hcb, hother', hchild'⟩ :=
      run_forks (hcur ▸ hu) hbf hnd (hbr ▸ hrks) hks'
    refine ⟨c, ?_, hcr.trans hbr, ?_, hcf, ?_, fun i hi => ?_, fun j hj => ?_⟩
    · rw [List.length_cons, List.replicate_succ, run_cons, hstep, Option.bind_some]
      exact hrun
    · rw [hcl, hbl, List.append_assoc, List.singleton_append]
    · rw [hcb, hbb, List.length_cons]
      omega
    · obtain ⟨hik, hiks⟩ := not_or.mp (List.mem_cons.not.mp hi)
      rw [hother' i hiks, hother i hik]
    · rcases List.mem_cons.mp hj with rfl | hj
      · rw [hother' j hknd]
        exact ⟨hchild, by omega⟩
      · obtain ⟨hc, hu⟩ := hchild' j hj
        rw [hbr, hcur] at hc
        exact ⟨hc, by omega⟩

/-! ## Exits -/

/-- One exit, of a task whose parent does not wait: the first ready task runs. -/
theorem step_exit (hu : a.current.cont = .user) (hr : a.runningTask ∉ a.list)
    (hlist : a.list = pre ++ x :: post) (hpre : ∀ i ∈ pre, (a.tasks i).taskState ≠ .ready) (hne : pre ≠ [])
    (hx : (a.tasks x).taskState = .ready) (hxp : (a.tasks x).ppid ≠ a.current.pid)
    (hparent : ∀ q, a.current.parentTask = some q → (a.tasks q).taskState ≠ .suspended)
    (hppid : a.current.ppid ≠ a.current.pid) : ∃ b, a.step .exit = some b ∧ b.runningTask = x ∧
      b.list = pre ++ post ∧ b.free = a.free ∧
      (∀ i, i ≠ a.runningTask → i ≠ x → (a.tasks i).ppid ≠ a.current.pid → b.tasks i = a.tasks i) ∧
      b.tasks x = { a.tasks x with taskState := .running } ∧
      (b.tasks a.runningTask).ppid = a.current.ppid := by
  have hstep : a.step .exit = some (a.sysExit a.runningTask) := by
    unfold step
    rw [hu]
  have hrx : x ≠ a.runningTask := fun heq => hr (by rw [hlist, ← heq]; simp)
  obtain ⟨hzombie, hppid'⟩ := Tasks.exit_self hppid
  -- The tasks other than its children are as they were.
  have hkept : ∀ i, i ≠ a.runningTask → (a.tasks i).ppid ≠ a.current.pid →
      a.tasks.exit a.runningTask i = a.tasks i := fun i hi hp =>
    Tasks.exit_of_ne hi (fun heq => hparent i heq) hp
  have hpre' : ∀ i ∈ pre, (a.tasks.exit a.runningTask i).taskState ≠ .ready := by
    intro i hi
    have hir : i ≠ a.runningTask := fun heq => hr (by rw [hlist, ← heq]; simp [hi])
    rw [Tasks.exit_taskState, if_neg hir, if_neg fun hw => hparent i hw.1 hw.2]
    exact hpre i hi
  have hx' : (a.tasks.exit a.runningTask x).taskState = .ready := by
    rw [hkept x hrx hxp]
    exact hx
  obtain ⟨hrun, hfree, htasks, hblist⟩ := schedule_of_ready
    (a := { a with tasks := a.tasks.exit a.runningTask, exited := (a.tasks a.runningTask).uid :: a.exited })
    hlist hpre' hx' hne hr
  refine ⟨_, hstep, hrun, hblist.trans ?_, hfree, fun i hi hix hp => ?_, ?_, ?_⟩
  · exact (congrArg _ (if_pos hzombie)).trans (List.append_nil _)
  · exact (congrFun htasks i).trans ((demote_setState_of_ne hi hix).trans (hkept i hi hp))
  · refine (congrFun htasks x).trans ((demote_of_ne hrx).trans ((Tasks.modify_self ..).trans ?_))
    show { a.tasks.exit a.runningTask x with taskState := TaskState.running } = _
    rw [hkept x hrx hxp]
  · have hdemote : demote ((a.tasks.exit a.runningTask).setState x .running) a.runningTask a.runningTask =
        a.tasks.exit a.runningTask a.runningTask := by
      rw [demote, if_neg, Tasks.setState_of_ne hrx.symm]
      rw [Tasks.setState_of_ne hrx.symm, hzombie]
      decide
    refine (congrArg Task.ppid ((congrFun htasks _).trans hdemote)).trans hppid'

/-- The running task and the tasks `ks` behind it are children of `p` that may exit one after the other, up to
the task `x`. -/
structure Leaving (a : Queues) (z p : ℕ) (ks : List ℕ) (x : ℕ) (post : List ℕ) : Prop where
  /-- The running task is in user mode. -/
  cont : a.current.cont = .user
  /-- Its pid. -/
  pid : a.current.pid = a.runningTask
  /-- The pid of its parent. -/
  ppid : a.current.ppid = p
  /-- Its parent. -/
  parentTask : a.current.parentTask = some p
  /-- The list. -/
  list : a.list = [z] ++ (ks ++ x :: post)
  /-- The list has no task twice. -/
  nodup : a.list.Nodup
  /-- The running task is not on the list. -/
  running : a.runningTask ∉ a.list
  /-- The first task of the list is not ready. -/
  front : (a.tasks z).taskState ≠ .ready
  /-- The other children. -/
  children : ∀ k ∈ ks, IsChildOf (a.tasks k) k p p
  /-- The task behind them is ready. -/
  next : (a.tasks x).taskState = .ready
  /-- The parent does not wait. -/
  parent : (a.tasks p).taskState ≠ .suspended
  /-- These tasks have other parents. -/
  apart : ∀ i ∈ [z, x, p], ∀ j ∈ a.runningTask :: ks, (a.tasks i).ppid ≠ j
  /-- The parent is none of the children. -/
  notMem : p ∉ a.runningTask :: ks

/-- One of the children exits, and the next one runs. -/
theorem Leaving.exit_one {z p k : ℕ} (h : Leaving a z p (k :: ks) x post) : ∃ b, a.step .exit = some b ∧
    Leaving b z p ks x post ∧ b.runningTask = k ∧ b.free = a.free ∧
    (∀ i, i ≠ a.runningTask → i ≠ k → (a.tasks i).ppid ≠ a.current.pid → b.tasks i = a.tasks i) ∧
    (b.tasks a.runningTask).ppid = p ∧ (b.tasks k).ppid = p := by
  have hk := h.children k (List.mem_cons_self ..)
  have hnd := h.nodup
  rw [h.list] at hnd
  have hself : ∀ {j : ℕ}, j ∈ a.runningTask :: k :: ks → (p : ℤ) ≠ j := by
    intro j hj heq
    have heq : p = j := by exact_mod_cast heq
    exact h.notMem (heq ▸ hj)
  have hrp : (p : ℤ) ≠ a.current.pid := by
    rw [h.pid]
    exact hself (List.mem_cons_self ..)
  obtain ⟨b, hstep, hrun, hlist, hfree, hother, hbk, hbr⟩ := step_exit h.cont h.running h.list
    (fun i hi => List.mem_singleton.mp hi ▸ h.front) (List.cons_ne_nil _ _) hk.taskState
    (by rw [hk.ppid]; exact hrp) (fun q hq => by
      rw [h.parentTask] at hq
      exact Option.some.inj hq ▸ h.parent) (by rw [h.ppid]; exact hrp)
  have hmem : ∀ i ∈ [z] ++ (ks ++ x :: post), i ≠ a.runningTask ∧ i ≠ k := by
    intro i hi
    have hi' : i ∈ a.list := by
      rw [h.list]
      simp at hi ⊢
      tauto
    refine ⟨fun heq => h.running (heq ▸ hi'), ?_⟩
    rintro rfl
    simp at hnd hi
    tauto
  -- The tasks that matter are as they were.
  have hkept : ∀ i ∈ [z, x, p], b.tasks i = a.tasks i := by
    intro i hi
    have hne : i ≠ a.runningTask ∧ i ≠ k := by
      simp only [List.mem_cons, List.not_mem_nil, or_false] at hi
      rcases hi with rfl | rfl | rfl
      · exact hmem i (by simp)
      · exact hmem i (by simp)
      · exact ⟨fun heq => h.notMem (by simp [heq]), fun heq => h.notMem (by simp [heq])⟩
    refine hother i hne.1 hne.2 ?_
    rw [h.pid]
    exact h.apart i hi _ (List.mem_cons_self ..)
  have hcur : b.current = { a.tasks k with taskState := .running } := by
    rw [Core.current, hrun, hbk]
  have hchildren : ∀ j ∈ ks, IsChildOf (b.tasks j) j p p := by
    intro j hj
    obtain ⟨hjr, hjk⟩ := hmem j (by simp [hj])
    have hjc := h.children j (List.mem_cons_of_mem _ hj)
    rw [hother j hjr hjk (by rw [hjc.ppid]; exact hrp)]
    exact hjc
  refine ⟨b, hstep, ?_, hrun, hfree, hother, hbr.trans h.ppid, by rw [hbk]; exact hk.ppid⟩
  exact {
    cont := by rw [hcur]; exact hk.cont
    pid := by rw [hcur, hrun]; exact hk.pid
    ppid := by rw [hcur]; exact hk.ppid
    parentTask := by rw [hcur]; exact hk.parentTask
    list := hlist
    nodup := by
      rw [hlist]
      exact hnd.sublist (List.Sublist.append_left (List.sublist_cons_self ..) _)
    running := by
      rw [hlist, hrun]
      exact fun hm => (hmem k hm).2 rfl
    front := by
      rw [hkept z (by simp)]
      exact h.front
    children := hchildren
    next := by
      rw [hkept x (by simp)]
      exact h.next
    parent := by
      rw [hkept p (by simp)]
      exact h.parent
    apart := by
      intro i hi j hj
      rw [hkept i hi]
      exact h.apart i hi j (List.mem_cons_of_mem _ (hrun ▸ hj))
    notMem := by
      rw [hrun]
      exact fun hm => h.notMem (List.mem_cons_of_mem _ hm) }

/-- The children exit one after the other. -/
theorem Leaving.exit_all {z p : ℕ} : ∀ {ks : List ℕ} {a : Queues}, Leaving a z p ks x post →
    ∃ b, run step a (List.replicate (ks.length + 1) .exit) = some b ∧ b.runningTask = x ∧
      b.list = [z] ++ post ∧ b.free = a.free ∧
      (∀ i, i ∉ a.runningTask :: ks → i ≠ x → (∀ j ∈ a.runningTask :: ks, (a.tasks i).ppid ≠ j) →
        b.tasks i = a.tasks i) ∧
      b.tasks x = { a.tasks x with taskState := .running } ∧
      ∀ j ∈ a.runningTask :: ks, (b.tasks j).ppid = p
  | [], a, h => by
    have hself : (p : ℤ) ≠ a.current.pid := by
      rw [h.pid]
      intro heq
      have heq : p = a.runningTask := by exact_mod_cast heq
      exact h.notMem (by simp [heq])
    obtain ⟨b, hstep, hrun, hlist, hfree, hother, hbx, hbr⟩ := step_exit h.cont h.running h.list
      (fun i hi => List.mem_singleton.mp hi ▸ h.front) (List.cons_ne_nil _ _) h.next
      (by rw [h.pid]; exact h.apart x (by simp) _ (List.mem_cons_self ..)) (fun q hq => by
        rw [h.parentTask] at hq
        exact Option.some.inj hq ▸ h.parent) (by rw [h.ppid]; exact hself)
    refine ⟨b, ?_, hrun, hlist, hfree, fun i hi hix hp => ?_, hbx, fun j hj => ?_⟩
    · rw [List.length_nil, List.replicate_succ, run_cons, hstep]
      rfl
    · refine hother i (fun heq => hi (by simp [heq])) hix ?_
      rw [h.pid]
      exact hp _ (List.mem_cons_self ..)
    · rw [List.mem_singleton.mp hj, hbr, h.ppid]
  | k :: ks, a, h => by
    obtain ⟨b, hstep, hb, hrun, hfree, hother, hbr, hbk⟩ := h.exit_one
    obtain ⟨c, hcrun, hcr, hcl, hcf, hother', hcx, hcp⟩ := hb.exit_all
    rw [hrun] at hother' hcp
    have hne : ∀ {j : ℕ}, j ∈ k :: ks → j ≠ a.runningTask := by
      rintro j hj rfl
      refine h.running ?_
      rw [h.list]
      exact List.mem_append_right _ (List.mem_append_left _ hj)
    have hself : ∀ {i : ℕ}, (∀ j ∈ a.runningTask :: k :: ks, (a.tasks i).ppid ≠ j) →
        (a.tasks i).ppid ≠ a.current.pid := by
      intro i hp
      rw [h.pid]
      exact hp _ (List.mem_cons_self ..)
    have hxne : x ≠ a.runningTask ∧ x ≠ k := by
      have hnd := h.nodup
      rw [h.list] at hnd
      refine ⟨fun heq => h.running (by rw [h.list, ← heq]; simp), ?_⟩
      rintro rfl
      simp at hnd
    have hbx : b.tasks x = a.tasks x :=
      hother x hxne.1 hxne.2 (hself (h.apart x (by simp)))
    refine ⟨c, ?_, hcr, hcl, hcf.trans hfree, fun i hi hix hp => ?_, by rw [hcx, hbx], fun j hj => ?_⟩
    · rw [List.length_cons, List.replicate_succ, run_cons, hstep, Option.bind_some]
      exact hcrun
    · obtain ⟨hir, hi⟩ := not_or.mp (List.mem_cons.not.mp hi)
      have hik : i ≠ k := fun heq => hi (heq ▸ List.mem_cons_self ..)
      have hbi : b.tasks i = a.tasks i := hother i hir hik (hself hp)
      rw [hother' i hi hix fun j hj => by rw [hbi]; exact hp j (List.mem_cons_of_mem _ hj), hbi]
    · rcases List.mem_cons.mp hj with rfl | hj
      · -- It has exited first, and none of the others is its parent.
        have hkept : c.tasks a.runningTask = b.tasks a.runningTask := by
          refine hother' _ (fun hm => hne hm rfl) hxne.1.symm fun j hj heq => ?_
          rw [hbr] at heq
          have heq : p = j := by exact_mod_cast heq
          exact h.notMem (List.mem_cons_of_mem _ (heq ▸ hj))
        rw [hkept, hbr]
      · exact hcp j hj

/-! ## Links -/

/-- An action in which nothing is killed or reaped. -/
def Plain (op : SchedOp) : Prop := op = .fork ∨ op = .exit ∨ op = .yield

/-- Such an action kills and reaps nothing. -/
theorem Plain.conditions {op : SchedOp} (h : Plain op) (c : Core) : c.KillsLive op ∧ c.reaped op = [] := by
  rcases h with rfl | rfl | rfl
  · exact ⟨trivial, rfl⟩
  · exact ⟨trivial, rfl⟩
  · exact ⟨trivial, rfl⟩

end Queues

/-- A run on the lists is a run on the links. -/
theorem rep_run {ops : List SchedOp} {s : Sched} {a b : Queues} (hrep : Rep s a) (ho : a.Settled)
    (halong : Along Queues.step (fun a op => a.KillsLive op ∧ ∀ i ∈ a.reaped op, i ∉ a.list) a ops)
    (hrun : run Queues.step a ops = some b) : ∃ t, run Sched.step s ops = some t ∧ Rep t b ∧ b.Settled := by
  refine run_simulates (R := fun a s => Rep s a ∧ a.Settled) (fun a s op a' h hc _ hstep => ?_) ⟨hrep, ho⟩ halong
    (along_of_forall fun _ _ => trivial) hrun
  obtain ⟨s', hs, hrep'⟩ := h.1.exists_links h.2 hc.1 hc.2 hstep
  exact ⟨s', hs, hrep', h.2.step hc.1 hc.2 hstep⟩

/-- A run without kills and reaps. -/
theorem rep_run_plain {ops : List SchedOp} {s : Sched} {a b : Queues} (hrep : Rep s a) (ho : a.Settled)
    (hops : ∀ op ∈ ops, Queues.Plain op) (hrun : run Queues.step a ops = some b) :
    ∃ t, run Sched.step s ops = some t ∧ Rep t b ∧ b.Settled := by
  refine rep_run hrep ho ?_ hrun
  clear hrun hrep ho
  induction ops generalizing a with
  | nil => trivial
  | cons op ops ih =>
    obtain ⟨hop, hops⟩ := List.forall_mem_cons.mp hops
    obtain ⟨hk, hreaped⟩ := hop.conditions a.toCore
    exact ⟨⟨hk, fun i hi => by rw [hreaped] at hi; cases hi⟩, fun a' _ => ih hops⟩

end Nascent
