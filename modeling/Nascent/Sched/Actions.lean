import Nascent.Sched.Orderly

/-!
# The actions keep the lists in order

One lemma for each function of the kernel that an action calls, and `Settled.step` for an action as a
whole. There are two conditions. A task that is killed is a process, and a zombie that is reaped is
not on `overall_task_list` any more. The second one is not met by a task that was killed while it was
on the list: `sys_exit` only marks it, and only the running task leaves the list when it exits.
-/

namespace Nascent

namespace Core

variable (c : Core) (op : SchedOp)

/-- The action is part of `wait_for_child`, in which zombies are reaped. -/
def waits : Bool :=
  match op, c.current.cont with
  | .wait, .user => true
  | .resume, .waitForChild => true
  | .resume, .initProcess => true
  | _, _ => false

/-- The PCBs that the action reaps: the first zombie child of the running task in the process table,
and all of them for the init task. -/
def reaped : List ℕ :=
  if c.waits op then
    if c.runningTask = initTask then
      (List.range numPcb).filter fun i =>
        decide ((c.tasks i).taskState = .zombie) && decide ((c.tasks i).ppid = c.current.pid)
    else (c.tasks.zombieChild c.current.pid).toList
  else []

/-- A task that is killed is alive. -/
def KillsLive : Prop :=
  match op with
  | .kill pid => (c.tasks pid).uid ≠ 0 ∧ (c.tasks pid).taskState ≠ .zombie
  | _ => True

instance : Decidable (c.KillsLive op) :=
  match op with
  | .kill pid => inferInstanceAs
      (Decidable ((c.tasks pid).uid ≠ 0 ∧ (c.tasks pid).taskState ≠ .zombie))
  | .fork | .exit | .wait | .sleep _ | .read | .yield | .resume | .tick | .enter => isTrue trivial

/-- The first zombie child is among the PCBs that are reaped. -/
theorem mem_reaped_of_zombieChild {c : Core} {op : SchedOp} {i : ℕ} (hw : c.waits op = true)
    (hi : c.tasks.zombieChild c.current.pid = some i) : i ∈ c.reaped op := by
  obtain ⟨hlt, hz, hp⟩ := Tasks.zombieChild_spec hi
  simp only [reaped, hw, if_true]
  split_ifs
  · simp [hlt, hz, hp]
  · simp [hi]

end Core

namespace Queues

variable {a a' : Queues} {i child target : ℕ} {op : SchedOp}

/-! ## The running task -/

namespace Settled

variable (h : a.Settled)

include h

/-- A running task other than the idle task is alive. -/
theorem alive (hr : a.runningTask ≠ idleTask) : a.current.taskState ≠ .zombie := fun hz =>
  hr (h.zombie hz)

/-- A change of the running task. -/
theorem modifyCurrent {f : Task → Task} (hr : a.runningTask ≠ idleTask)
    (huid : (f a.current).uid = a.current.uid) (hz : (f a.current).taskState ≠ .zombie)
    (hrun : (f a.current).taskState = .running → a.current.taskState = .running)
    (hcont : a.runningTask = initTask →
      (f a.current).cont = .initProcess ∨ (f a.current).cont = .waitForChild) :
    (a.modifyCurrent f).Settled := by
  have hself : a.tasks.modify a.runningTask f a.runningTask = f a.current :=
    Tasks.modify_self ..
  have hother : ∀ i ≠ a.runningTask, a.tasks.modify a.runningTask f i = a.tasks i := fun i hi =>
    Tasks.modify_of_ne _ _ _ hi
  have hord : (a.modifyCurrent f).Orderly := by
    refine h.withTasks (t := a.tasks.modify a.runningTask f) rfl rfl rfl rfl rfl (fun i => ?_)
      (fun i _ _ hc => ?_) (fun i _ hc => ?_) (fun _ hc => absurd hc (h.alive hr)) (.inr ?_) (.inr ?_) (fun i hi => ?_) ?_ ?_ ?_
    · by_cases hi : i = a.runningTask
      · rw [hi, hself]
        exact huid
      · rw [hother i hi]
    · by_cases hi : i = a.runningTask
      · rw [hi]
        exact h.alive hr
      · rwa [hother i hi] at hc
    · by_cases hi : i = a.runningTask
      · rw [hi, hself] at hc
        rw [hi]
        exact hrun hc
      · rwa [hother i hi] at hc
    · rw [hself]
      exact hz
    · rw [hself]
      exact hz
    · rw [hother i fun hc => h.running (hc ▸ hi)]
    · rw [hother _ hr.symm]
      exact h.idle_state
    · by_cases hi : initTask = a.runningTask
      · rw [hi, hself]
        exact hcont hi.symm
      · rw [hother _ hi]
        exact h.init_cont
    · rw [hother _ hr.symm]
      exact h.idle_cont
  refine ⟨hord, fun hc => absurd hc ?_⟩
  show (a.tasks.modify a.runningTask f a.runningTask).taskState ≠ .zombie
  rw [hself]
  exact hz

/-- The running task is put to sleep. -/
theorem block {state : TaskState} {cont : Cont} (hr : a.runningTask ≠ idleTask)
    (hz : state ≠ .zombie) (hs : state ≠ .running)
    (hcont : a.runningTask = initTask → cont = .initProcess ∨ cont = .waitForChild) :
    (a.block state cont).Settled :=
  (h.modifyCurrent hr rfl hz (fun hc => absurd hc hs) hcont).schedule

end Settled

/-! ## `sys_exit` -/

/-- What `sys_exit` does before it calls `schedule`, by a task in user mode and to a process. -/
theorem Settled.exit (h : a.Settled) (hu : a.current.cont = .user)
    (huid : (a.tasks target).uid ≠ 0) (exited : List ℕ) :
    Orderly { a with tasks := a.tasks.exit target, exited := exited } := by
  obtain ⟨hninit, hnidle⟩ := h.not_kernel hu
  have hsame : ∀ i ∈ a.free, (a.tasks.exit target i).taskState = (a.tasks i).taskState := by
    intro i hi
    have hit : i ≠ target := fun hc => huid (hc ▸ (h.free_iff i (h.free_lt i hi)).mp hi)
    have hns : (a.tasks i).taskState ≠ .suspended := fun hc => by
      rcases h.free_state i hi with hs | hs <;> rw [hc] at hs <;> cases hs
    rw [Tasks.exit_taskState, if_neg hit, if_neg fun hc => hns hc.2]
  refine h.withTasks (t := a.tasks.exit target) rfl rfl rfl rfl rfl
    (fun i => Tasks.exit_uid ..) (fun i _ _ hc => ?_) (fun i _ hc => ?_) (fun hm => ?_)
    (.inl (h.init.resolve_right fun hc => hninit hc.1))
    (.inl (h.idle.resolve_right fun hc => hnidle hc.1)) hsame ?_ ?_ ?_
  · rw [Tasks.exit_taskState] at hc
    intro hz
    split_ifs at hc with h1 h2
    · exact hc rfl
    · rw [hz] at h2
      cases h2.2
    · exact hc hz
  · rw [Tasks.exit_taskState] at hc
    split_ifs at hc
    exact hc
  · exact absurd (h.kernel hm) fun hc => hc.elim hninit hnidle
  · simp only [Tasks.exit_taskState]
    split_ifs
    · exact .inr (.inr rfl)
    · exact .inl rfl
    · exact h.idle_state
  · simp only [Tasks.exit_cont]
    exact h.init_cont
  · simp only [Tasks.exit_cont]
    exact h.idle_cont

/-! ## `fork_process` -/

/-- The task that `fork_process` creates. -/
theorem forkProcess_spec (hf : a.forkProcess = some a') :
    ∃ child free, a.free = child :: free ∧ a'.free = free ∧ a'.runningTask = a.runningTask ∧
      a'.linked = a.linked ∧ a'.list = (if child ∈ a.list then a.list else a.list ++ [child]) ∧
      (∀ i ≠ child, a'.tasks i = a.tasks i) ∧ (a'.tasks child).uid = a.born + 1 ∧
      (a'.tasks child).taskState = .ready := by
  rw [forkProcess] at hf
  split at hf
  · cases hf
  rename_i child free hfree
  obtain rfl := Option.some.inj hf
  refine ⟨child, free, hfree, rfl, rfl, rfl, ?_, fun i hi => ?_, ?_, ?_⟩
  · simp only [addToTaskList, Tasks.modify_self, Tasks.fetch, reduceCtorEq, false_or]
    split_ifs with h1 h2
    · rfl
    · rw [h2, List.nil_append]
    · rfl
  · simp only [addToTaskList]
    rw [demote_of_ne hi, Tasks.modify_of_ne _ _ _ hi, Tasks.fetch, Tasks.modify_of_ne _ _ _ hi]
  · simp [addToTaskList, Tasks.fetch]
  · simp [addToTaskList, demote_taskState, Tasks.fetch]

/-- `fork_process` by a task in user mode. -/
theorem Settled.forkProcess (h : a.Settled) (hu : a.current.cont = .user)
    (hf : a.forkProcess = some a') : a'.Settled := by
  obtain ⟨hninit, hnidle⟩ := h.not_kernel hu
  have hrl : a.runningTask ∉ a.list := fun hm => (h.kernel hm).elim hninit hnidle
  obtain ⟨child, free, hfree, hfree', hrun, -, hlist, hother, huid, hstate⟩ := forkProcess_spec hf
  -- The PCB was free.
  have hmem : child ∈ a.free := hfree ▸ List.mem_cons_self ..
  have hsub : ∀ i ∈ a'.free, i ∈ a.free := fun i hi => by
    rw [hfree]
    exact List.mem_cons_of_mem _ (hfree' ▸ hi)
  have hnd := List.nodup_cons.mp (hfree ▸ h.free_nodup)
  have hcl : child ∉ a.list := fun hm => h.disjoint child hm hmem
  have hcr : a.runningTask ≠ child := fun hc => h.running (hc ▸ hmem)
  have hci : initTask ∈ a.list := h.init.resolve_right fun hc => hninit hc.1
  have hcd : idleTask ∈ a.list := h.idle.resolve_right fun hc => hnidle hc.1
  have hne : ∀ i ∈ a.list, i ≠ child := fun i hi hc => hcl (hc ▸ hi)
  rw [if_neg hcl] at hlist
  have hcur : a'.current = a.current := by
    rw [Core.current, hrun, hother _ hcr]
    rfl
  have hlist' : ∀ i ∈ a'.list, i ∈ a.list ∨ i = child := fun i hi => by
    rw [hlist] at hi
    exact (List.mem_append.mp hi).imp_right List.mem_singleton.mp
  have hrl' : a'.runningTask ∉ a'.list := fun hm => by
    rw [hrun] at hm
    exact (hlist' _ hm).elim hrl hcr
  have hnc : ∀ i ∈ a'.free, i ≠ child := fun i hi hc => hnd.1 (hc ▸ hfree' ▸ hi)
  exact {
    list_nodup := by
      rw [hlist]
      exact List.nodup_append.mpr ⟨h.list_nodup, List.nodup_singleton _, fun x hx y hy hxy =>
        hcl (List.mem_singleton.mp hy ▸ hxy ▸ hx)⟩
    free_nodup := hfree' ▸ hnd.2
    disjoint := fun i hi hif => by
      rcases hlist' i hi with hi | hi
      · exact h.disjoint i hi (hsub i hif)
      · exact hnc i hif hi
    list_lt := fun i hi => by
      rcases hlist' i hi with hi | rfl
      · exact h.list_lt i hi
      · exact h.free_lt i hmem
    free_lt := fun i hi => h.free_lt i (hsub i hi)
    free_iff := fun i hi => by
      by_cases hic : i = child
      · subst hic
        rw [huid]
        exact ⟨fun hm => absurd rfl (hnc i hm), fun hc => by omega⟩
      · rw [hother i hic, ← h.free_iff i hi, hfree, hfree']
        simp [hic]
    running_lt := hrun ▸ h.running_lt
    running_uid := hcur ▸ h.running_uid
    queued := fun i hi hu hz hir => by
      rw [hlist]
      by_cases hic : i = child
      · rw [hic]
        simp
      · rw [hother i hic] at hu hz
        exact List.mem_append_left _ (h.queued i hi hu hz (hrun ▸ hir))
    kernel := fun hm => absurd hm hrl'
    last := fun hm => absurd hm hrl'
    linked := fun _ => by
      rw [hlist]
      simp
    init := .inl (hlist ▸ List.mem_append_left _ hci)
    idle := .inl (hlist ▸ List.mem_append_left _ hcd)
    runs := fun i hi hu hs => by
      by_cases hic : i = child
      · rw [hic, hstate] at hs
        cases hs
      · rw [hother i hic] at hu hs
        exact (h.runs i hi hu hs).trans hrun.symm
    free_state := fun i hi => by
      rw [hother i (hnc i hi)]
      exact h.free_state i (hsub i hi)
    idle_state := by
      rw [hother _ (hne _ hcd)]
      exact h.idle_state
    init_cont := by
      rw [hother _ (hne _ hci)]
      exact h.init_cont
    idle_cont := by
      rw [hother _ (hne _ hcd)]
      exact h.idle_cont
    zombie := fun hz => by
      rw [hrun]
      exact h.zombie (hcur ▸ hz) }

/-! ## Reaping -/

/-- A zombie that is not on the list is reaped. -/
theorem Settled.reap (h : a.Settled) (hi : child < numPcb)
    (hz : (a.tasks child).taskState = .zombie) (hl : child ∉ a.list) (hr : child ≠ a.runningTask) :
    (a.reap child).Settled := by
  have huid := h.uid_of_zombie hi hz
  have hfree : child ∉ a.free := fun hm => huid ((h.free_iff child hi).mp hm)
  have hother : ∀ i ≠ child, (a.reap child).tasks i = a.tasks i := fun i hi => Tasks.clear_of_ne hi
  have hself : (a.reap child).tasks child = _ := Tasks.clear_self ..
  have hmem : ∀ i, i ∈ (a.reap child).free ↔ i ∈ a.free ∨ i = child := fun i => by
    simp [Queues.reap]
  have hcur : (a.reap child).current = a.current := hother _ hr.symm
  -- The tasks of the kernel are on the list or running.
  have hkernel : ∀ i, i ∈ a.list ∨ (a.runningTask = i ∧ a.current.taskState ≠ .zombie) →
      i ≠ child := fun i hk hc => by
    rcases hk with hk | hk
    · exact hl (hc ▸ hk)
    · exact hr (hc.symm.trans hk.1.symm)
  exact {
    list_nodup := h.list_nodup
    free_nodup := List.nodup_append.mpr ⟨h.free_nodup, List.nodup_singleton _, fun x hx y hy hxy =>
      hfree (List.mem_singleton.mp hy ▸ hxy ▸ hx)⟩
    disjoint := fun i hi hm => by
      rcases (hmem i).mp hm with hm | rfl
      · exact h.disjoint i hi hm
      · exact hl hi
    list_lt := h.list_lt
    free_lt := fun i hm => by
      rcases (hmem i).mp hm with hm | rfl
      · exact h.free_lt i hm
      · exact hi
    free_iff := fun i hi => by
      by_cases hic : i = child
      · rw [hmem, hic, hself]
        simp
      · rw [hmem, hother i hic, ← h.free_iff i hi]
        simp [hic]
    running_lt := h.running_lt
    running_uid := hcur ▸ h.running_uid
    queued := fun i hi hu hz hir => by
      by_cases hic : i = child
      · rw [hic, hself] at hu
        exact absurd rfl hu
      · rw [hother i hic] at hu hz
        exact h.queued i hi hu hz hir
    kernel := h.kernel
    last := fun hm => hcur ▸ h.last hm
    linked := h.linked
    init := hcur ▸ h.init
    idle := hcur ▸ h.idle
    runs := fun i hi hu hs => by
      by_cases hic : i = child
      · rw [hic, hself] at hu
        exact absurd rfl hu
      · rw [hother i hic] at hu hs
        exact h.runs i hi hu hs
    free_state := fun i hm => by
      by_cases hic : i = child
      · rw [hic, hself]
        exact .inl rfl
      · rw [hother i hic]
        exact h.free_state i (((hmem i).mp hm).resolve_right hic)
    idle_state := by
      rw [hother _ (hkernel _ h.idle)]
      exact h.idle_state
    init_cont := by
      rw [hother _ (hkernel _ h.init)]
      exact h.init_cont
    idle_cont := by
      rw [hother _ (hkernel _ h.idle)]
      exact h.idle_cont
    zombie := fun hz => h.zombie (hcur ▸ hz) }

/-- The state `b` is `a` after some zombies were reaped. -/
structure Reaps (a b : Queues) : Prop where
  /-- The same task runs. -/
  runningTask : b.runningTask = a.runningTask
  /-- Its fields are the same. -/
  current : b.current = a.current
  /-- The list is the same. -/
  list : b.list = a.list
  /-- There are no new zombies. -/
  zombie : ∀ i, (b.tasks i).taskState = .zombie → b.tasks i = a.tasks i

theorem Reaps.refl (a : Queues) : Reaps a a := ⟨rfl, rfl, rfl, fun _ _ => rfl⟩

/-- One more zombie is reaped. -/
theorem Reaps.reap {b : Queues} (h : Reaps a b) (hr : child ≠ b.runningTask) :
    Reaps a (b.reap child) where
  runningTask := h.runningTask
  current := (Tasks.clear_of_ne hr.symm).trans h.current
  list := h.list
  zombie i hz := by
    have hic : i ≠ child := fun hc => by
      rw [hc, reap_tasks, Tasks.clear_self] at hz
      cases hz
    rw [reap_tasks, Tasks.clear_of_ne hic] at hz ⊢
    exact h.zombie i hz

/-- The init task reaps all its zombies, also those that are left after some were reaped. -/
theorem Reaps.all_reaped {b : Queues} (h : Reaps a b) (hw : a.waits op = true)
    (hl : ∀ i ∈ a.reaped op, i ∉ a.list) : b.runningTask = initTask → ∀ i < numPcb,
    (b.tasks i).taskState = .zombie → (b.tasks i).ppid = b.current.pid → i ∉ b.list := by
  intro hinit i hi hz hp
  have heq := h.zombie i hz
  rw [heq] at hz hp
  rw [h.current] at hp
  rw [h.runningTask] at hinit
  rw [h.list]
  refine hl i ?_
  simp only [Core.reaped, hw, hinit, if_true]
  simp [hi, hz, hp]

/-- What each reaping of `clean_child_pcb` preserves holds after it. -/
theorem cleanChildPcb_induction {P : Queues → Prop} (h : P a)
    (hstep : ∀ b i, P b → i < numPcb → (b.tasks i).taskState = .zombie →
      (b.tasks i).ppid = b.current.pid → P (b.reap i)) : P a.cleanChildPcb := by
  have hfold : ∀ (l : List ℕ) (b : Queues), (∀ i ∈ l, i < numPcb) → P b →
      P (l.foldl (fun a i => if (a.tasks i).taskState = .zombie ∧
        (a.tasks i).ppid = a.current.pid then a.reap i else a) b) := by
    intro l
    induction l with
    | nil => exact fun _ _ hb => hb
    | cons i l ih =>
      intro b hlt hb
      refine ih _ (fun j hj => hlt j (List.mem_cons_of_mem _ hj)) ?_
      dsimp only
      split_ifs with hc
      · exact hstep b i hb (hlt i (List.mem_cons_self ..)) hc.1 hc.2
      · exact hb
  exact hfold _ a (fun i hi => List.mem_range.mp hi) h

namespace Settled

variable (h : a.Settled)

include h

/-- A zombie other than the idle task does not run. -/
theorem ne_running (hr : a.runningTask ≠ idleTask) (hz : (a.tasks i).taskState = .zombie) :
    i ≠ a.runningTask := by
  rintro rfl
  exact h.alive hr hz

/-- `clean_child_pcb`. -/
theorem cleanChildPcb (hr : a.runningTask ≠ idleTask)
    (hl : ∀ i < numPcb, (a.tasks i).taskState = .zombie → (a.tasks i).ppid = a.current.pid →
      i ∉ a.list) : a.cleanChildPcb.Settled := by
  refine (cleanChildPcb_induction (P := fun b => b.Settled ∧ Reaps a b) ⟨h, .refl a⟩
    fun b i hb hi hz hp => ?_).1
  obtain ⟨hset, hreaps⟩ := hb
  have hne : i ≠ b.runningTask := hset.ne_running (hreaps.runningTask ▸ hr) hz
  refine ⟨hset.reap hi hz (fun hm => ?_) hne, hreaps.reap hne⟩
  have heq := hreaps.zombie i hz
  rw [heq] at hz hp
  exact hl i hi hz (hreaps.current ▸ hp) (hreaps.list ▸ hm)

/-- A loop of `wait_for_child`. -/
theorem reapChild (hr : a.runningTask ≠ idleTask)
    (hl : ∀ i, a.tasks.zombieChild a.current.pid = some i → i ∉ a.list) :
    a.reapChild.2.Settled ∧ Reaps a a.reapChild.2 := by
  cases hc : a.tasks.zombieChild a.current.pid with
  | none =>
    rw [reapChild_of_none hc]
    exact ⟨h, .refl a⟩
  | some i =>
    rw [reapChild_of_some hc]
    obtain ⟨hi, hz, -⟩ := Tasks.zombieChild_spec hc
    have hne := h.ne_running hr hz
    obtain ⟨hord, hzombie⟩ := h.reap hi hz (hl i hc) hne
    obtain ⟨h1, h2, h3, h4⟩ := (Reaps.refl a).reap hne
    exact ⟨⟨{ hord with }, hzombie⟩, ⟨h1, h2, h3, h4⟩⟩

/-- The zombies of the init task, once `wait_for_child` has returned to it. -/
theorem initProcess_reaps (hr : a.runningTask ≠ idleTask)
    (hl : ∀ i < numPcb, (a.tasks i).taskState = .zombie → (a.tasks i).ppid = a.current.pid →
      i ∉ a.list) {cont : Cont} : ∀ i < numPcb,
    ((a.modifyCurrent fun x => { x with cont := cont }).tasks i).taskState = .zombie →
    ((a.modifyCurrent fun x => { x with cont := cont }).tasks i).ppid =
      (a.modifyCurrent fun x => { x with cont := cont }).current.pid → i ∉ a.list := by
  intro i hi hz hp
  have hne : i ≠ a.runningTask := fun hc => by
    rw [hc, modifyCurrent_tasks, Tasks.modify_self] at hz
    exact h.alive hr hz
  rw [modifyCurrent_tasks, Tasks.modify_of_ne _ _ _ hne] at hz hp
  rw [Core.current, modifyCurrent_tasks, modifyCurrent_runningTask, Tasks.modify_self] at hp
  exact hl i hi hz hp

/-- What follows a return from `wait_for_child`. -/
theorem afterWait (hr : a.runningTask ≠ idleTask)
    (hl : a.runningTask = initTask → ∀ i < numPcb, (a.tasks i).taskState = .zombie →
      (a.tasks i).ppid = a.current.pid → i ∉ a.list) : a.afterWait.Settled := by
  have hmod : ∀ cont, (a.runningTask = initTask → cont = .initProcess ∨ cont = .waitForChild) →
      (a.modifyCurrent fun x => { x with cont := cont }).Settled := fun cont hcont =>
    h.modifyCurrent hr rfl (h.alive hr) id hcont
  rw [Queues.afterWait]
  split_ifs with hinit
  · exact (hmod .initProcess fun _ => .inl rfl).cleanChildPcb hr
      (h.initProcess_reaps hr (hl hinit))
  · exact (hmod .user fun hc => absurd hc hinit).schedule

/-- After a loop of `wait_for_child` that reaped only tasks off the list. -/
theorem afterWait_reapChild (hr : a.runningTask ≠ idleTask) (hw : a.waits op = true)
    (hl : ∀ i ∈ a.reaped op, i ∉ a.list) : a.reapChild.2.afterWait.Settled := by
  obtain ⟨hset, hreaps⟩ := h.reapChild hr fun i hi => hl i (Core.mem_reaped_of_zombieChild hw hi)
  have hr' : a.reapChild.2.runningTask ≠ idleTask := by
    rw [hreaps.runningTask]
    exact hr
  exact hset.afterWait hr' (hreaps.all_reaped hw hl)

/-- `wait_for_child`. -/
theorem waitForChild (hr : a.runningTask ≠ idleTask) (hw : a.waits op = true)
    (hl : ∀ i ∈ a.reaped op, i ∉ a.list) : a.waitForChild.Settled := by
  have hafter := h.afterWait_reapChild hr hw hl
  obtain ⟨hset, hreaps⟩ := h.reapChild hr fun i hi => hl i (Core.mem_reaped_of_zombieChild hw hi)
  unfold Queues.waitForChild
  split
  · rename_i heq
    rw [heq] at hafter
    exact hafter
  · rename_i heq
    rw [heq] at hset hreaps
    exact hset.block (hreaps.runningTask ▸ hr) TaskState.noConfusion TaskState.noConfusion
      fun _ => .inr rfl

/-! ## The terminal and the timer -/

/-- `schedule_terminal_task` by a task that is not one of the kernel's. -/
theorem scheduleTerminalTask (hinit : a.runningTask ≠ initTask) (hr : a.runningTask ≠ idleTask) :
    a.scheduleTerminalTask.Settled := by
  rw [Queues.scheduleTerminalTask]
  split_ifs
  · obtain ⟨hord, hz⟩ := h.modifyCurrent (f := fun x => { x with cont := .user }) hr rfl
      (h.alive hr) id fun hc => absurd hc hinit
    exact ⟨{ hord with }, hz⟩
  · exact h.block hr TaskState.noConfusion TaskState.noConfusion fun hc => absurd hc hinit

/-- `terminal_handler`. -/
theorem terminalHandler : a.terminalHandler.Settled := by
  rw [Queues.terminalHandler]
  split
  · exact ⟨{ h.toOrderly with }, h.zombie⟩
  rename_i task htask
  have hmem := List.mem_of_find?_eq_some htask
  have hwait : (a.tasks task).taskState = .wait := by simpa using List.find?_some htask
  have hzombie : ∀ i, (a.tasks.setState task .ready i).taskState = .zombie ↔
      (a.tasks i).taskState = .zombie := fun i => by
    rw [Tasks.setState_taskState]
    split_ifs with hc
    · rw [hc, hwait]
      simp
    · rfl
  refine ⟨h.withTasks (t := a.tasks.setState task .ready) rfl rfl rfl rfl rfl
    (fun i => Tasks.setState_uid ..) (fun i _ _ hc hz => hc ((hzombie i).mpr hz))
    (fun i _ hc => ?_) (fun _ hz => (hzombie _).mpr hz) ?_ ?_ (fun i hi => ?_) ?_ ?_ ?_, fun hz =>
    h.zombie ((hzombie _).mp hz)⟩
  · rw [Tasks.setState_taskState] at hc
    split_ifs at hc
    exact hc
  · exact h.init.imp_right fun hc hz => hc.2 ((hzombie _).mp hz)
  · exact h.idle.imp_right fun hc hz => hc.2 ((hzombie _).mp hz)
  · have hne : i ≠ task := fun hc => h.disjoint task hmem (hc ▸ hi)
    rw [Tasks.setState_of_ne hne]
  · rw [Tasks.setState_taskState]
    split_ifs
    · exact .inl rfl
    · exact h.idle_state
  · rw [Tasks.setState_cont]
    exact h.init_cont
  · rw [Tasks.setState_cont]
    exact h.idle_cont

/-- The walk of the timer over the list. -/
theorem countDown {b : Queues} (ht : b.tasks = a.tasks.countDown a.list) (hlist : b.list = a.list)
    (hfree : b.free = a.free) (hlinked : b.linked = a.linked)
    (hrun : b.runningTask = a.runningTask) : b.Orderly := by
  have htimed := fun i => Tasks.timed_countDown a.tasks i a.list
  have hstate : ∀ i, (a.tasks.countDown a.list i).taskState = (a.tasks i).taskState ∨
      ((a.tasks i).taskState = .sleep ∧ (a.tasks.countDown a.list i).taskState = .ready) :=
    fun i => (htimed i).2.2.2.2.2.2
  have hzombie : ∀ i, (a.tasks.countDown a.list i).taskState = .zombie ↔
      (a.tasks i).taskState = .zombie := fun i => by
    rcases hstate i with hs | ⟨hs, hs'⟩
    · rw [hs]
    · rw [hs, hs']
      simp
  refine h.withTasks ht hlist hfree hlinked hrun (fun i => (htimed i).1)
    (fun i _ _ hc hz => hc ((hzombie i).mpr hz)) (fun i _ hc => ?_)
    (fun _ hz => (hzombie _).mpr hz) ?_ ?_ (fun i hi => ?_) ?_ ?_ ?_
  · rcases hstate i with hs | ⟨-, hs⟩
    · exact hs ▸ hc
    · rw [hs] at hc
      cases hc
  · exact h.init.imp_right fun hc hz => hc.2 ((hzombie _).mp hz)
  · exact h.idle.imp_right fun hc hz => hc.2 ((hzombie _).mp hz)
  · rcases hstate i with hs | ⟨hs, -⟩
    · exact hs
    · rcases h.free_state i hi with hc | hc <;> rw [hs] at hc <;> cases hc
  · rcases hstate idleTask with hs | ⟨-, hs⟩
    · rw [hs]
      exact h.idle_state
    · exact .inl hs
  · rw [(htimed initTask).2.1]
    exact h.init_cont
  · rw [(htimed idleTask).2.1]
    exact h.idle_cont

/-- `timer_int`. -/
theorem timerInt : a.timerInt.Settled := by
  rw [Queues.timerInt]
  split_ifs
  · exact Orderly.schedule (h.countDown rfl rfl rfl rfl rfl)
  · exact Orderly.schedule { h.toOrderly with }
  · exact ⟨{ h.toOrderly with }, h.zombie⟩

/-- An action keeps the lists in order. -/
theorem step (hk : a.KillsLive op) (hl : ∀ i ∈ a.reaped op, i ∉ a.list)
    (hs : a.step op = some a') : a'.Settled := by
  unfold Queues.step at hs
  split at hs
  case h_1 hu => exact h.forkProcess hu hs
  case h_2 hu =>
    obtain rfl := Option.some.inj hs
    exact (h.exit hu h.running_uid _).schedule
  case h_3 pid hu =>
    split_ifs at hs
    obtain rfl := Option.some.inj hs
    exact (h.exit hu hk.1 _).schedule
  case h_4 hu =>
    obtain rfl := Option.some.inj hs
    exact h.waitForChild (h.not_kernel hu).2 (by simp [Core.waits, hu]) hl
  case h_5 sec hu =>
    obtain rfl := Option.some.inj hs
    obtain ⟨hninit, hnidle⟩ := h.not_kernel hu
    have hsec := h.modifyCurrent (f := fun x => { x with sleepSec := sec }) hnidle rfl
      (h.alive hnidle) id fun hc => absurd hc hninit
    exact hsec.block hnidle TaskState.noConfusion TaskState.noConfusion fun hc => absurd hc hninit
  case h_6 hu =>
    obtain rfl := Option.some.inj hs
    exact h.scheduleTerminalTask (h.not_kernel hu).1 (h.not_kernel hu).2
  case h_7 | h_8 =>
    obtain rfl := Option.some.inj hs
    exact h.schedule
  case h_9 | h_10 =>
    obtain rfl := Option.some.inj hs
    exact h.timerInt
  case h_11 | h_12 =>
    obtain rfl := Option.some.inj hs
    exact h.terminalHandler
  case h_13 hu =>
    obtain rfl := Option.some.inj hs
    have hr := h.ne_idle (by rw [hu]; exact Cont.noConfusion)
    exact h.afterWait_reapChild hr (by simp [Core.waits, hu]) hl
  case h_14 hu =>
    obtain rfl := Option.some.inj hs
    refine h.scheduleTerminalTask (h.ne_init ?_ ?_) (h.ne_idle ?_) <;> rw [hu] <;>
      exact Cont.noConfusion
  case h_15 hu =>
    obtain rfl := Option.some.inj hs
    have hr := h.ne_idle (by rw [hu]; exact Cont.noConfusion)
    exact h.waitForChild hr (by simp [Core.waits, hu]) hl
  case h_16 => cases hs

end Settled

end Queues

end Nascent
