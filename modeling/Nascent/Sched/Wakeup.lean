import Nascent.Sched.Boot

/-!
# Wake-ups in `wait_for_child`

A task that waits for a child is `SUSPENDED`, and its zombie children are the zombies whose `ppid` is
its pid. `sys_exit` wakes up the `parent_task` of the exiting task, which is not always the task with
that pid, and it gives the children of the exiting task to the init task without waking this one up.
Nothing else makes a zombie or changes a `ppid` (`Calm`), so these two are all the ways to lose a
wake-up: it is lost in no run whose calls of `sys_exit` wake up whoever waits (`no_lost_wakeup`).

A zombie that is left behind by an exiting parent goes to the init task while this one is suspended
(`orphan_zombie_unseen`).
-/

namespace Nascent

open Runs

namespace Tasks

variable {t t' t'' : Tasks} {i j : ℕ} {st : TaskState}

/-- No task waits while one of its children is a zombie. -/
def NoLostWakeup (t : Tasks) : Prop :=
  ¬ ∃ p < numPcb, ∃ c < numPcb, (t p).taskState = .suspended ∧ (t c).taskState = .zombie ∧
    (t c).ppid = (t p).pid

/-- There is no new suspended task in `t'` and no new zombie, and those that there are have kept
their pid and their `ppid`. -/
def Calm (t t' : Tasks) : Prop :=
  ∀ i, ((t' i).taskState = .suspended → (t i).taskState = .suspended ∧ (t' i).pid = (t i).pid) ∧
    ((t' i).taskState = .zombie → (t i).taskState = .zombie ∧ (t' i).ppid = (t i).ppid)

theorem Calm.refl (t : Tasks) : Calm t t := fun _ => ⟨fun h => ⟨h, rfl⟩, fun h => ⟨h, rfl⟩⟩

theorem Calm.trans (h : Calm t t') (h' : Calm t' t'') : Calm t t'' := fun i => by
  refine ⟨fun hs => ?_, fun hz => ?_⟩
  · obtain ⟨hs', hp'⟩ := (h' i).1 hs
    obtain ⟨hs, hp⟩ := (h i).1 hs'
    exact ⟨hs, hp'.trans hp⟩
  · obtain ⟨hz', hp'⟩ := (h' i).2 hz
    obtain ⟨hz, hp⟩ := (h i).2 hz'
    exact ⟨hz, hp'.trans hp⟩

/-- No wake-up is lost by a calm change. -/
theorem Calm.noLostWakeup (h : Calm t t') (hn : t.NoLostWakeup) : t'.NoLostWakeup := by
  rintro ⟨p, hp, c, hc, hs, hz, heq⟩
  obtain ⟨hs, hpid⟩ := (h p).1 hs
  obtain ⟨hz, hppid⟩ := (h c).2 hz
  exact hn ⟨p, hp, c, hc, hs, hz, hppid.symm.trans (heq.trans hpid)⟩

/-- A change of one task to a state in which it neither waits nor is a zombie. -/
theorem calm_modify {f : Task → Task} (hs : (f (t i)).taskState ≠ .suspended)
    (hz : (f (t i)).taskState ≠ .zombie) : Calm t (t.modify i f) := fun j => by
  by_cases hj : j = i
  · rw [hj, modify_self]
    exact ⟨fun hc => absurd hc hs, fun hc => absurd hc hz⟩
  · rw [modify_of_ne t i j hj]
    exact Calm.refl t j

theorem calm_setState (hs : st ≠ .suspended) (hz : st ≠ .zombie) : Calm t (t.setState i st) :=
  calm_modify hs hz

/-- A change of one task that keeps its state, its pid, and its `ppid`. -/
theorem calm_modify_same {f : Task → Task} (hs : (f (t i)).taskState = (t i).taskState)
    (hpid : (f (t i)).pid = (t i).pid) (hppid : (f (t i)).ppid = (t i).ppid) :
    Calm t (t.modify i f) := fun j => by
  by_cases hj : j = i
  · rw [hj, modify_self, hs]
    exact ⟨fun hc => ⟨hc, hpid⟩, fun hc => ⟨hc, hppid⟩⟩
  · rw [modify_of_ne t i j hj]
    exact Calm.refl t j

/-- A change of where a task goes on. -/
theorem calm_cont {cont : Cont} : Calm t (t.modify i fun x => { x with cont := cont }) :=
  calm_modify_same rfl rfl rfl

/-- A running task that is put back. -/
theorem calm_demote : Calm t (Queues.demote t i) := by
  rw [Queues.demote]
  split_ifs
  · exact calm_setState TaskState.noConfusion TaskState.noConfusion
  · exact .refl t

/-- The walk of the timer. -/
theorem calm_countDown (l : List ℕ) : Calm t (t.countDown l) := fun i => by
  obtain ⟨-, -, hpid, hppid, -, -, hstate⟩ := timed_countDown t i l
  rcases hstate with hstate | ⟨-, hready⟩
  · rw [hstate]
    exact ⟨fun hs => ⟨hs, hpid⟩, fun hz => ⟨hz, hppid⟩⟩
  · rw [hready]
    exact ⟨TaskState.noConfusion, TaskState.noConfusion⟩

/-- The task `q` waits, and the exit of the target does not wake it up. -/
def StaysSuspended (t : Tasks) (target q : ℕ) : Prop :=
  (t q).taskState = .suspended ∧ q ≠ target ∧ (t target).parentTask ≠ some q

instance (t : Tasks) (target q : ℕ) : Decidable (t.StaysSuspended target q) :=
  inferInstanceAs (Decidable (_ ∧ _ ∧ _))

/-- The exiting task leaves a zombie child behind. -/
def LeavesZombie (t : Tasks) (target : ℕ) : Prop :=
  ∃ c < numPcb, ((t c).taskState = .zombie ∨ c = target) ∧ (t c).ppid = (t target).pid

instance (t : Tasks) (target : ℕ) : Decidable (t.LeavesZombie target) :=
  inferInstanceAs (Decidable (∃ c < numPcb, _ ∧ _))

/-- The exit of a task wakes up whoever waits: no task that goes on waiting has the pid that the
exiting task has as its `ppid`, and the init task does not go on waiting while zombie children of
the exiting task go to it. -/
def WakesWaiters (t : Tasks) (target : ℕ) : Prop :=
  ∀ q < numPcb, t.StaysSuspended target q → (t target).ppid ≠ (t q).pid ∧
    ((t q).pid = (t initTask).pid → ¬ t.LeavesZombie target)

instance (t : Tasks) (target : ℕ) : Decidable (t.WakesWaiters target) :=
  inferInstanceAs (Decidable (∀ q < numPcb, _ → _ ∧ _))

/-- An exit that wakes up whoever waits loses no wake-up. -/
theorem NoLostWakeup.exit {target : ℕ} (hn : t.NoLostWakeup) (hw : t.WakesWaiters target) :
    (t.exit target).NoLostWakeup := by
  rintro ⟨p, hp, c, hc, hs, hz, heq⟩
  -- The task that waits did so before, and it is not woken up.
  rw [exit_taskState] at hs
  split_ifs at hs with hpt hwoken
  have hparent : (t target).parentTask ≠ some p := fun hpar => hwoken ⟨hpar, hs⟩
  obtain ⟨hppid, horphan⟩ := hw p hp ⟨hs, hpt, hparent⟩
  -- The zombie is the exiting task or was a zombie before.
  have hzc : (t c).taskState = .zombie ∨ c = target := by
    rw [exit_taskState] at hz
    split_ifs at hz with hct
    · exact .inr hct
    · exact .inl hz
  rw [exit_ppid, exit_pid] at heq
  split_ifs at heq with hadopt
  · exact horphan heq.symm ⟨c, hc, hzc, hadopt.2.1⟩
  · rcases hzc with hzc | rfl
    · exact hn ⟨p, hp, c, hc, hs, hzc, heq⟩
    · exact hppid heq

end Tasks

namespace Sched

open Tasks (Calm)

variable {s s' : Sched} {i task target : ℕ} {op : SchedOp}

/-! ## What each function does -/

theorem linkLast_tasks {head : ℕ} (h : s.linkLast head task = some s') : s'.tasks = s.tasks := by
  obtain ⟨temp, -, rfl⟩ := Option.map_eq_some_iff.mp h
  rfl

theorem appendInFreeList_tasks (h : s.appendInFreeList task = some s') : s'.tasks = s.tasks := by
  rw [appendInFreeList] at h
  split at h
  · obtain rfl := Option.some.inj h
    rfl
  · exact linkLast_tasks h

theorem addToTaskList_tasks (h : s.addToTaskList task = some s') :
    s'.tasks = Queues.demote s.tasks task := by
  rw [addToTaskList_eq] at h
  split_ifs at h
  · obtain rfl := Option.some.inj h
    rfl
  · split at h
    · obtain rfl := Option.some.inj h
      rfl
    · exact linkLast_tasks h

theorem calm_fetchReadyTask (h : s.fetchReadyTask = some (task, s')) : Calm s.tasks s'.tasks := by
  have hrun : ∀ x, Calm s.tasks (s.tasks.setState x .running) := fun x =>
    Tasks.calm_setState TaskState.noConfusion TaskState.noConfusion
  obtain ⟨found, -, h⟩ := Option.bind_eq_some_iff.mp h
  match found with
  | none =>
    obtain rfl : s = s' := congrArg Prod.snd (Option.some.inj h)
    exact .refl _
  | some (none, x) =>
    have hs : _ = s' := congrArg Prod.snd (Option.some.inj h)
    rw [← hs]
    exact hrun x
  | some (some prev, x) =>
    have hs : _ = s' := congrArg Prod.snd (Option.some.inj h)
    rw [← hs]
    exact hrun x

theorem calm_schedule (h : s.schedule = some s') : Calm s.tasks s'.tasks := by
  obtain ⟨⟨task, s₁⟩, hfetch, hadd⟩ := Option.bind_eq_some_iff.mp h
  rw [addToTaskList_tasks hadd]
  exact (calm_fetchReadyTask hfetch).trans Tasks.calm_demote

theorem calm_forkProcess (h : s.forkProcess = some s') : Calm s.tasks s'.tasks := by
  obtain ⟨⟨child, s₁⟩, hfetch, hadd⟩ := Option.bind_eq_some_iff.mp h
  have hcalm : Calm s.tasks s₁.tasks ∧ (s₁.tasks child).taskState = .ready := by
    rw [fetchFreePcb] at hfetch
    split at hfetch
    · cases hfetch
    · obtain ⟨rfl, rfl⟩ := Prod.mk.inj (Option.some.inj hfetch)
      refine ⟨Tasks.calm_modify TaskState.noConfusion TaskState.noConfusion, ?_⟩
      simp [Tasks.fetch]
  rw [addToTaskList_tasks hadd]
  refine (hcalm.1.trans (Tasks.calm_modify (i := child) ?_ ?_)).trans Tasks.calm_demote
  · simp [hcalm.2]
  · simp [hcalm.2]

theorem calm_reap (h : s.reap i = some s') : Calm s.tasks s'.tasks := by
  rw [appendInFreeList_tasks h]
  exact Tasks.calm_modify TaskState.noConfusion TaskState.noConfusion

theorem calm_reapChild {found : Option ℕ} (h : s.reapChild = some (found, s')) :
    Calm s.tasks s'.tasks := by
  unfold reapChild at h
  split at h
  · obtain rfl : s = s' := congrArg Prod.snd (Option.some.inj h)
    exact .refl _
  · obtain ⟨s₁, hreap, h⟩ := Option.bind_eq_some_iff.mp h
    have hs : _ = s' := congrArg Prod.snd (Option.some.inj h)
    rw [← hs]
    have hcalm : Calm s.tasks s₁.tasks := calm_reap hreap
    exact hcalm

theorem calm_cleanChildPcb (h : s.cleanChildPcb = some s') : Calm s.tasks s'.tasks := by
  have hfold : ∀ (l : List ℕ) (s : Sched), l.foldlM (fun s i =>
      if (s.tasks i).taskState = .zombie ∧ (s.tasks i).ppid = s.current.pid then s.reap i
      else some s) s = some s' → Calm s.tasks s'.tasks := by
    intro l
    induction l with
    | nil =>
      intro s h
      obtain rfl := Option.some.inj h
      exact .refl _
    | cons i l ih =>
      intro s h
      obtain ⟨s₁, h₁, h⟩ := Option.bind_eq_some_iff.mp h
      refine Calm.trans ?_ (ih s₁ h)
      dsimp only at h₁
      split_ifs at h₁
      · exact calm_reap h₁
      · obtain rfl := Option.some.inj h₁
        exact .refl _
  exact hfold _ s h

theorem calm_block {state : TaskState} {cont : Cont} (hs : state ≠ .suspended)
    (hz : state ≠ .zombie) (h : s.block state cont = some s') : Calm s.tasks s'.tasks :=
  (Tasks.calm_modify (f := fun x => { x with taskState := state, cont := cont }) hs hz).trans
    (calm_schedule h)

theorem calm_afterWait (h : s.afterWait = some s') : Calm s.tasks s'.tasks := by
  rw [afterWait] at h
  split_ifs at h
  · exact Tasks.calm_cont.trans (calm_cleanChildPcb h)
  · exact Tasks.calm_cont.trans (calm_schedule h)

theorem calm_waitForChildWoken (h : s.waitForChildWoken = some s') : Calm s.tasks s'.tasks := by
  unfold waitForChildWoken at h
  obtain ⟨⟨found, s₁⟩, hreap, h⟩ := Option.bind_eq_some_iff.mp h
  exact (calm_reapChild hreap).trans (calm_afterWait h)

theorem calm_scheduleTerminalTask (h : s.scheduleTerminalTask = some s') :
    Calm s.tasks s'.tasks := by
  rw [scheduleTerminalTask] at h
  split_ifs at h
  · obtain rfl := Option.some.inj h
    exact Tasks.calm_cont
  · exact calm_block TaskState.noConfusion TaskState.noConfusion h

theorem calm_terminalHandler (h : s.terminalHandler = some s') : Calm s.tasks s'.tasks := by
  obtain ⟨found, -, h⟩ := Option.bind_eq_some_iff.mp h
  match found with
  | none =>
    obtain rfl := Option.some.inj h
    exact .refl _
  | some (_, task) =>
    obtain rfl := Option.some.inj h
    exact Tasks.calm_setState TaskState.noConfusion TaskState.noConfusion

theorem calm_timerInt (h : s.timerInt = some s') : Calm s.tasks s'.tasks := by
  obtain ⟨tasks, count, hwalk, hend⟩ := timerInt_cases h
  have hcalm : Calm s.tasks tasks := by
    rcases hwalk with rfl | ⟨l, -, rfl⟩
    · exact .refl _
    · exact Tasks.calm_countDown l
  rcases hend with rfl | hend
  · exact hcalm
  · exact hcalm.trans (calm_schedule (s := { s with tasks := tasks, timerCount := count }) hend)

/-- `wait_for_child` only suspends a task that has no zombie child. -/
theorem noLostWakeup_waitForChild (hn : s.tasks.NoLostWakeup) (h : s.waitForChild = some s') :
    s'.tasks.NoLostWakeup := by
  unfold waitForChild at h
  obtain ⟨⟨found, s₁⟩, hreap, hrest⟩ := Option.bind_eq_some_iff.mp h
  cases found with
  | some child => exact ((calm_reapChild hreap).trans (calm_afterWait hrest)).noLostWakeup hn
  | none =>
    have hnone : s.tasks.zombieChild s.current.pid = none ∧ s₁ = s := by
      unfold reapChild at hreap
      split at hreap
      · rename_i hnone
        exact ⟨hnone, (congrArg Prod.snd (Option.some.inj hreap)).symm⟩
      · obtain ⟨s₂, -, hreap⟩ := Option.bind_eq_some_iff.mp hreap
        cases hreap
    obtain ⟨hzombie, rfl⟩ := hnone
    have hno := Tasks.zombieChild_eq_none.mp hzombie
    refine (calm_schedule hrest).noLostWakeup ?_
    rintro ⟨p, hp, c, hc, hs, hz, heq⟩
    simp only [modifyCurrent] at hs hz heq
    -- The zombie is another task, and so is the task that waits, but for the running one.
    have hcr : c ≠ s₁.runningTask := fun hcr => by
      rw [hcr, Tasks.modify_self] at hz
      cases hz
    rw [Tasks.modify_of_ne _ _ _ hcr] at hz heq
    by_cases hpr : p = s₁.runningTask
    · rw [hpr, Tasks.modify_self] at heq
      exact hno c hc hz heq
    · rw [Tasks.modify_of_ne _ _ _ hpr] at hs heq
      exact hn ⟨p, hp, c, hc, hs, hz, heq⟩

theorem noLostWakeup_sysExit (hn : s.tasks.NoLostWakeup) (hw : s.tasks.WakesWaiters target)
    (h : s.sysExit target = some s') : s'.tasks.NoLostWakeup :=
  (calm_schedule h).noLostWakeup (hn.exit hw)

/-! ## Runs -/

/-- An exit wakes up whoever waits. -/
def ExitWakes (s : Sched) (op : SchedOp) : Prop :=
  match op with
  | .exit => s.tasks.WakesWaiters s.runningTask
  | .kill pid => s.tasks.WakesWaiters pid
  | _ => True

instance (s : Sched) (op : SchedOp) : Decidable (s.ExitWakes op) :=
  match op with
  | .exit => inferInstanceAs (Decidable (s.tasks.WakesWaiters s.runningTask))
  | .kill pid => inferInstanceAs (Decidable (s.tasks.WakesWaiters pid))
  | .fork | .wait | .sleep _ | .read | .yield | .resume | .tick | .enter => isTrue trivial

/-- An action whose exit wakes up whoever waits loses no wake-up. -/
theorem noLostWakeup_step (hn : s.tasks.NoLostWakeup) (hw : s.ExitWakes op)
    (h : s.step op = some s') : s'.tasks.NoLostWakeup := by
  unfold step at h
  split at h
  case h_1 => exact (calm_forkProcess h).noLostWakeup hn
  case h_2 => exact noLostWakeup_sysExit hn hw h
  case h_3 =>
    split_ifs at h
    exact noLostWakeup_sysExit hn hw h
  case h_4 | h_15 => exact noLostWakeup_waitForChild hn h
  case h_5 sec _ =>
    have hsec : Calm s.tasks (s.modifyCurrent fun x => { x with sleepSec := sec }).tasks :=
      Tasks.calm_modify_same rfl rfl rfl
    exact (hsec.trans (calm_block TaskState.noConfusion TaskState.noConfusion h)).noLostWakeup hn
  case h_6 | h_14 => exact (calm_scheduleTerminalTask h).noLostWakeup hn
  case h_7 | h_8 => exact (calm_schedule h).noLostWakeup hn
  case h_9 | h_10 => exact (calm_timerInt h).noLostWakeup hn
  case h_11 | h_12 => exact (calm_terminalHandler h).noLostWakeup hn
  case h_13 => exact (calm_waitForChildWoken h).noLostWakeup hn
  case h_16 => cases h

/-- No task waits at the start. -/
theorem noLostWakeup_start (h : start = some s) : s.tasks.NoLostWakeup := by
  obtain ⟨s₀, hs₀, hrep⟩ := rep_start
  obtain rfl : s = s₀ := by
    rw [h] at hs₀
    exact Option.some.inj hs₀
  rintro ⟨p, -, c, -, hs, -⟩
  rw [hrep.tasks] at hs
  replace hs : (Queues.startTasks p).taskState = .suspended := hs
  rcases Queues.lt_three_cases p with rfl | rfl | rfl | h3
  · exact absurd hs (by decide)
  · exact absurd hs (by decide)
  · exact absurd hs (by decide)
  · rw [Queues.startTasks_of_le h3] at hs
    cases hs

/-- In every run from the start whose exits wake up whoever waits, no wake-up is ever lost. -/
theorem no_lost_wakeup (s₀ : Sched) (h₀ : start = some s₀) (ops : List SchedOp)
    (hwakes : Along step ExitWakes s₀ ops) (t : Sched) (ht : Visits step s₀ ops t) :
    t.tasks.NoLostWakeup :=
  ht.invariant hwakes (fun _ _ _ hn hw hs => noLostWakeup_step hn hw hs) (noLostWakeup_start h₀)

/-- A run in which the exit of a child wakes up the shell. -/
theorem no_lost_wakeup_run : ∃ s₀, start = some s₀ ∧
    ∀ t, Visits step s₀ [.fork, .wait, .resume, .yield, .exit] t → t.tasks.NoLostWakeup := by
  obtain ⟨s₀, hs₀, -⟩ := rep_start
  have hwakes : (start.map fun s => decide
      (Along step ExitWakes s [.fork, .wait, .resume, .yield, .exit])) = some true := by
    decide +kernel
  rw [hs₀] at hwakes
  simp only [Option.map_some, Option.some.injEq, decide_eq_true_eq] at hwakes
  exact ⟨s₀, hs₀, no_lost_wakeup s₀ hs₀ _ hwakes⟩

/-- The shell creates a child, which creates one in turn. The grandchild exits, and then the child
exits: the zombie of the grandchild goes to the init task, which waits. -/
theorem orphan_zombie_unseen :
    ¬ ∀ (s₀ : Sched) (ops : List SchedOp), start = some s₀ →
      ∀ t, Visits step s₀ ops t → t.tasks.NoLostWakeup := by
  intro hall
  obtain ⟨s₀, hs₀, -⟩ := rep_start
  have hrun : ((start.bind (run step · [.fork, .yield, .resume, .yield, .fork, .yield, .yield,
      .yield, .exit, .exit])).map fun t =>
      (decide ((t.tasks 0).taskState = .suspended), decide ((t.tasks 4).taskState = .zombie),
        (t.tasks 4).ppid, (t.tasks 0).pid)) = some (true, true, 0, 0) := by decide +kernel
  rw [hs₀, Option.bind_some] at hrun
  obtain ⟨t, ht, hval⟩ := Option.map_eq_some_iff.mp hrun
  simp only [Prod.mk.injEq, decide_eq_true_eq] at hval
  obtain ⟨hs, hz, hppid, hpid⟩ := hval
  exact hall s₀ _ hs₀ t (visits_of_run ht)
    ⟨0, by decide, 4, by decide, hs, hz, hppid.trans hpid.symm⟩

end Sched

end Nascent
