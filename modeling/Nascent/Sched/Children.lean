import Nascent.Sched.Kin
import Nascent.Sched.Recycling

/-!
# Whom `wait_for_child` reports

The records of parenthood over whole runs. Neither `ppid` nor `parent_task` is dropped when the parent is
reaped: `sys_exit` leaves the `ppid` of a child that is ready as it is, and `parent_task` of every child. So a
PCB may be handed out while processes in the table still name it as their parent.

`wait_for_child` reports a process's own children, and each of them once, in every run in which no fork takes
such a PCB (`wait_reports_own`). Otherwise it may report a process that the caller has not forked
(`stranger_reported`).
-/

namespace Nascent

open Runs

namespace Queues

variable {a a' : Queues} {i busy target : ℕ} {op : SchedOp}

/-- Only the states of tasks have changed. -/
structure Quiet (a b : Queues) : Prop where
  /-- The tasks. -/
  tasks : Tasks.Quiet a.tasks b.tasks
  /-- The number of processes. -/
  born : b.born = a.born
  /-- The exits. -/
  exited : b.exited = a.exited
  /-- The reports. -/
  reported : b.reported = a.reported

theorem Quiet.trans {b d : Queues} (h : Quiet a b) (h' : Quiet b d) : Quiet a d :=
  ⟨h.tasks.trans h'.tasks, h'.born.trans h.born, h'.exited.trans h.exited, h'.reported.trans h.reported⟩

theorem Quiet.family {b : Queues} (hq : Quiet a b) (h : a.toCore.Family busy) : b.toCore.Family busy :=
  h.quiet hq.tasks hq.born hq.exited hq.reported

theorem quiet_schedule : Quiet a a.schedule := by
  unfold schedule
  split
  · exact ⟨Tasks.quiet_demote, rfl, rfl, rfl⟩
  · rename_i x hx
    have hready := (ready_mem hx).2
    have hrun : Tasks.Quiet a.tasks (a.tasks.setState x .running) :=
      Tasks.quiet_setState (by decide) (by rw [hready]; decide) (by rw [hready]; decide)
    exact ⟨hrun.trans Tasks.quiet_demote, rfl, rfl, rfl⟩

theorem Quiet.schedule {b : Queues} (h : Quiet a b) : Quiet a b.schedule := h.trans quiet_schedule

/-- A change of the running task. -/
theorem quiet_modifyCurrent {f : Task → Task}
    (hf : (f a.current).uid = a.current.uid ∧ (f a.current).pid = a.current.pid ∧
      (f a.current).ppid = a.current.ppid ∧ (f a.current).parentTask = a.current.parentTask ∧
      (f a.current).forker = a.current.forker)
    (hz : (f a.current).taskState = .zombie ↔ a.current.taskState = .zombie)
    (hw : (f a.current).cont = .waitForChild → (f a.current).taskState ≠ .suspended →
      a.current.cont = .waitForChild ∧ a.current.taskState ≠ .suspended) : Quiet a (a.modifyCurrent f) :=
  ⟨Tasks.quiet_modify hf hz hw, rfl, rfl, rfl⟩

/-- The running task goes on somewhere else. -/
theorem quiet_cont {cont : Cont} (hc : cont ≠ .waitForChild) :
    Quiet a (a.modifyCurrent fun x => { x with cont := cont }) :=
  quiet_modifyCurrent ⟨rfl, rfl, rfl, rfl, rfl⟩ Iff.rfl fun hw => absurd hw hc

/-- The running task is put to sleep. -/
theorem quiet_block {state : TaskState} {cont : Cont} (hlive : a.current.taskState ≠ .zombie)
    (hz : state ≠ .zombie) (hw : cont = .waitForChild → state = .suspended) : Quiet a (a.block state cont) := by
  have hq : Quiet a (a.modifyCurrent fun x => { x with taskState := state, cont := cont }) :=
    quiet_modifyCurrent ⟨rfl, rfl, rfl, rfl, rfl⟩ (iff_of_false hz hlive) fun hc hs => absurd (hw hc) hs
  exact hq.schedule

theorem quiet_scheduleTerminalTask (hlive : a.current.taskState ≠ .zombie) :
    Quiet a a.scheduleTerminalTask := by
  unfold scheduleTerminalTask
  split
  · have hq : Quiet a (a.modifyCurrent fun x => { x with cont := .user }) := quiet_cont (by decide)
    exact ⟨hq.tasks, rfl, rfl, rfl⟩
  · exact quiet_block hlive (by decide) fun hc => by cases hc

theorem quiet_terminalHandler : Quiet a a.terminalHandler := by
  unfold terminalHandler
  split
  · exact ⟨.refl _, rfl, rfl, rfl⟩
  · rename_i task htask
    have hwait : (a.tasks task).taskState = .wait := by simpa using List.find?_some htask
    refine ⟨Tasks.quiet_setState ?_ ?_ ?_, rfl, rfl, rfl⟩
    · decide
    · rw [hwait]
      decide
    · rw [hwait]
      decide

theorem quiet_timerInt : Quiet a a.timerInt := by
  unfold timerInt
  split
  · have hq : Quiet a { a with timerCount := 0, tasks := a.tasks.countDown a.list } :=
      ⟨Tasks.quiet_countDown a.list, rfl, rfl, rfl⟩
    exact hq.schedule
  · split
    · have hq : Quiet a { a with timerCount := 0 } := ⟨.refl _, rfl, rfl, rfl⟩
      exact hq.schedule
    · exact ⟨.refl _, rfl, rfl, rfl⟩

/-- The init task is a process. -/
theorem Settled.init_uid (h : a.Settled) : (a.tasks initTask).uid ≠ 0 := by
  rcases h.init with hm | ⟨hr, -⟩
  · exact h.uid_of_mem hm
  · exact hr ▸ h.running_uid

/-- `sys_exit` of a living process. -/
theorem family_sysExit (h : a.toCore.Family initTask) (ho : a.Settled) (hlt : target < numPcb)
    (hu : (a.tasks target).uid ≠ 0) (hlive : (a.tasks target).taskState ≠ .zombie) :
    (a.sysExit target).toCore.Family initTask :=
  quiet_schedule.family (h.exit hlt hu hlive ho.init_uid rfl rfl rfl rfl)

/-- `fork_process` by a task in user mode. -/
theorem family_forkProcess (h : a.toCore.Family initTask) (ho : a.Settled) (hu : a.current.cont = .user)
    (hname : ∀ k ∈ a.free.head?, a.tasks.Unnamed k) (hf : a.forkProcess = some a') :
    a'.toCore.Family initTask := by
  obtain ⟨k, hk, hother, huid, hstate, hpid, hrec, hcont, hborn, hexited, hreported⟩ := forkProcess_child hf
  have hmem : k ∈ a.free := List.mem_of_mem_head? hk
  have hlt := ho.free_lt k hmem
  have hfree : (a.tasks k).uid = 0 := (ho.free_iff k hlt).mp hmem
  have hzombie : (a.tasks k).taskState ≠ .zombie := fun hz => ho.uid_of_zombie hlt hz hfree
  have hrk : a.runningTask ≠ k := fun hr => ho.running (hr ▸ hmem)
  obtain ⟨hppid, hparent, hforker⟩ := hrec hrk
  have hrpid : a.current.pid = (a.runningTask : ℕ) := h.kin.pid _ ho.running_lt ho.running_uid
  refine ⟨h.kin.fork hfree hzombie (hname k hk) ho.running_lt ho.running_uid (ho.not_kernel hu).1
    ho.init_uid hother huid (fun i hi => Nat.lt_succ_of_le (h.uid_le i hi)) hpid (hppid.trans hrpid) hparent
    hcont hforker, fun i hi => ?_, fun i hi hz => ?_, fun u hu => ?_, fun i hi hu => ?_⟩
  · rw [hborn]
    by_cases hik : i = k
    · rw [hik, huid]
    · rw [hother i hik]
      exact (h.uid_le i hi).trans (Nat.le_succ _)
  · rw [hexited]
    have hik : i ≠ k := by
      rintro rfl
      rw [hstate] at hz
      cases hz
    rw [hother i hik] at hz ⊢
    exact h.exited i hi hz
  · rw [hborn]
    exact (h.reported_le u (hreported ▸ hu)).trans (Nat.le_succ _)
  · rw [hreported]
    by_cases hik : i = k
    · rw [hik, huid]
      exact fun hmem => absurd (h.reported_le _ hmem) (Nat.not_succ_le_self _)
    · rw [hother i hik] at hu ⊢
      exact h.unreported i hi hu

/-! ## `wait_for_child` -/

/-- A zombie child of the running task is reaped by a loop of `wait_for_child`. -/
theorem family_reapChild (h : a.toCore.Family a.runningTask) (ho : a.Settled) (hr : a.runningTask ≠ idleTask)
    (hl : ∀ i, a.tasks.zombieChild a.current.pid = some i → i ∉ a.list) :
    a.reapChild.2.toCore.Family a.runningTask := by
  cases hc : a.tasks.zombieChild a.current.pid with
  | none =>
    rw [reapChild_of_none hc]
    exact h
  | some i =>
    obtain ⟨hi, hz, hppid⟩ := Tasks.zombieChild_spec hc
    have hrpid : a.current.pid = (a.runningTask : ℕ) := h.kin.pid _ ho.running_lt ho.running_uid
    have hinit : i ≠ initTask := by
      rintro rfl
      rcases ho.init with hm | ⟨hrun, -⟩
      · exact hl _ hc hm
      · exact ho.ne_running hr hz hrun.symm
    rw [reapChild_of_some hc]
    refine h.clear hi hinit (hppid.trans hrpid) rfl rfl rfl fun u hu => ?_
    exact List.mem_cons.mp hu

/-- `clean_child_pcb` by the init task. -/
theorem family_cleanChildPcb (h : a.toCore.Family initTask) (ho : a.Settled)
    (hr : a.runningTask = initTask) : a.cleanChildPcb.toCore.Family initTask := by
  have hlive : a.current.taskState ≠ .zombie := ho.alive (by rw [hr]; decide)
  have hrpid : a.current.pid = (initTask : ℕ) := by
    have hpid := h.kin.pid _ ho.running_lt ho.running_uid
    rw [Core.current, hpid, hr]
  refine (cleanChildPcb_induction (P := fun b => b.toCore.Family initTask ∧ Reaps a b) ⟨h, .refl a⟩
    fun b i hb hi hz hp => ?_).1
  obtain ⟨hfam, hreaps⟩ := hb
  have hne : i ≠ initTask := by
    rintro rfl
    refine hlive ?_
    rw [← hreaps.current, Core.current, hreaps.runningTask, hr]
    exact hz
  refine ⟨hfam.clear hi hne (hp.trans ?_) rfl rfl rfl fun u hu => .inr hu, hreaps.reap ?_⟩
  · rw [hreaps.current, hrpid]
  · rw [hreaps.runningTask, hr]
    exact hne

/-- What follows a return from `wait_for_child`. -/
theorem family_afterWait (h : a.toCore.Family a.runningTask) (ho : a.Settled)
    (hr : a.runningTask ≠ idleTask) : a.afterWait.toCore.Family initTask := by
  unfold afterWait
  split
  · rename_i hinit
    have hq : Quiet a (a.modifyCurrent fun x => { x with cont := .initProcess }) := quiet_cont (by decide)
    rw [hinit] at h
    refine family_cleanChildPcb (hq.family h) ?_ hinit
    exact ho.modifyCurrent hr rfl (ho.alive hr) id fun _ => .inl rfl
  · have hq : Quiet a (a.modifyCurrent fun x => { x with cont := .user }) := quiet_cont (by decide)
    refine quiet_schedule.family ((hq.family h).done ?_)
    rw [modifyCurrent_tasks, Tasks.modify_self]
    exact Cont.noConfusion

/-- After a loop of `wait_for_child` that reaped only tasks off the list. -/
theorem family_afterWait_reapChild (h : a.toCore.Family initTask) (ho : a.Settled)
    (hr : a.runningTask ≠ idleTask) (hw : a.waits op = true) (hl : ∀ i ∈ a.reaped op, i ∉ a.list) :
    a.reapChild.2.afterWait.toCore.Family initTask := by
  have hl' : ∀ i, a.tasks.zombieChild a.current.pid = some i → i ∉ a.list := fun i hi =>
    hl i (Core.mem_reaped_of_zombieChild hw hi)
  obtain ⟨hset, hreaps⟩ := ho.reapChild hr hl'
  have hr' : a.reapChild.2.runningTask ≠ idleTask := by
    rw [hreaps.runningTask]
    exact hr
  refine family_afterWait ?_ hset hr'
  rw [hreaps.runningTask]
  exact family_reapChild h.weaken ho hr hl'

/-- `wait_for_child`. -/
theorem family_waitForChild (h : a.toCore.Family initTask) (ho : a.Settled) (hr : a.runningTask ≠ idleTask)
    (hw : a.waits op = true) (hl : ∀ i ∈ a.reaped op, i ∉ a.list) :
    a.waitForChild.toCore.Family initTask := by
  have hafter := family_afterWait_reapChild h ho hr hw hl
  unfold waitForChild
  cases hc : a.tasks.zombieChild a.current.pid with
  | none =>
    rw [reapChild_of_none hc]
    exact (quiet_block (ho.alive hr) (by decide) fun _ => rfl).family h
  | some i =>
    rw [reapChild_of_some hc] at hafter ⊢
    exact hafter

/-- An action keeps the records, where a fork takes no PCB that a process names as its parent. -/
theorem family_step (h : a.toCore.Family initTask) (ho : a.Settled) (hk : a.KillsLive op)
    (hl : ∀ i ∈ a.reaped op, i ∉ a.list)
    (hname : op = .fork → ∀ k ∈ a.free.head?, a.tasks.Unnamed k) (hs : a.step op = some a') :
    a'.toCore.Family initTask := by
  unfold step at hs
  split at hs
  case h_1 hu => exact family_forkProcess h ho hu (hname rfl) hs
  case h_2 hu =>
    obtain rfl := Option.some.inj hs
    exact family_sysExit h ho ho.running_lt ho.running_uid (ho.alive (ho.not_kernel hu).2)
  case h_3 pid hu =>
    split_ifs at hs with hlt
    obtain rfl := Option.some.inj hs
    exact family_sysExit h ho hlt hk.1 hk.2
  case h_4 hu =>
    obtain rfl := Option.some.inj hs
    exact family_waitForChild h ho (ho.not_kernel hu).2 (by simp [Core.waits, hu]) hl
  case h_5 sec hu =>
    obtain rfl := Option.some.inj hs
    have hlive := ho.alive (ho.not_kernel hu).2
    have hq : Quiet a (a.modifyCurrent fun x => { x with sleepSec := sec }) :=
      quiet_modifyCurrent ⟨rfl, rfl, rfl, rfl, rfl⟩ Iff.rfl fun hc hs => ⟨hc, hs⟩
    have hlive' : (a.modifyCurrent fun x => { x with sleepSec := sec }).current.taskState ≠ .zombie := by
      rw [Core.current, modifyCurrent_tasks, modifyCurrent_runningTask, Tasks.modify_self]
      exact hlive
    exact (hq.trans (quiet_block hlive' (by decide) fun hc => by cases hc)).family h
  case h_6 hu =>
    obtain rfl := Option.some.inj hs
    exact (quiet_scheduleTerminalTask (ho.alive (ho.not_kernel hu).2)).family h
  case h_7 | h_8 =>
    obtain rfl := Option.some.inj hs
    exact quiet_schedule.family h
  case h_9 | h_10 =>
    obtain rfl := Option.some.inj hs
    exact quiet_timerInt.family h
  case h_11 | h_12 =>
    obtain rfl := Option.some.inj hs
    exact quiet_terminalHandler.family h
  case h_13 hu =>
    obtain rfl := Option.some.inj hs
    have hr := ho.ne_idle (by rw [hu]; exact Cont.noConfusion)
    exact family_afterWait_reapChild h ho hr (by simp [Core.waits, hu]) hl
  case h_14 hu =>
    obtain rfl := Option.some.inj hs
    exact (quiet_scheduleTerminalTask (ho.alive (ho.ne_idle (by rw [hu]; exact Cont.noConfusion)))).family h
  case h_15 hu =>
    obtain rfl := Option.some.inj hs
    have hr := ho.ne_idle (by rw [hu]; exact Cont.noConfusion)
    exact family_waitForChild h ho hr (by simp [Core.waits, hu]) hl
  case h_16 => cases hs

/-! ## The running task -/

/-- A running task other than those of the kernel is not suspended. -/
def Awake (a : Queues) : Prop :=
  a.runningTask ≠ initTask → a.runningTask ≠ idleTask → a.current.taskState ≠ .suspended

theorem awake_schedule : a.schedule.Awake := by
  unfold schedule
  split
  · exact fun _ hne => absurd rfl hne
  · rename_i x hx
    intro _ _
    show (demote (a.tasks.setState x .running) a.runningTask x).taskState ≠ .suspended
    rw [demote_taskState, Tasks.setState_taskState, if_pos rfl]
    split <;> decide

/-- The running task and its state stay. -/
theorem Awake.congr {b : Queues} (h : a.Awake) (hr : b.runningTask = a.runningTask)
    (hs : b.current.taskState = a.current.taskState) : b.Awake := by
  intro hinit hidle
  rw [hs]
  exact h (hr ▸ hinit) (hr ▸ hidle)

theorem awake_afterWait : a.afterWait.Awake := by
  unfold afterWait
  split
  · rename_i hinit
    have hrun : (a.modifyCurrent fun x => { x with cont := .initProcess }).cleanChildPcb.runningTask =
        initTask :=
      cleanChildPcb_induction (P := fun b => b.runningTask = initTask) hinit fun b i hb _ _ _ => hb
    exact fun hne => absurd hrun hne
  · exact awake_schedule

/-- An action leaves a running task that is not suspended. -/
theorem awake_step (h : a.Awake) (ho : a.Settled) (hs : a.step op = some a') : a'.Awake := by
  have hwait : a.waitForChild.Awake := by
    unfold waitForChild
    split
    · exact awake_afterWait
    · exact awake_schedule
  have hterminal : a.scheduleTerminalTask.Awake := by
    unfold scheduleTerminalTask
    split
    · refine h.congr rfl ?_
      rw [Core.current, modifyCurrent_tasks, modifyCurrent_runningTask, Tasks.modify_self]
      rfl
    · exact awake_schedule
  have htimer : a.timerInt.Awake := by
    unfold timerInt
    split
    · exact awake_schedule
    · split
      · exact awake_schedule
      · exact h
  have henter : a.terminalHandler.Awake := by
    unfold terminalHandler
    split
    · exact h
    · rename_i task htask
      intro hinit hidle
      show (a.tasks.setState task .ready a.runningTask).taskState ≠ .suspended
      rw [Tasks.setState_taskState]
      split
      · decide
      · exact h hinit hidle
  unfold step at hs
  split at hs
  case h_1 hu =>
    obtain ⟨child, free, hfree, -, hrun, -, -, hother, -⟩ := forkProcess_spec hs
    have hne : a.runningTask ≠ child := fun hc => ho.running (hc ▸ hfree ▸ List.mem_cons_self ..)
    refine h.congr hrun ?_
    rw [Core.current, hrun, hother _ hne, Core.current]
  case h_2 | h_5 | h_7 | h_8 =>
    obtain rfl := Option.some.inj hs
    exact awake_schedule
  case h_3 =>
    split_ifs at hs
    obtain rfl := Option.some.inj hs
    exact awake_schedule
  case h_4 | h_15 =>
    obtain rfl := Option.some.inj hs
    exact hwait
  case h_6 | h_14 =>
    obtain rfl := Option.some.inj hs
    exact hterminal
  case h_9 | h_10 =>
    obtain rfl := Option.some.inj hs
    exact htimer
  case h_11 | h_12 =>
    obtain rfl := Option.some.inj hs
    exact henter
  case h_13 =>
    obtain rfl := Option.some.inj hs
    exact awake_afterWait
  case h_16 => cases hs

/-- A process at the start. -/
theorem lt_three_of_uid (hu : (startTasks i).uid ≠ 0) : i = 0 ∨ i = 1 ∨ i = 2 := by
  rcases lt_three_cases i with rfl | rfl | rfl | h3
  · exact .inl rfl
  · exact .inr (.inl rfl)
  · exact .inr (.inr rfl)
  · exact absurd (congrArg Task.uid (startTasks_of_le h3)) hu

/-- The records at the start. -/
theorem family_start : start.toCore.Family initTask := by
  have hzombie : ∀ i, (startTasks i).taskState ≠ .zombie := by
    intro i hz
    rcases lt_three_cases i with rfl | rfl | rfl | h3
    · exact absurd hz (by decide)
    · exact absurd hz (by decide)
    · exact absurd hz (by decide)
    · rw [startTasks_of_le h3] at hz
      cases hz
  have hppid : ∀ c, (startTasks c).uid ≠ 0 → (startTasks c).ppid = -1 := by
    intro c hu
    rcases lt_three_of_uid hu with rfl | rfl | rfl <;> decide
  refine ⟨⟨fun i _ hu => ?_, fun i _ j _ hu heq => ?_, fun i _ hu => ?_, fun p _ c _ _ _ huc hpp => ?_,
    fun p _ c _ _ _ _ huc _ hpar => ?_, fun p _ _ _ hu hc => ?_⟩, fun i _ => ?_,
    fun i _ hz => absurd hz (hzombie i), fun u hu => absurd hu List.not_mem_nil,
    fun i _ _ => List.not_mem_nil⟩
  · rcases lt_three_of_uid hu with rfl | rfl | rfl <;> decide
  · rcases lt_three_of_uid hu with rfl | rfl | rfl <;> rcases lt_three_of_uid (heq ▸ hu) with rfl | rfl | rfl <;>
      first | rfl | exact absurd heq (by decide)
  · rcases lt_three_of_uid hu with rfl | rfl | rfl <;> decide
  · have hneg : (-1 : ℤ) = p := (hppid c huc).symm.trans hpp
    omega
  · rcases lt_three_of_uid huc with rfl | rfl | rfl <;> exact absurd hpar nofun
  · rcases lt_three_of_uid hu with rfl | rfl | rfl <;> exact absurd hc (by decide)
  · rcases lt_three_cases i with rfl | rfl | rfl | h3
    · decide
    · decide
    · decide
    · show (startTasks i).uid ≤ 3
      rw [startTasks_of_le h3]
      exact Nat.zero_le _

end Queues

/-! ## Runs -/

namespace Sched

variable {s s' : Sched} {op : SchedOp}

/-- The running process has forked a process that is still in the table. -/
def HasChild (s : Sched) : Prop :=
  ∃ i < numPcb, (s.tasks i).uid ≠ 0 ∧ (s.tasks i).forker = s.current.uid

/-- A loop of `wait_for_child` that a process with a child goes through returns the pid of a process that it
has forked itself, which has exited and has not been reported, and the second loop always returns one. -/
def ReportsOwn (s : Sched) (op : SchedOp) : Prop :=
  s.waits op = true → s.HasChild → ∀ found s', s.reapChild = some (found, s') →
    match found with
    | some i => (s.tasks i).pid = i ∧ (s.tasks i).forker = s.current.uid ∧
        (s.tasks i).uid ∈ s.exited ∧ (s.tasks i).uid ∉ s.reported
    | none => s.current.cont ≠ .waitForChild

/-- A fork does not take a PCB that a process in the table names as its parent. -/
def ForksUnnamed (s : Sched) (op : SchedOp) : Prop :=
  match op with
  | .fork => ∀ k ∈ s.freePcbHead, s.tasks.Unnamed k
  | _ => True

instance (s : Sched) (op : SchedOp) : Decidable (s.ForksUnnamed op) :=
  match op with
  | .fork => match h : s.freePcbHead with
    | none => isTrue fun k hk => by
        rw [h] at hk
        cases hk
    | some k => decidable_of_iff (s.tasks.Unnamed k)
        ⟨fun hd k' hk' => by
          rw [h] at hk'
          exact Option.some.inj hk' ▸ hd, fun hd => hd k h⟩
  | .exit | .kill _ | .wait | .sleep _ | .read | .yield | .resume | .tick | .enter => isTrue trivial

/-- The lists are in order, and so are the records of parenthood. -/
def KinInOrder (s : Sched) : Prop := ∃ a, Rep s a ∧ a.Settled ∧ a.toCore.Family initTask ∧ a.Awake

/-- The value that a loop of `wait_for_child` returns. -/
theorem reapChild_found {found : Option ℕ} (h : s.reapChild = some (found, s')) :
    s.tasks.zombieChild s.current.pid = found := by
  unfold reapChild at h
  split at h
  · rename_i hnone
    rw [hnone]
    exact congrArg Prod.fst (Option.some.inj h)
  · rename_i child hsome
    obtain ⟨s₁, -, h⟩ := Option.bind_eq_some_iff.mp h
    rw [hsome]
    exact congrArg Prod.fst (Option.some.inj h)

/-- Where the records are in order, `wait_for_child` reports a process's own children. -/
theorem KinInOrder.reportsOwn (h : s.KinInOrder) (op : SchedOp) : s.ReportsOwn op := by
  obtain ⟨a, hrep, ho, hfam, hawake⟩ := h
  intro hw ⟨i, hi, hui, hforker⟩ found s' hreap
  have hfound := reapChild_found hreap
  rw [hrep.core] at hw hui hforker hfound ⊢
  have hkin := hfam.kin
  have hrlt := ho.running_lt
  have hru : (a.tasks a.runningTask).uid ≠ 0 := ho.running_uid
  -- The init task has forked nothing.
  have hninit : a.runningTask ≠ initTask := by
    intro hr
    rw [Core.current, hr] at hforker
    exact hkin.init i hi hui hforker
  have hnidle : a.runningTask ≠ idleTask := by
    intro hr
    have hcont : a.current.cont = .idleProcess := by
      rw [Core.current, hr]
      exact ho.idle_cont
    unfold Core.waits at hw
    rw [hcont] at hw
    cases op <;> cases hw
  have hrpid : a.current.pid = (a.runningTask : ℕ) := hkin.pid _ hrlt hru
  cases found with
  | some child =>
    obtain ⟨hc, hz, hppid⟩ := Tasks.zombieChild_spec hfound
    have huc := ho.uid_of_zombie hc hz
    exact ⟨hkin.pid child hc huc, hkin.ppid _ hrlt child hc hninit hru huc (hppid.trans hrpid),
      hfam.exited child hc hz, hfam.unreported child hc huc⟩
  | none =>
    intro hcont
    obtain ⟨c, hc, hz, hppid⟩ :=
      hkin.woken _ hrlt hninit hninit hru hcont (hawake hninit hnidle) (ho.alive hnidle)
    exact Tasks.zombieChild_eq_none.mp hfound c hc hz (hppid.trans hrpid.symm)

/-- An action keeps the records in order. -/
theorem KinInOrder.step (h : s.KinInOrder) (hk : s.KillsLive op) (hl : s.ReapsOffList op)
    (hf : s.ForksUnnamed op) (hs : s.step op = some s') : s'.KinInOrder := by
  obtain ⟨a, hrep, ho, hfam, hawake⟩ := h
  have hk' : a.KillsLive op := hrep.core ▸ hk
  have hl' : ∀ i ∈ a.reaped op, i ∉ a.list := by
    rw [← reaped_of_rep hrep]
    exact hl a.list (taskList_of_rep hrep ho.toOrderly)
  have hf' : op = .fork → ∀ k ∈ a.free.head?, a.tasks.Unnamed k := by
    rintro rfl k hk
    rw [← hrep.free.start_eq] at hk
    exact hrep.tasks ▸ hf k hk
  obtain ⟨a', hstep, hrep'⟩ := hrep.exists_queues ho hk' hl' hs
  exact ⟨a', hrep', ho.step hk' hl' hstep, Queues.family_step hfam ho hk' hl' hf' hstep,
    Queues.awake_step hawake ho hstep⟩

/-- The records are in order at the start. -/
theorem kinInOrder_start (h : start = some s) : s.KinInOrder := by
  obtain ⟨s₀, hs₀, hrep⟩ := rep_start
  obtain rfl : s = s₀ := by
    rw [h] at hs₀
    exact Option.some.inj hs₀
  exact ⟨Queues.start, hrep, Queues.settled_start, Queues.family_start, fun _ _ => by decide⟩

/-- In every run from the start that kills only living tasks, reaps no task that is on `overall_task_list`,
and in which no fork takes a PCB that a process in the table names as its parent, `wait_for_child` reports a
process's own children, each of them once, and never returns without one. -/
theorem wait_reports_own (s₀ : Sched) (h₀ : start = some s₀) (ops : List SchedOp)
    (hkill : Along step (fun s op => s.KillsLive op) s₀ ops)
    (hreap : Along step (fun s op => s.ReapsOffList op) s₀ ops)
    (hfork : Along step (fun s op => s.ForksUnnamed op) s₀ ops)
    (t : Sched) (ht : Visits step s₀ ops t) (op : SchedOp) : t.ReportsOwn op := by
  refine KinInOrder.reportsOwn (ht.invariant ((hkill.and hreap).and hfork) (fun s op s' hs hc hstep => ?_)
    (kinInOrder_start h₀)) op
  exact hs.step hc.1.1 hc.1.2 hc.2 hstep

/-- A run in which the shell waits for its child and reports it. -/
theorem wait_reports_own_run : ∃ s₀, start = some s₀ ∧
    ∀ t, Visits step s₀ [.fork, .wait, .resume, .yield, .exit] t → ∀ op, t.ReportsOwn op := by
  obtain ⟨s₀, hs₀, -⟩ := rep_start
  have hcond : (start.map fun s =>
      (decide (Along step (fun s op => s.KillsLive op) s [.fork, .wait, .resume, .yield, .exit]),
        decide (Along step (fun s op => s.ReapsOffList op) s [.fork, .wait, .resume, .yield, .exit]),
        decide (Along step (fun s op => s.ForksUnnamed op) s [.fork, .wait, .resume, .yield, .exit]))) =
      some (true, true, true) := by decide +kernel
  rw [hs₀] at hcond
  simp only [Option.map_some, Option.some.injEq, Prod.mk.injEq, decide_eq_true_eq] at hcond
  exact ⟨s₀, hs₀, fun t ht op => wait_reports_own s₀ hs₀ _ hcond.1 hcond.2.1 hcond.2.2 t ht op⟩

end Sched

/-! ## A PCB that is used again -/

namespace Queues

/-- The shell forks the process 3, which forks the process 4 and exits while this one is ready. Then the
process 4 exits, and the shell reaps the process 3 and another child, 5. -/
def orphanRun : List SchedOp :=
  [.fork, .yield, .resume, .yield, .fork, .exit, .fork, .wait, .yield, .exit, .exit, .wait, .yield]

/-- What the run leaves: the process 4 is a zombie that names the PCB 3 as its parent, and this PCB is free
behind the PCBs `ks` that were not used yet. -/
structure Orphaned (a : Queues) (k : ℕ) (ks : List ℕ) : Prop where
  /-- The shell runs. -/
  runningTask : a.runningTask = 2
  /-- It is in user mode. -/
  shell : a.current.cont = .user ∧ a.current.taskState = .running ∧ a.current.pid = 2 ∧ a.current.ppid = -1
  /-- The list. -/
  list : a.list = [0, 1]
  /-- The free PCBs. -/
  free : a.free = (k :: ks ++ [3]) ++ [5]
  /-- The number of processes so far. -/
  born : a.born = 6
  /-- The init task waits. -/
  init : (a.tasks 0).taskState = .suspended ∧ (a.tasks 0).ppid = -1
  /-- The idle task is ready. -/
  idle : (a.tasks 1).taskState = .ready ∧ (a.tasks 1).cont = .idleProcess ∧ (a.tasks 1).ppid = -1
  /-- The orphan. -/
  orphan : (a.tasks 4).taskState = .zombie ∧ (a.tasks 4).ppid = 3 ∧ (a.tasks 4).forker = 4
  /-- The unused PCBs are distinct. -/
  nodup : (k :: ks).Nodup
  /-- They are the PCBs from 6 on. -/
  unused : ∀ i, i ∈ k :: ks ↔ 6 ≤ i ∧ i < numPcb

theorem orphaned_run : ∃ a, run step start orphanRun = some a ∧ a.Orphaned 6 (List.range' 7 993) := by
  have hlists : ((run step start orphanRun).map fun a => (a.runningTask, a.list, a.free, a.born)) =
      some (2, [0, 1], (6 :: List.range' 7 993 ++ [3]) ++ [5], 6) := by decide +kernel
  have hshell : ((run step start orphanRun).map fun a => (decide (a.current.cont = .user),
      decide (a.current.taskState = .running), a.current.pid, a.current.ppid)) =
      some (true, true, 2, -1) := by decide +kernel
  have hkernel : ((run step start orphanRun).map fun a => (decide ((a.tasks 0).taskState = .suspended),
      (a.tasks 0).ppid, decide ((a.tasks 1).taskState = .ready), decide ((a.tasks 1).cont = .idleProcess),
      (a.tasks 1).ppid)) = some (true, -1, true, true, -1) := by decide +kernel
  have horphan : ((run step start orphanRun).map fun a => (decide ((a.tasks 4).taskState = .zombie),
      (a.tasks 4).ppid, (a.tasks 4).forker)) = some (true, 3, 4) := by decide +kernel
  obtain ⟨a, ha, hval⟩ := Option.map_eq_some_iff.mp hlists
  rw [ha, Option.map_some, Option.some.injEq] at hshell hkernel horphan
  simp only [Prod.mk.injEq, decide_eq_true_eq] at hval hshell hkernel horphan
  obtain ⟨hr, hlist, hfree, hborn⟩ := hval
  obtain ⟨hinit, hinit', hidle⟩ := hkernel
  refine ⟨a, ha, hr, hshell, hlist, hfree, hborn, ⟨hinit, hinit'⟩, hidle, horphan,
    List.nodup_range' (s := 6) (n := 994), fun i => ?_⟩
  rw [List.mem_cons, List.mem_range'_1, numPcb]
  omega

theorem along_orphanRun :
    Along step (fun a op => a.KillsLive op ∧ ∀ i ∈ a.reaped op, i ∉ a.list) start orphanRun := by
  decide +kernel

/-- The shell forks children until the PCB 3 is used again, and these run. -/
theorem Orphaned.crowd {a : Queues} {k : ℕ} {ks : List ℕ} (h : a.Orphaned k ks) :
    ∃ b, run step a (List.replicate (k :: ks ++ [3]).length .fork ++ [.yield, .yield]) = some b ∧
      b.runningTask = k ∧ Leaving b 0 2 ks 3 [2, 1] ∧ b.free = [5] ∧
      (∀ i < 3, (b.tasks i).taskState ≠ .zombie ∧ (b.tasks i).ppid = -1) ∧ b.tasks 4 = a.tasks 4 ∧
      IsChildOf (b.tasks 3) 3 2 2 ∧ 6 < (b.tasks 3).uid := by
  have hge : ∀ i ∈ k :: ks ++ [3], 3 ≤ i ∧ i ≠ 4 := by
    intro i hi
    rcases List.mem_append.mp hi with hi | hi
    · have := (h.unused i).mp hi
      omega
    · rw [List.mem_singleton.mp hi]
      decide
  have hnd : (k :: ks ++ [3]).Nodup := by
    refine List.nodup_append.mpr ⟨h.nodup, List.nodup_singleton 3, fun i hi j hj hij => ?_⟩
    have := (h.unused i).mp hi
    rw [List.mem_singleton.mp hj] at hij
    omega
  have hlist : ∀ i ∈ k :: ks ++ [3], i ∉ a.list := by
    intro i hi hm
    have := (hge i hi).1
    rw [h.list] at hm
    simp at hm
    omega
  have hrun : a.runningTask ∉ k :: ks ++ [3] := fun hm => by
    have := (hge _ hm).1
    rw [h.runningTask] at this
    omega
  obtain ⟨b, hb, hbr, hbl, hbf, hbb, hother, hchild⟩ := run_forks h.shell.1 h.free hnd hrun hlist
  rw [h.runningTask] at hbr hchild
  rw [h.shell.2.2.1] at hchild
  rw [h.list] at hbl
  have hb2 : b.tasks 2 = a.tasks 2 := hother 2 fun hm => absurd (hge 2 hm).1 (by decide)
  have hb1 : b.tasks 1 = a.tasks 1 := hother 1 fun hm => absurd (hge 1 hm).1 (by decide)
  have hb0 : b.tasks 0 = a.tasks 0 := hother 0 fun hm => absurd (hge 0 hm).1 (by decide)
  have hcur : b.current = a.current := by rw [Core.current, Core.current, hbr, hb2, h.runningTask]
  have hnot : ∀ j < 3, j ∉ k :: ks ++ [3] := fun j hj hm => by
    have := (hge j hm).1
    omega
  -- The idle task runs, and then the first of the children.
  have hbl' : b.list = [0] ++ 1 :: (k :: ks ++ [3]) := hbl
  have hbr' : b.runningTask ∉ b.list := by
    rw [hbl, hbr]
    simpa using hnot 2 (by decide)
  have hb0' : ∀ i ∈ [0], (b.tasks i).taskState ≠ .ready := by
    intro i hi
    rw [List.mem_singleton.mp hi, hb0, h.init.1]
    decide
  obtain ⟨c, hc, hcr, hcl, hcf, hcother, hc1, hc2⟩ := step_yield (.inl (hcur ▸ h.shell.1))
    (hcur ▸ h.shell.2.1) hbr' hbl' hb0' (List.cons_ne_nil _ _) (by rw [hb1]; exact h.idle.1)
  rw [hbr] at hcl hcother hc2
  have hccur : c.current = { a.tasks 1 with taskState := .running } := by rw [Core.current, hcr, hc1, hb1]
  have hk := (hchild k (by simp)).1
  have hk3 : 6 ≤ k := ((h.unused k).mp (List.mem_cons_self ..)).1
  have hcl' : c.list = [0] ++ k :: (ks ++ [3, 2]) := by
    rw [hcl]
    simp
  have hcr' : c.runningTask ∉ c.list := by
    rw [hcl, hcr]
    simpa using hnot 1 (by decide)
  have hc0' : ∀ i ∈ [0], (c.tasks i).taskState ≠ .ready := by
    intro i hi
    rw [List.mem_singleton.mp hi, hcother 0 (by decide) (by decide)]
    exact hb0' 0 (List.mem_singleton_self 0)
  have hck : c.tasks k = b.tasks k := hcother k (by omega) (by omega)
  obtain ⟨d, hd, hdr, hdl, hdf, hdother, hdk, hd1⟩ := step_yield (.inr (by rw [hccur]; exact h.idle.2.1))
    (by rw [hccur]) hcr' hcl' hc0' (List.cons_ne_nil _ _) (by rw [hck]; exact hk.taskState)
  rw [hcr] at hdl hdother hd1
  -- The tasks that have not run are as the forks have left them.
  have hkept : ∀ i, i ≠ 1 → i ≠ 2 → i ≠ k → d.tasks i = b.tasks i := fun i h1 h2 hik => by
    rw [hdother i h1 hik, hcother i h2 h1]
  have hd0 : d.tasks 0 = a.tasks 0 := by rw [hkept 0 (by decide) (by decide) (by omega), hb0]
  have hd3 : d.tasks 3 = b.tasks 3 := hkept 3 (by decide) (by decide) (by omega)
  have hd2 : d.tasks 2 = { a.tasks 2 with taskState := .ready } := by
    rw [hdother 2 (by decide) (by omega), hc2, hcur, Core.current, h.runningTask]
  have hd1' : d.tasks 1 = { a.tasks 1 with taskState := .ready } := by rw [hd1, hccur]
  have hdcur : d.current = { b.tasks k with taskState := .running } := by rw [Core.current, hdr, hdk, hck]
  have h2 : (a.tasks 2).ppid = -1 := by
    have hppid := h.shell.2.2.2
    rwa [Core.current, h.runningTask] at hppid
  have hchild3 := hchild 3 (by simp)
  refine ⟨d, ?_, hdr, ?_, hdf.trans (hcf.trans hbf), fun i hi => ?_, ?_, ?_, ?_⟩
  · rw [run_append, hb, Option.bind_some, run_cons, hc, Option.bind_some, run_cons, hd]
    rfl
  · have hdl' : d.list = [0] ++ (ks ++ 3 :: [2, 1]) := by
      rw [hdl]
      simp
    have hks : ∀ j ∈ ks, 6 ≤ j := fun j hj => ((h.unused j).mp (List.mem_cons_of_mem _ hj)).1
    have hkks : ∀ j ∈ k :: ks, 6 ≤ j := fun j hj => ((h.unused j).mp hj).1
    refine ⟨by rw [hdcur]; exact hk.cont, by rw [hdcur, hdr]; exact hk.pid, by rw [hdcur]; exact hk.ppid,
      by rw [hdcur]; exact hk.parentTask, hdl', ?_, ?_, ?_, fun j hj => ?_, ?_, ?_, ?_, ?_⟩
    · rw [hdl']
      refine List.nodup_append.mpr ⟨List.nodup_singleton 0, List.nodup_append.mpr
        ⟨(List.nodup_cons.mp h.nodup).2, by decide, fun i hi j hj hij => ?_⟩, fun i hi j hj hij => ?_⟩
      · have := hks i hi
        simp at hj
        omega
      · rcases List.mem_append.mp hj with hj | hj
        · have := hks j hj
          simp at hi
          omega
        · simp at hi hj
          omega
    · rw [hdl', hdr]
      intro hm
      rcases List.mem_append.mp hm with hm | hm
      · simp at hm
        omega
      · rcases List.mem_append.mp hm with hm | hm
        · exact (List.nodup_cons.mp h.nodup).1 hm
        · simp at hm
          omega
    · rw [hd0, h.init.1]
      decide
    · have hjk : j ≠ k := fun heq => (List.nodup_cons.mp h.nodup).1 (heq ▸ hj)
      have := hks j hj
      rw [hkept j (by omega) (by omega) hjk]
      exact (hchild j (by simp [hj])).1
    · rw [hd3]
      exact hchild3.1.taskState
    · rw [hd2]
      exact TaskState.noConfusion
    · intro i hi j hj heq
      have hj := hkks j (hdr ▸ hj)
      simp only [List.mem_cons, List.not_mem_nil, or_false] at hi
      rcases hi with rfl | rfl | rfl
      · rw [hd0, h.init.2] at heq
        omega
      · rw [hd3, hchild3.1.ppid] at heq
        omega
      · rw [hd2, h2] at heq
        omega
    · intro hm
      have := hkks 2 (hdr ▸ hm)
      omega
  · have hi : i = 0 ∨ i = 1 ∨ i = 2 := by omega
    rcases hi with rfl | rfl | rfl
    · rw [hd0, h.init.1]
      exact ⟨by decide, h.init.2⟩
    · rw [hd1']
      exact ⟨TaskState.noConfusion, h.idle.2.2⟩
    · rw [hd2]
      exact ⟨TaskState.noConfusion, h2⟩
  · rw [hkept 4 (by decide) (by decide) (by omega)]
    exact hother 4 fun hm => (hge 4 hm).2 rfl
  · rw [hd3]
    exact hchild3.1
  · rw [hd3, ← h.born]
    exact hchild3.2

/-- The children exit, and the process in the PCB 3, once it runs, forks one. -/
theorem Orphaned.stranger {a : Queues} {k : ℕ} {ks : List ℕ} (h : a.Orphaned k ks) :
    ∃ b ops, run step a ops = some b ∧ (∀ op ∈ ops, Plain op) ∧ b.runningTask = 3 ∧ b.list = [0, 2, 1, 5] ∧
      b.current.cont = .user ∧ b.current.pid = 3 ∧ 6 < b.current.uid ∧ (b.tasks 5).uid ≠ 0 ∧
      (b.tasks 5).forker = b.current.uid ∧ (b.tasks 4).taskState = .zombie ∧ (b.tasks 4).ppid = 3 ∧
      (b.tasks 4).forker = 4 ∧
      ∀ i < numPcb, (b.tasks i).taskState = .zombie → (b.tasks i).ppid = 3 → i = 4 := by
  obtain ⟨b, hb, hbr, hleave, hbf, hkernel, hb4, hb3, hb3u⟩ := h.crowd
  obtain ⟨c, hc, hcr, hcl, hcf, hother, hc3, hppid⟩ := hleave.exit_all
  rw [hbr] at hother hppid
  have hccur : c.current = { b.tasks 3 with taskState := .running } := by rw [Core.current, hcr, hc3]
  have hcfree : c.free = 5 :: [] := hcf.trans hbf
  obtain ⟨d, hd, hdr, hdl, -, -, hdother, hd5, hd5u, hd5f⟩ := step_fork (by rw [hccur]; exact hb3.cont)
    hcfree (by rw [hcr]; decide) (by rw [hcl]; decide)
  have hge : ∀ j ∈ k :: ks, 6 ≤ j := fun j hj => ((h.unused j).mp hj).1
  have hdcur : d.current = { b.tasks 3 with taskState := .running } := by
    rw [Core.current, hdr, hcr, hdother 3 (by decide), ← hccur, Core.current, hcr]
  -- The kernel's tasks, the shell, and the orphan are as they were.
  have hkept : ∀ i < 5, i ≠ 3 → d.tasks i = b.tasks i := by
    intro i hi h3
    rw [hdother i (by omega)]
    refine hother i (fun hm => by have := hge i hm; omega) h3 fun j hj heq => ?_
    have hj := hge j hj
    by_cases h4 : i = 4
    · rw [h4, hb4, h.orphan.2.1] at heq
      omega
    · rw [(hkernel i (by omega)).2] at heq
      omega
  have hd4 : d.tasks 4 = a.tasks 4 := (hkept 4 (by decide) (by decide)).trans hb4
  refine ⟨d, List.replicate (k :: ks ++ [3]).length .fork ++ [.yield, .yield] ++
    (List.replicate (ks.length + 1) .exit ++ [.fork]), ?_, ?_, hdr.trans hcr, ?_, ?_, ?_, ?_, ?_, ?_, ?_, ?_, ?_,
    fun i hi hz hp => ?_⟩
  · rw [run_append, hb, Option.bind_some, run_append, hc, Option.bind_some, run_cons, hd]
    rfl
  · intro op hop
    simp only [List.mem_append, List.mem_replicate, List.mem_cons, List.not_mem_nil, or_false] at hop
    rw [Plain]
    tauto
  · rw [hdl, hcl]
    rfl
  · rw [hdcur]
    exact hb3.cont
  · rw [hdcur]
    exact hb3.pid
  · rw [hdcur]
    exact hb3u
  · rw [hd5u]
    exact Nat.succ_ne_zero _
  · rw [hd5f, hccur, hdcur]
  · rw [hd4]
    exact h.orphan.1
  · rw [hd4]
    exact h.orphan.2.1
  · rw [hd4]
    exact h.orphan.2.2
  · by_contra h4
    have hcase : i < 3 ∨ i = 3 ∨ i = 5 ∨ i ∈ k :: ks := by
      rw [h.unused]
      omega
    rcases hcase with h3 | rfl | rfl | hm
    · rw [hkept i (by omega) (by omega)] at hz
      exact (hkernel i h3).1 hz
    · have hrunning : (d.tasks 3).taskState = .running := by rw [hdother 3 (by decide), hc3]
      rw [hz] at hrunning
      cases hrunning
    · rw [hd5.taskState] at hz
      cases hz
    · have := hge i hm
      rw [hdother i (by omega), hppid i hm] at hp
      exact absurd hp (by decide)

end Queues

namespace Sched

/-- The process in the PCB 3 waits while its own child is ready, and the orphan of the process that had this
PCB before is reported to it. -/
theorem stranger_reported : ¬ ∀ (s₀ : Sched) (ops : List SchedOp), start = some s₀ →
    ∀ t, Visits step s₀ ops t → ∀ op, t.ReportsOwn op := by
  intro hall
  obtain ⟨s₀, hs₀, hrep⟩ := rep_start
  obtain ⟨a, hrun, horphaned⟩ := Queues.orphaned_run
  obtain ⟨s, hs, hrep, ho⟩ := rep_run hrep Queues.settled_start Queues.along_orphanRun hrun
  obtain ⟨b, ops, hops, hplain, hr, hlist, hcont, hpid, huid, h5, h5f, h4z, h4p, h4f, honly⟩ :=
    horphaned.stranger
  obtain ⟨t, ht, hrep, ho⟩ := rep_run_plain hrep ho hplain hops
  have hvisit : run step s₀ (Queues.orphanRun ++ ops) = some t := by
    rw [run_append, hs, Option.bind_some, ht]
  -- The loop finds the orphan.
  obtain ⟨i, hi⟩ : ∃ i, b.tasks.zombieChild b.current.pid = some i := by
    cases hc : b.tasks.zombieChild b.current.pid with
    | none => exact absurd (h4p.trans hpid.symm) (Tasks.zombieChild_eq_none.mp hc 4 (by decide) h4z)
    | some i => exact ⟨i, rfl⟩
  obtain ⟨hlt, hz, hp⟩ := Tasks.zombieChild_spec hi
  obtain rfl : i = 4 := honly i hlt hz (hp.trans hpid)
  obtain ⟨t', hreap, -⟩ := hrep.reapChild ho (by rw [hr]; decide) fun j hj => by
    obtain rfl : j = 4 := Option.some.inj (hj.symm.trans hi)
    rw [hlist]
    decide
  rw [Queues.reapChild_of_some hi] at hreap
  have hchild : t.HasChild := ⟨5, by decide, by rw [hrep.tasks]; exact h5, by rw [hrep.tasks, hrep.current, h5f]⟩
  have hwaits : t.waits .wait = true := by
    unfold Core.waits
    rw [hrep.current, hcont]
  have hown := (hall s₀ _ hs₀ t (visits_of_run hvisit) .wait hwaits hchild _ _ hreap).2.1
  rw [hrep.tasks, hrep.current, h4f] at hown
  omega

end Sched

end Nascent
