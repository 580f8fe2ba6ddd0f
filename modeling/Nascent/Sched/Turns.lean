import Nascent.Lib.Turns
import Nascent.Sched.Sleep

/-!
# How long a task waits for the processor

`fetch_ready_task` takes the first ready task of `overall_task_list`, and `add_to_task_list` puts a task at
its end. A task that is ready moves up by one place at each call of `schedule`, unless it is its turn, and
nothing ever comes in front of it. So it runs after as many calls as there are tasks in front of it, and one
more (`ready_task_runs`).

The timer calls `schedule` once a second, so that the tasks in front of a task are also a bound on the seconds
that it waits, whatever the other tasks do.
-/

namespace Nascent

open Runs
open Turns

namespace Core

/-- `wait_for_child`, with what follows its return, calls `schedule`: it suspends the task where there is no
zombie, and a user task calls `schedule` after its return too. -/
def waitSchedules (c : Core) : Bool :=
  (c.tasks.zombieChild c.current.pid).isNone || decide (c.runningTask ≠ initTask)

/-- What a task does where it goes on after a call of `schedule` calls it again. -/
def resumeSchedules (c : Core) : Bool :=
  match c.current.cont with
  | .waitForChild => decide (c.runningTask ≠ initTask)
  | .readBuffer => decide (c.terminalLineCount = 0)
  | .initProcess => c.waitSchedules
  | .user | .idleProcess => false

/-- The action calls `schedule`. -/
def schedules (c : Core) : SchedOp → Bool
  | .fork | .enter => false
  | .exit | .kill _ | .sleep _ | .yield => true
  | .wait => c.waitSchedules
  | .read => decide (c.terminalLineCount = 0)
  | .resume => c.resumeSchedules
  | .tick => decide (c.timerCount = 18 ∨ c.timerCount = -1)

end Core

namespace Queues

variable {a b : Queues} {i child target : ℕ} {op : SchedOp}

/-! ## One action -/

/-- A task that is ready and waits on the list. -/
structure Queued (i : ℕ) (a : Queues) : Prop where
  /-- It is on the list. -/
  mem : i ∈ a.list
  /-- It is ready. -/
  ready : (a.tasks i).taskState = .ready
  /-- It does not run. -/
  runningTask : i ≠ a.runningTask

/-- The task runs, or it is still on the list and has moved up, by a place or more where it was a turn. -/
def Advances (i : ℕ) (a b : Queues) (turn : Bool) : Prop :=
  b.runningTask = i ∨ (i ∈ b.list ∧ b.list.idxOf i + turn.toNat ≤ a.list.idxOf i)

theorem advances_of_list (h : Queued i a) (hlist : b.list = a.list) : Advances i a b false := by
  refine .inr ⟨hlist ▸ h.mem, ?_⟩
  rw [hlist]
  exact le_rfl

/-- A call of `schedule`, after the tasks have changed. -/
theorem advances_schedule (h : Queued i a) (hlist : b.list = a.list) (hready : (b.tasks i).taskState = .ready) :
    Advances i a b.schedule true := by
  have hmem : i ∈ b.list := hlist ▸ h.mem
  unfold schedule
  cases hx : b.ready with
  | none => exact absurd hready (ready_none hx hmem)
  | some x =>
    by_cases hxi : x = i
    · exact .inl hxi
    · have hturn : (b.list.erase x).idxOf i + 1 = b.list.idxOf i :=
        idxOf_erase_find? hmem (by simpa using hready) hx hxi
      have herase : i ∈ b.list.erase x := (List.mem_erase_of_ne (Ne.symm hxi)).mpr hmem
      refine .inr ⟨mem_addToTaskList_of_mem herase, ?_⟩
      rw [Bool.toNat_true, ← hlist, ← hturn]
      -- The task that ran is put behind the others.
      have hlast : ∀ last behind, ((b.take x).addToTaskList last behind).list.idxOf i =
          (b.list.erase x).idxOf i := by
        intro last behind
        unfold addToTaskList
        dsimp only
        split_ifs with h1 h2
        · rfl
        · exact absurd (h2 ▸ herase : i ∈ ([] : List ℕ)) List.not_mem_nil
        · exact List.idxOf_append_of_mem herase
      exact (Nat.succ_le_succ (hlast _ _).le)

theorem cleanChildPcb_list (a : Queues) : a.cleanChildPcb.list = a.list :=
  cleanChildPcb_induction (P := fun b => b.list = a.list) rfl fun _ _ hb _ _ _ => hb

theorem reapChild_list (a : Queues) : a.reapChild.2.list = a.list := by
  cases hc : a.tasks.zombieChild a.current.pid with
  | none => rw [reapChild_of_none hc]
  | some child => rw [reapChild_of_some hc]; rfl

/-- The tasks and the running task are those of `a`, as far as the task `i` is concerned, and so is the list. -/
structure Idles (i : ℕ) (a b : Queues) : Prop extends Keeps i a.toCore b.toCore where
  /-- The list. -/
  list : b.list = a.list

theorem Idles.refl (a : Queues) : Idles i a a := ⟨.refl a.toCore, rfl⟩

theorem Idles.modifyCurrent {f : Task → Task} (h : Idles i a b) (hi : i ≠ a.runningTask) :
    Idles i a (b.modifyCurrent f) := ⟨h.toKeeps.modifyCurrent hi, h.list⟩

theorem Idles.schedule (h : Idles i a b) (hq : Queued i a) : Advances i a b.schedule true :=
  advances_schedule hq h.list (h.rests.taskState.trans hq.ready)

theorem Idles.block {state : TaskState} {cont : Cont} (h : Idles i a b) (hq : Queued i a) :
    Advances i a (b.block state cont) true := (h.modifyCurrent hq.runningTask).schedule hq

/-- What follows a return from `wait_for_child`. -/
theorem Idles.afterWait (h : Idles i a b) (hq : Queued i a) :
    Advances i a b.afterWait (decide (a.runningTask ≠ initTask)) := by
  unfold Queues.afterWait
  rw [h.runningTask]
  split_ifs with hinit
  · rw [decide_eq_false (not_not_intro hinit)]
    exact advances_of_list hq ((cleanChildPcb_list _).trans h.list)
  · rw [decide_eq_true hinit]
    exact (h.modifyCurrent hq.runningTask).schedule hq

theorem Queued.live (hq : Queued i a) : (a.tasks i).taskState ≠ .zombie := by
  rw [hq.ready]
  exact TaskState.noConfusion

theorem Idles.reapChild (hq : Queued i a) : Idles i a a.reapChild.2 :=
  ⟨(Keeps.refl a.toCore).reapChild hq.live, reapChild_list a⟩

theorem advances_waitForChild (hq : Queued i a) : Advances i a a.waitForChild a.waitSchedules := by
  have hidles := Idles.reapChild hq
  unfold waitForChild Core.waitSchedules
  cases hc : a.tasks.zombieChild a.current.pid with
  | none =>
    rw [reapChild_of_none hc] at hidles ⊢
    exact hidles.block hq
  | some child =>
    rw [reapChild_of_some hc] at hidles ⊢
    exact hidles.afterWait hq

theorem advances_scheduleTerminalTask (hq : Queued i a) :
    Advances i a a.scheduleTerminalTask (decide (a.terminalLineCount = 0)) := by
  unfold scheduleTerminalTask
  split_ifs with hcount
  · rw [decide_eq_false hcount]
    exact advances_of_list hq rfl
  · rw [decide_eq_true (not_not.mp hcount)]
    exact (Idles.refl a).block hq

theorem advances_terminalHandler (hq : Queued i a) : Advances i a a.terminalHandler false := by
  unfold terminalHandler
  split
  · exact advances_of_list hq rfl
  · exact advances_of_list hq rfl

theorem advances_timerInt (hq : Queued i a) :
    Advances i a a.timerInt (decide (a.timerCount = 18 ∨ a.timerCount = -1)) := by
  unfold timerInt
  split_ifs with h18 hnone
  · rw [decide_eq_true (.inl h18)]
    refine advances_schedule hq rfl ?_
    have hsame : a.tasks.countDown a.list i = a.tasks i :=
      Tasks.countDown_of_not_sleep (by rw [hq.ready]; exact TaskState.noConfusion)
    exact (congrArg Task.taskState hsame).trans hq.ready
  · rw [decide_eq_true (.inr hnone)]
    exact advances_schedule hq rfl hq.ready
  · rw [decide_eq_false (not_or.mpr ⟨h18, hnone⟩)]
    exact advances_of_list hq rfl

theorem advances_sysExit (hq : Queued i a) (ht : i ≠ target) : Advances i a (a.sysExit target) true := by
  have hrests := Tasks.rests_exit (t := a.tasks) ht (by rw [hq.ready]; exact TaskState.noConfusion)
  have hready : (a.tasks.exit target i).taskState = .ready := hrests.taskState.trans hq.ready
  unfold sysExit
  exact advances_schedule (b := { a with
    tasks := a.tasks.exit target, exited := (a.tasks target).uid :: a.exited }) hq rfl hready

/-- A new task is put behind the others. -/
theorem advances_forkProcess (hq : Queued i a) (hf : a.forkProcess = some b) : Advances i a b false := by
  obtain ⟨child, -, -, -, -, -, hlist, -⟩ := forkProcess_spec hf
  have hsame : i ∈ b.list ∧ b.list.idxOf i = a.list.idxOf i := by
    rw [hlist]
    split_ifs
    · exact ⟨hq.mem, rfl⟩
    · exact ⟨List.mem_append_left _ hq.mem, List.idxOf_append_of_mem hq.mem⟩
  exact .inr ⟨hsame.1, hsame.2.le⟩

/-- A task goes on after a call of `schedule`. -/
theorem advances_resume (hq : Queued i a) (hs : a.step .resume = some b) : Advances i a b a.resumeSchedules := by
  unfold Queues.step at hs
  unfold Core.resumeSchedules
  cases hc : a.current.cont with
  | waitForChild =>
    rw [hc] at hs
    obtain rfl := Option.some.inj hs
    exact (Idles.reapChild hq).afterWait hq
  | readBuffer =>
    rw [hc] at hs
    obtain rfl := Option.some.inj hs
    exact advances_scheduleTerminalTask hq
  | initProcess =>
    rw [hc] at hs
    obtain rfl := Option.some.inj hs
    exact advances_waitForChild hq
  | user | idleProcess =>
    rw [hc] at hs
    cases hs

/-- An action other than an interrupt, a yield, and going on is one of a task in user mode. -/
theorem user_of_step (hs : a.step op = some b) (hop : op ≠ .yield ∧ op ≠ .resume ∧ op ≠ .tick ∧ op ≠ .enter) :
    a.current.cont = .user := by
  unfold Queues.step at hs
  cases hc : a.current.cont with
  | user => rfl
  | waitForChild | readBuffer | initProcess | idleProcess =>
    rw [hc] at hs
    cases op with
    | fork | exit | kill | wait | sleep | read => cases hs
    | yield | resume | tick | enter => simp at hop

/-- A ready task moves up at each call of `schedule`, or runs. -/
theorem advances_step (hq : Queued i a) (hkill : op ≠ .kill i) (hs : a.step op = some b) :
    Advances i a b (a.schedules op) := by
  have hu := user_of_step hs
  cases op with
  | resume => exact advances_resume hq hs
  | tick =>
    obtain rfl := step_tick hs
    exact advances_timerInt hq
  | yield | enter =>
    unfold Queues.step at hs
    cases hc : a.current.cont with
    | user | idleProcess =>
      rw [hc] at hs
      obtain rfl := Option.some.inj hs
      first
      | exact (Idles.refl a).schedule hq
      | exact advances_terminalHandler hq
    | waitForChild | readBuffer | initProcess =>
      rw [hc] at hs
      cases hs
  | fork =>
    unfold Queues.step at hs
    rw [hu (by simp)] at hs
    exact advances_forkProcess hq hs
  | exit =>
    unfold Queues.step at hs
    rw [hu (by simp)] at hs
    obtain rfl := Option.some.inj hs
    exact advances_sysExit hq hq.runningTask
  | kill pid =>
    unfold Queues.step at hs
    rw [hu (by simp)] at hs
    dsimp only at hs
    split_ifs at hs
    obtain rfl := Option.some.inj hs
    refine advances_sysExit hq ?_
    rintro rfl
    exact hkill rfl
  | wait =>
    unfold Queues.step at hs
    rw [hu (by simp)] at hs
    obtain rfl := Option.some.inj hs
    exact advances_waitForChild hq
  | sleep sec =>
    unfold Queues.step at hs
    rw [hu (by simp)] at hs
    obtain rfl := Option.some.inj hs
    exact ((Idles.refl a).modifyCurrent hq.runningTask).block hq
  | read =>
    unfold Queues.step at hs
    rw [hu (by simp)] at hs
    obtain rfl := Option.some.inj hs
    exact advances_scheduleTerminalTask hq

end Queues

/-! ## Runs -/

namespace Sched

variable {s s' t : Sched} {i : ℕ} {op : SchedOp} {ops : List SchedOp}

/-- The calls of `schedule` in a run. -/
def scheduleCalls (s : Sched) (ops : List SchedOp) : ℕ := turns step (fun s op => s.schedules op) s ops

/-- The number of tasks in front of a task on `overall_task_list`. -/
def ahead (s : Sched) (i : ℕ) : ℕ := (s.taskList.getD []).idxOf i

/-- At the end of a second, the timer calls `schedule`. -/
theorem secondTicks_le : secondTicks s ops ≤ s.scheduleCalls ops := by
  have heq : secondTicks s ops = turns step (fun s op => s.endsSecond op) s ops := by
    induction ops generalizing s with
    | nil => rfl
    | cons op ops ih =>
      unfold secondTicks turns
      cases hs : s.step op with
      | none => rfl
      | some s' => exact congrArg _ ih
  rw [heq]
  refine turns_mono fun s op hop => ?_
  obtain ⟨rfl, h18⟩ := Core.endsSecond_iff.mp hop
  exact decide_eq_true (.inl h18)

/-- A task that is ready runs after an action, or it has moved up. -/
theorem Ready.advances (h : Ready i s) (hsp : Spares i s op) (hs : s.step op = some s') :
    s'.runningTask = i ∨ (Ready i s' ∧ s'.ahead i + (s.schedules op).toNat ≤ s.ahead i) := by
  have hready := h.step hsp hs
  obtain ⟨hkill, hk, hl⟩ := hsp
  obtain ⟨⟨⟨a, hrep, ho⟩, hlt, -, huid, hrun⟩, hstate⟩ := h
  have hlist := taskList_of_rep hrep ho.toOrderly
  have hk' : a.KillsLive op := hrep.core ▸ hk
  have hl' : ∀ i ∈ a.reaped op, i ∉ a.list := by
    rw [← reaped_of_rep hrep]
    exact hl a.list hlist
  obtain ⟨a', hstep, hrep'⟩ := hrep.exists_queues ho hk' hl' hs
  have ho' := ho.step hk' hl' hstep
  rw [hrep.tasks] at huid hstate
  rw [hrep.runningTask] at hrun
  -- A living task that does not run is on the list.
  have hmem : i ∈ a.list := ho.queued i hlt huid (by rw [hstate]; exact TaskState.noConfusion) (Ne.symm hrun)
  have hadvances := Queues.advances_step ⟨hmem, hstate, Ne.symm hrun⟩ hkill hstep
  rw [hrep'.runningTask] at hready ⊢
  by_cases hruns : a'.runningTask = i
  · exact .inl hruns
  · refine .inr ⟨hready.resolve_right hruns, ?_⟩
    obtain ⟨-, hle⟩ := hadvances.resolve_left hruns
    unfold ahead
    rw [hlist, taskList_of_rep hrep' ho'.toOrderly, hrep.core]
    exact hle

/-- A task that is ready runs before `schedule` has been called more often than there are tasks in front of it,
and before more seconds are over. -/
theorem ready_task_runs (s t : Sched) (i : ℕ) (ops : List SchedOp) (h : Ready i s)
    (hsp : Along step (Spares i) s ops) (hr : run step s ops = some t)
    (hlt : s.ahead i < s.scheduleCalls ops ∨ s.ahead i < secondTicks s ops) :
    ∃ u, Visits step s ops u ∧ u.runningTask = i := by
  have hcalls : s.ahead i < s.scheduleCalls ops := hlt.elim id fun hsec => hsec.trans_le secondTicks_le
  exact exists_of_turns (fun s op s' hsp h hs => h.advances hsp hs) h hsp hr hcalls

/-- The shell has forked a child, which waits behind the init task and the idle task. -/
theorem ready_task_runs_child : ∃ s₀ s, start = some s₀ ∧ s₀.step .fork = some s ∧
    ∃ u, Visits step s [.yield, .resume, .yield] u ∧ u.runningTask = 3 := by
  have hrun : (start.bind fun s₀ => (s₀.step .fork).bind fun s =>
      (run step s [.yield, .resume, .yield]).map fun _ => (decide ((s.tasks 3).uid ≠ 0 ∧ s.runningTask ≠ 3 ∧
        (s.tasks 3).taskState = .ready), decide (Along step (Spares 3) s [.yield, .resume, .yield]),
        s.ahead 3, s.scheduleCalls [.yield, .resume, .yield])) = some (true, true, 2, 3) := by
    decide +kernel
  obtain ⟨s₀, hs₀, hrun⟩ := Option.bind_eq_some_iff.mp hrun
  obtain ⟨s, hs, hrun⟩ := Option.bind_eq_some_iff.mp hrun
  obtain ⟨t, ht, hrun⟩ := Option.map_eq_some_iff.mp hrun
  rw [Prod.mk.injEq, Prod.mk.injEq, Prod.mk.injEq, decide_eq_true_eq, decide_eq_true_eq] at hrun
  obtain ⟨⟨huid, hother, hstate⟩, hsp, hahead, hcalls⟩ := hrun
  have hk : s₀.KillsLive .fork := trivial
  have hl : s₀.ReapsOffList .fork := fun l _ i hi => absurd hi List.not_mem_nil
  have hord : s.InOrder := (inOrder_start hs₀).step hk hl hs
  refine ⟨s₀, s, hs₀, hs, ready_task_runs s t 3 _ ⟨⟨hord, by decide, by decide, huid, hother⟩, hstate⟩ hsp ht ?_⟩
  rw [hahead, hcalls]
  exact .inl (by decide)

end Sched

end Nascent
