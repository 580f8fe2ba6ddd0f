import Nascent.Sched.Lists

/-!
# How long a task sleeps

`SYS_sleep_s` sets the seconds of the running task and takes it off the processor. Once a second, the walk
of `timer_int` over `overall_task_list` takes one second from each task that sleeps, and makes it ready if
none is left. Nothing else touches a task that sleeps, as long as it is not killed and the list stays in
order (`Leaves`), so it is asleep until there are no seconds left, and then it is ready until it runs.

The walk takes the second before it looks. A task that sleeps for 0 seconds has -1 left at the first look,
so that it goes on sleeping (`sleep_lasts_iff`).
-/

namespace Nascent

open Runs

/-! ## One task of the walk -/

namespace Tasks

variable {t : Tasks} {i j target : ℕ} {l : List ℕ}

theorem countDownTask_of_ne (h : j ≠ i) : t.countDownTask i j = t j := by
  unfold countDownTask
  split_ifs
  · dsimp only
    split_ifs
    · rw [setState_of_ne h, modify_of_ne _ _ _ h]
    · rw [modify_of_ne _ _ _ h]
  · rfl

/-- The walk leaves a task that does not sleep. -/
theorem countDown_of_not_sleep (h : (t j).taskState ≠ .sleep) : t.countDown l j = t j := by
  induction l generalizing t with
  | nil => rfl
  | cons i l ih =>
    have hfirst : t.countDownTask i j = t j := by
      by_cases hji : j = i
      · subst hji
        unfold countDownTask
        rw [if_neg h]
      · exact countDownTask_of_ne hji
    have hrest : (t.countDownTask i).countDown l j = t.countDownTask i j := ih (hfirst ▸ h)
    exact hrest.trans hfirst

theorem countDown_of_not_mem (h : j ∉ l) : t.countDown l j = t j := by
  induction l generalizing t with
  | nil => rfl
  | cons i l ih =>
    rw [List.mem_cons, not_or] at h
    have hrest : (t.countDownTask i).countDown l j = t.countDownTask i j := ih h.2
    exact hrest.trans (countDownTask_of_ne h.1)

/-- A task of the list that sleeps has a second less, and is ready if none is left. -/
theorem countDown_of_sleep (hnd : l.Nodup) (hj : j ∈ l) (hs : (t j).taskState = .sleep) :
    t.countDown l j = { t j with
      sleepSec := (t j).sleepSec - 1
      taskState := if (t j).sleepSec - 1 = 0 then .ready else .sleep } := by
  induction l generalizing t with
  | nil => exact absurd hj List.not_mem_nil
  | cons i l ih =>
    obtain ⟨hi, hnd⟩ := List.nodup_cons.mp hnd
    by_cases hji : j = i
    · subst hji
      have hrest : (t.countDownTask j).countDown l j = t.countDownTask j j := countDown_of_not_mem hi
      refine hrest.trans ?_
      unfold countDownTask
      rw [if_pos hs]
      dsimp only
      rw [modify_self]
      dsimp only
      split_ifs
      · rw [setState, modify_self, modify_self]
      · rw [modify_self, ← hs]
    · have hfirst : t.countDownTask i j = t j := countDownTask_of_ne hji
      have hrest : (t.countDownTask i).countDown l j = _ :=
        ih hnd ((List.mem_cons.mp hj).resolve_left hji) (by rwa [hfirst])
      rw [hfirst] at hrest
      exact hrest

/-- The fields that matter for sleeping are the same. -/
structure Rests (x y : Task) : Prop where
  /-- The state. -/
  taskState : y.taskState = x.taskState
  /-- The seconds. -/
  sleepSec : y.sleepSec = x.sleepSec
  /-- The process. -/
  uid : y.uid = x.uid

theorem Rests.refl (x : Task) : Rests x x := ⟨rfl, rfl, rfl⟩

theorem rests_of_eq {x y : Task} (h : y = x) : Rests x y := h ▸ .refl y

/-- `sys_exit` of another task leaves a task that does not wait for a child. -/
theorem rests_exit (h : i ≠ target) (hs : (t i).taskState ≠ .suspended) : Rests (t i) (t.exit target i) := by
  unfold exit adopt
  rw [wake_of_ne h fun _ => hs]
  split_ifs
  · exact ⟨rfl, rfl, rfl⟩
  · exact .refl _

end Tasks

/-! ## One action -/

namespace Queues

open Tasks (Rests rests_of_eq)

variable {a b : Queues} {i child target : ℕ} {op : SchedOp}

/-- The running task is the same, and so is a task. -/
structure Keeps (i : ℕ) (a b : Core) : Prop where
  /-- The running task. -/
  runningTask : b.runningTask = a.runningTask
  /-- The task. -/
  rests : Rests (a.tasks i) (b.tasks i)

/-- A task is the same and does not run, unless it was ready and runs now. -/
def Leaves (i : ℕ) (a b : Core) : Prop :=
  (b.runningTask ≠ i ∧ Rests (a.tasks i) (b.tasks i)) ∨ ((a.tasks i).taskState = .ready ∧ b.runningTask = i)

theorem Keeps.refl (a : Core) : Keeps i a a := ⟨rfl, .refl _⟩

theorem Keeps.leaves (h : Keeps i a.toCore b.toCore) (hi : i ≠ a.runningTask) : Leaves i a.toCore b.toCore :=
  .inl ⟨fun hr => hi (hr.symm.trans h.runningTask), h.rests⟩

/-- `schedule` runs a task only if it is ready or the idle task. -/
theorem leaves_schedule (hi : i ≠ a.runningTask) (hidle : i ≠ idleTask) :
    Leaves i a.toCore a.schedule.toCore := by
  unfold schedule
  cases hready : a.ready with
  | none =>
    refine .inl ⟨Ne.symm hidle, rests_of_eq ?_⟩
    exact demote_of_ne hi
  | some x =>
    by_cases hx : i = x
    · exact .inr ⟨hx ▸ (ready_mem hready).2, hx.symm⟩
    · refine .inl ⟨Ne.symm hx, rests_of_eq ?_⟩
      exact (demote_of_ne hi).trans (Tasks.setState_of_ne hx)

/-- A task that is neither running nor ready is left as it is when it gives up the processor. -/
theorem schedule_current (hidle : a.runningTask ≠ idleTask) (hr : a.current.taskState ≠ .running)
    (hready : a.current.taskState ≠ .ready) : a.schedule.runningTask ≠ a.runningTask ∧
      a.schedule.tasks a.runningTask = a.current := by
  unfold schedule
  cases hx : a.ready with
  | none =>
    have hdemote : demote a.tasks a.runningTask = a.tasks := if_neg hr
    refine ⟨Ne.symm hidle, ?_⟩
    show demote a.tasks a.runningTask a.runningTask = a.current
    rw [hdemote]
    rfl
  | some x =>
    have hne : a.runningTask ≠ x := by
      rintro rfl
      exact hready (ready_mem hx).2
    have hself : (a.take x).tasks a.runningTask = a.current := Tasks.setState_of_ne hne
    refine ⟨Ne.symm hne, ?_⟩
    have hdemote : demote (a.take x).tasks a.runningTask = (a.take x).tasks :=
      if_neg (by rw [hself]; exact hr)
    show demote (a.take x).tasks a.runningTask a.runningTask = a.current
    rw [hdemote, hself]

theorem Keeps.schedule (h : Keeps i a.toCore b.toCore) (hi : i ≠ a.runningTask) (hidle : i ≠ idleTask) :
    Leaves i a.toCore b.schedule.toCore := by
  have hb : i ≠ b.runningTask := fun hr => hi (hr.trans h.runningTask)
  obtain ⟨htaskState, hsleepSec, huid⟩ := h.rests
  rcases leaves_schedule hb hidle with ⟨hrun, hrests⟩ | ⟨hready, hrun⟩
  · exact .inl ⟨hrun, hrests.taskState.trans htaskState, hrests.sleepSec.trans hsleepSec,
      hrests.uid.trans huid⟩
  · exact .inr ⟨htaskState ▸ hready, hrun⟩

/-- A change of the running task. -/
theorem Keeps.modifyCurrent {f : Task → Task} (h : Keeps i a.toCore b.toCore) (hi : i ≠ a.runningTask) :
    Keeps i a.toCore (b.modifyCurrent f).toCore := by
  have hb : i ≠ b.runningTask := fun hr => hi (hr.trans h.runningTask)
  have hsame : (b.modifyCurrent f).tasks i = b.tasks i := Tasks.modify_of_ne _ _ _ hb
  exact ⟨h.runningTask, by
    rw [hsame]
    exact h.rests⟩

/-- A zombie is reaped. -/
theorem Keeps.reap (h : Keeps i a.toCore b.toCore) (hz : (b.tasks child).taskState = .zombie)
    (hlive : (a.tasks i).taskState ≠ .zombie) : Keeps i a.toCore (b.reap child).toCore := by
  have hne : i ≠ child := by
    rintro rfl
    exact hlive (h.rests.taskState ▸ hz)
  have hsame : (b.reap child).tasks i = b.tasks i := Tasks.clear_of_ne hne
  exact ⟨h.runningTask, by
    rw [hsame]
    exact h.rests⟩

theorem Keeps.reapChild (h : Keeps i a.toCore b.toCore) (hlive : (a.tasks i).taskState ≠ .zombie) :
    Keeps i a.toCore b.reapChild.2.toCore := by
  cases hc : b.tasks.zombieChild b.current.pid with
  | none =>
    rw [reapChild_of_none hc]
    exact h
  | some child =>
    rw [reapChild_of_some hc]
    obtain ⟨hrun, hrests⟩ := h.reap (Tasks.zombieChild_spec hc).2.1 hlive
    exact ⟨hrun, hrests⟩

theorem Keeps.cleanChildPcb (h : Keeps i a.toCore b.toCore) (hlive : (a.tasks i).taskState ≠ .zombie) :
    Keeps i a.toCore b.cleanChildPcb.toCore :=
  cleanChildPcb_induction (P := fun b => Keeps i a.toCore b.toCore) h fun _ _ hb _ hz _ => hb.reap hz hlive

section Action

variable (hi : i ≠ a.runningTask) (hidle : i ≠ idleTask)

include hi hidle

theorem Keeps.block {state : TaskState} {cont : Cont} (h : Keeps i a.toCore b.toCore) :
    Leaves i a.toCore (b.block state cont).toCore := (h.modifyCurrent hi).schedule hi hidle

theorem Keeps.afterWait (h : Keeps i a.toCore b.toCore) (hlive : (a.tasks i).taskState ≠ .zombie) :
    Leaves i a.toCore b.afterWait.toCore := by
  unfold Queues.afterWait
  split_ifs
  · exact ((h.modifyCurrent hi).cleanChildPcb hlive).leaves hi
  · exact (h.modifyCurrent hi).schedule hi hidle

theorem leaves_waitForChild (hlive : (a.tasks i).taskState ≠ .zombie) :
    Leaves i a.toCore a.waitForChild.toCore := by
  have hkeeps := (Keeps.refl (i := i) a.toCore).reapChild hlive
  unfold waitForChild
  split
  · rename_i heq
    rw [heq] at hkeeps
    exact hkeeps.afterWait hi hidle hlive
  · rename_i heq
    rw [heq] at hkeeps
    exact hkeeps.block hi hidle

theorem leaves_scheduleTerminalTask : Leaves i a.toCore a.scheduleTerminalTask.toCore := by
  unfold scheduleTerminalTask
  split_ifs
  · have hkeeps : Keeps i a.toCore { a with terminalLineCount := a.terminalLineCount - 1 }.toCore :=
      ⟨rfl, .refl _⟩
    exact (hkeeps.modifyCurrent hi).leaves hi
  · exact (Keeps.refl a.toCore).block hi hidle

omit hidle in
theorem leaves_terminalHandler (hwait : (a.tasks i).taskState ≠ .wait) :
    Leaves i a.toCore a.terminalHandler.toCore := by
  unfold terminalHandler
  split
  · exact .inl ⟨Ne.symm hi, .refl _⟩
  · rename_i task htask
    have hstate : (a.tasks task).taskState = .wait := by simpa using List.find?_some htask
    have hne : i ≠ task := by
      rintro rfl
      exact hwait hstate
    exact .inl ⟨Ne.symm hi, rests_of_eq (Tasks.setState_of_ne hne)⟩

/-- The timer, but for the seconds. -/
theorem leaves_timerInt (hsec : a.timerCount = 18 → (a.tasks i).taskState ≠ .sleep) :
    Leaves i a.toCore a.timerInt.toCore := by
  unfold timerInt
  split_ifs with h18
  · have hkeeps : Keeps i a.toCore
        { a with timerCount := 0, tasks := a.tasks.countDown a.list }.toCore :=
      ⟨rfl, rests_of_eq (Tasks.countDown_of_not_sleep (hsec h18))⟩
    exact hkeeps.schedule hi hidle
  · have hkeeps : Keeps i a.toCore { a with timerCount := 0 }.toCore := ⟨rfl, .refl _⟩
    exact hkeeps.schedule hi hidle
  · exact .inl ⟨Ne.symm hi, .refl _⟩

theorem leaves_sysExit (ht : i ≠ target) (hs : (a.tasks i).taskState ≠ .suspended) :
    Leaves i a.toCore (a.sysExit target).toCore := by
  have hkeeps : Keeps i a.toCore
      { a with tasks := a.tasks.exit target, exited := (a.tasks target).uid :: a.exited }.toCore :=
    ⟨rfl, Tasks.rests_exit ht hs⟩
  exact hkeeps.schedule hi hidle

/-- What an action does to a task that sleeps or is ready: nothing, unless it is killed, or a second is over,
or it runs. -/
theorem leaves_step (h : a.Settled) (hlt : i < numPcb) (huid : (a.tasks i).uid ≠ 0)
    (hstate : (a.tasks i).taskState = .sleep ∨ (a.tasks i).taskState = .ready) (hkill : op ≠ .kill i)
    (hsec : op = .tick → a.timerCount = 18 → (a.tasks i).taskState ≠ .sleep)
    (hs : a.step op = some b) : Leaves i a.toCore b.toCore := by
  have hne : ∀ st, st ≠ .sleep → st ≠ .ready → (a.tasks i).taskState ≠ st := by
    intro st hsleep hready hst
    rcases hstate with hst' | hst'
    · exact hsleep (hst.symm.trans hst')
    · exact hready (hst.symm.trans hst')
  have hzombie := hne .zombie (by decide) (by decide)
  have hsuspended := hne .suspended (by decide) (by decide)
  unfold Queues.step at hs
  split at hs
  case h_1 =>
    obtain ⟨child, free, hfree, -, hrun, -, -, hother, -⟩ := forkProcess_spec hs
    have hmem : child ∈ a.free := hfree ▸ List.mem_cons_self ..
    have hic : i ≠ child := by
      rintro rfl
      exact huid ((h.free_iff _ hlt).mp hmem)
    exact .inl ⟨fun hr => hi (hr.symm.trans hrun), rests_of_eq (hother i hic)⟩
  case h_2 =>
    obtain rfl := Option.some.inj hs
    exact leaves_sysExit hi hidle hi hsuspended
  case h_3 pid _ =>
    split_ifs at hs
    obtain rfl := Option.some.inj hs
    refine leaves_sysExit hi hidle ?_ hsuspended
    rintro rfl
    exact hkill rfl
  case h_4 | h_15 =>
    obtain rfl := Option.some.inj hs
    exact leaves_waitForChild hi hidle hzombie
  case h_5 =>
    obtain rfl := Option.some.inj hs
    exact ((Keeps.refl a.toCore).modifyCurrent hi).block hi hidle
  case h_6 | h_14 =>
    obtain rfl := Option.some.inj hs
    exact leaves_scheduleTerminalTask hi hidle
  case h_7 | h_8 =>
    obtain rfl := Option.some.inj hs
    exact leaves_schedule hi hidle
  case h_9 | h_10 =>
    obtain rfl := Option.some.inj hs
    exact leaves_timerInt hi hidle (hsec rfl)
  case h_11 | h_12 =>
    obtain rfl := Option.some.inj hs
    exact leaves_terminalHandler hi (hne .wait (by decide) (by decide))
  case h_13 =>
    obtain rfl := Option.some.inj hs
    exact ((Keeps.refl (i := i) a.toCore).reapChild hzombie).afterWait hi hidle hzombie
  case h_16 => cases hs

/-- The tick in which a second is over: the walk takes it from the tasks that sleep, and then `schedule` may
run one of those that are ready. -/
theorem leaves_second (h18 : a.timerCount = 18) :
    Leaves i { a.toCore with tasks := a.tasks.countDown a.list } a.timerInt.toCore := by
  set a₁ : Queues := { a with timerCount := 0, tasks := a.tasks.countDown a.list } with ha₁
  have hsecond : a.timerInt = a₁.schedule := if_pos h18
  rw [hsecond]
  exact leaves_schedule (a := a₁) hi hidle

end Action

theorem step_tick (hs : a.step .tick = some b) : b = a.timerInt := by
  unfold Queues.step at hs
  cases hc : a.current.cont with
  | user | idleProcess =>
    rw [hc] at hs
    exact (Option.some.inj hs).symm
  | waitForChild | readBuffer | initProcess =>
    rw [hc] at hs
    cases hs

/-- The task that calls `sleep_s` is asleep and does not run. -/
theorem step_sleep {sec : BitVec 32} (h : a.Settled) (hs : a.step (.sleep sec) = some b) :
    a.current.cont = .user ∧ b.runningTask ≠ a.runningTask ∧ b.tasks a.runningTask =
      { a.current with sleepSec := sec, taskState := .sleep } := by
  have hu : a.current.cont = .user := by
    unfold Queues.step at hs
    cases hc : a.current.cont with
    | user => rfl
    | waitForChild | readBuffer | initProcess | idleProcess =>
      rw [hc] at hs
      cases hs
  have hblock : a.step (.sleep sec) =
      some ((a.modifyCurrent fun x => { x with sleepSec := sec }).block .sleep .user) := by
    unfold Queues.step
    rw [hu]
  rw [hblock] at hs
  obtain rfl := Option.some.inj hs
  -- The two changes of the running task before the call of `schedule`.
  set a₁ := (a.modifyCurrent fun x => { x with sleepSec := sec }).modifyCurrent fun x =>
    { x with taskState := .sleep, cont := .user } with ha₁
  have hcurrent : a₁.current = { a.current with sleepSec := sec, taskState := .sleep } := by
    show (a₁.tasks) a.runningTask = _
    rw [ha₁, modifyCurrent_tasks, modifyCurrent_tasks, modifyCurrent_runningTask, Tasks.modify_self,
      Tasks.modify_self]
    show _ = { a.tasks a.runningTask with sleepSec := sec, taskState := .sleep }
    rw [← hu]
    rfl
  have hstate : a₁.current.taskState = .sleep := by rw [hcurrent]
  obtain ⟨hrun, hself⟩ := schedule_current (a := a₁) (h.not_kernel hu).2 (by rw [hstate]; decide)
    (by rw [hstate]; decide)
  exact ⟨hu, hrun, hself.trans hcurrent⟩

end Queues

/-! ## Runs -/

namespace Core

/-- The action is the tick of the timer in which a second is over. -/
def endsSecond (c : Core) : SchedOp → Bool
  | .tick => decide (c.timerCount = 18)
  | _ => false

theorem endsSecond_iff {c : Core} {op : SchedOp} : c.endsSecond op = true ↔ op = .tick ∧ c.timerCount = 18 := by
  cases op with
  | tick => simp [endsSecond]
  | fork | exit | kill | wait | sleep | read | yield | resume | enter => simp [endsSecond]

end Core

namespace Sched

open Tasks (Rests)

variable {s s' t u : Sched} {i : ℕ} {sec : BitVec 32} {op : SchedOp} {ops : List SchedOp}

/-- The seconds that a run takes. -/
def secondTicks : Sched → List SchedOp → ℕ
  | _, [] => 0
  | s, op :: ops => (s.endsSecond op).toNat + ((s.step op).map (secondTicks · ops)).getD 0

/-- The action does not touch a task that is off the processor: it does not kill it, or any other PCB that holds
no living task, and it reaps no task that is still on `overall_task_list`. -/
def Spares (i : ℕ) (s : Sched) (op : SchedOp) : Prop := op ≠ .kill i ∧ s.KillsLive op ∧ s.ReapsOffList op

deriving instance DecidableEq for SchedOp

instance : Decidable (Spares i s op) := inferInstanceAs (Decidable (_ ∧ _ ∧ _))

/-- A task that is off the processor. -/
structure Off (i : ℕ) (s : Sched) : Prop where
  /-- The lists are in order. -/
  inOrder : s.InOrder
  /-- It is in the process table. -/
  lt : i < numPcb
  /-- It is not the idle task. -/
  ne_idle : i ≠ idleTask
  /-- It is a process. -/
  uid : (s.tasks i).uid ≠ 0
  /-- It does not run. -/
  runningTask : s.runningTask ≠ i

/-- A task that sleeps for some seconds. -/
structure Asleep (i : ℕ) (sec : BitVec 32) (s : Sched) : Prop extends Off i s where
  /-- Its state. -/
  taskState : (s.tasks i).taskState = .sleep
  /-- The seconds. -/
  sleepSec : (s.tasks i).sleepSec = sec

/-- A task that is ready. -/
structure Ready (i : ℕ) (s : Sched) : Prop extends Off i s where
  /-- Its state. -/
  taskState : (s.tasks i).taskState = .ready

/-- What an action does to a task off the processor that sleeps or is ready, but for the seconds. -/
theorem Off.step (h : Off i s) (hstate : (s.tasks i).taskState = .sleep ∨ (s.tasks i).taskState = .ready)
    (hsp : Spares i s op) (hsec : s.endsSecond op = true → (s.tasks i).taskState ≠ .sleep)
    (hs : s.step op = some s') : (Off i s' ∧ Rests (s.tasks i) (s'.tasks i)) ∨
      ((s.tasks i).taskState = .ready ∧ s'.runningTask = i) := by
  obtain ⟨hkill, hk, hl⟩ := hsp
  obtain ⟨a, a', hcore, ho, hstep, hcore', hord⟩ := h.inOrder.exists_queues hk hl hs
  obtain ⟨-, hlt, hidle, huid, hrun⟩ := h
  rw [hcore] at huid hrun hstate hsec
  rw [hcore, hcore']
  have hnot : op = .tick → a.timerCount = 18 → (a.tasks i).taskState ≠ .sleep := fun hop h18 =>
    hsec (Core.endsSecond_iff.mpr ⟨hop, h18⟩)
  refine (Queues.leaves_step (Ne.symm hrun) hidle ho hlt huid hstate hkill hnot hstep).imp_left ?_
  rintro ⟨hrun', hrests⟩
  refine ⟨⟨hord, hlt, hidle, ?_, ?_⟩, hrests⟩
  · rw [hcore', hrests.uid]
    exact huid
  · rw [hcore']
    exact hrun'

/-- A task that sleeps still does after an action that does not end a second. -/
theorem Asleep.step (h : Asleep i sec s) (hsp : Spares i s op) (hsec : s.endsSecond op = false)
    (hs : s.step op = some s') : Asleep i sec s' := by
  have hnot : s.endsSecond op = true → (s.tasks i).taskState ≠ .sleep := by
    rw [hsec]
    exact Bool.noConfusion
  rcases h.toOff.step (.inl h.taskState) hsp hnot hs with ⟨hoff, hrests⟩ | ⟨hready, -⟩
  · exact ⟨hoff, hrests.taskState.trans h.taskState, hrests.sleepSec.trans h.sleepSec⟩
  · exact TaskState.noConfusion (h.taskState.symm.trans hready)

/-- A task that is ready stays so until it runs. -/
theorem Ready.step (h : Ready i s) (hsp : Spares i s op) (hs : s.step op = some s') :
    Ready i s' ∨ s'.runningTask = i := by
  have hnot : s.endsSecond op = true → (s.tasks i).taskState ≠ .sleep := by
    rw [h.taskState]
    exact fun _ => TaskState.noConfusion
  refine (h.toOff.step (.inr h.taskState) hsp hnot hs).imp (fun hstep => ?_) And.right
  exact ⟨hstep.1, hstep.2.taskState.trans h.taskState⟩

/-- At the end of a second, a task that sleeps has a second less, and wakes up if none is left. -/
theorem Asleep.second (h : Asleep i sec s) (hsp : Spares i s op) (hsec : s.endsSecond op = true)
    (hs : s.step op = some s') : (sec - 1 ≠ 0 ∧ Asleep i (sec - 1) s') ∨
      (sec - 1 = 0 ∧ (Ready i s' ∨ s'.runningTask = i)) := by
  obtain ⟨-, hk, hl⟩ := hsp
  obtain ⟨a, a', hcore, ho, hstep, hcore', hord⟩ := h.inOrder.exists_queues hk hl hs
  obtain ⟨⟨-, hlt, hidle, huid, hrun⟩, hstate, hsleep⟩ := h
  rw [hcore] at huid hrun hstate hsleep hsec
  obtain ⟨rfl, h18⟩ := Core.endsSecond_iff.mp hsec
  obtain rfl := Queues.step_tick hstep
  -- The walk reaches the task, since it is on the list.
  have hmem : i ∈ a.list := ho.queued i hlt huid (by rw [hstate]; decide) (Ne.symm hrun)
  have hcount := Tasks.countDown_of_sleep ho.list_nodup hmem hstate
  rw [hsleep] at hcount
  rcases Queues.leaves_second (Ne.symm hrun) hidle h18 with ⟨hrun', hrests⟩ | ⟨hready, hrun'⟩
  · dsimp only at hrests
    rw [hcount] at hrests
    have hoff : Off i s' := by
      refine ⟨hord, hlt, hidle, ?_, ?_⟩
      · rw [hcore', hrests.uid]
        exact huid
      · rw [hcore']
        exact hrun'
    by_cases hzero : sec - 1 = 0
    · refine .inr ⟨hzero, .inl ⟨hoff, ?_⟩⟩
      rw [hcore', hrests.taskState]
      exact if_pos hzero
    · refine .inl ⟨hzero, hoff, ?_, ?_⟩
      · rw [hcore', hrests.taskState]
        exact if_neg hzero
      · rw [hcore', hrests.sleepSec]
  · dsimp only at hready
    rw [hcount] at hready
    have hzero : sec - 1 = 0 := by
      by_contra hne
      rw [show _ = TaskState.sleep from if_neg hne] at hready
      cases hready
    refine .inr ⟨hzero, .inr ?_⟩
    rw [hcore']
    exact hrun'

/-- The running task is asleep after `sleep_s`. -/
theorem InOrder.asleep (h : s.InOrder) (hs : s.step (.sleep sec) = some s') :
    Asleep s.runningTask sec s' := by
  have hl : s.ReapsOffList (.sleep sec) := fun l _ i hi => absurd hi List.not_mem_nil
  have hk : s.KillsLive (.sleep sec) := trivial
  obtain ⟨a, a', hcore, ho, hstep, hcore', hord⟩ := h.exists_queues hk hl hs
  obtain ⟨hu, hrun, hself⟩ := Queues.step_sleep ho hstep
  rw [← hcore'] at hrun hself
  rw [hcore]
  refine ⟨⟨hord, ho.running_lt, (ho.not_kernel hu).2, ?_, hrun⟩, ?_, ?_⟩
  · rw [hself]
    exact ho.running_uid
  · rw [hself]
  · rw [hself]

theorem secondTicks_cons (hs : s.step op = some s') :
    secondTicks s (op :: ops) = (s.endsSecond op).toNat + secondTicks s' ops := by
  rw [secondTicks, hs]
  rfl

theorem secondTicks_append_le (s : Sched) (ops ops' : List SchedOp) :
    secondTicks s ops ≤ secondTicks s (ops ++ ops') := by
  induction ops generalizing s with
  | nil => exact Nat.zero_le _
  | cons op ops ih =>
    rw [List.cons_append, secondTicks, secondTicks]
    cases s.step op with
    | none => exact Nat.le_refl _
    | some s' => exact Nat.add_le_add_left (ih s') _

/-- A task that is ready is ready at the end of a run, or has run. -/
theorem Ready.run (h : Ready i s) (hsp : Along Sched.step (Spares i) s ops) (hr : Runs.run Sched.step s ops = some t) :
    Ready i t ∨ ∃ u, Visits Sched.step s ops u ∧ u.runningTask = i := by
  induction ops generalizing s with
  | nil => exact .inl (Option.some.inj hr ▸ h)
  | cons op ops ih =>
    obtain ⟨s', hs, hr⟩ := Option.bind_eq_some_iff.mp hr
    rcases h.step hsp.1 hs with h' | hrun
    · refine (ih h' (hsp.2 s' hs) hr).imp_right ?_
      rintro ⟨u, hu, hrun⟩
      exact ⟨u, visits_cons hs hu, hrun⟩
    · exact .inr ⟨s', visits_cons hs visits_start, hrun⟩

/-- A task sleeps until the seconds are over. The walk takes a second before it looks, so there is one more
than `sec - 1`. -/
theorem Asleep.run (h : Asleep i sec s) (hsp : Along Sched.step (Spares i) s ops) (hr : Runs.run Sched.step s ops = some t) :
    (secondTicks s ops ≤ (sec - 1).toNat → ∀ u, Visits Sched.step s ops u → ∃ sec', Asleep i sec' u) ∧
      ((sec - 1).toNat < secondTicks s ops → Ready i t ∨ ∃ u, Visits Sched.step s ops u ∧ u.runningTask = i) := by
  induction ops generalizing s sec with
  | nil =>
    constructor
    · rintro - u ⟨bs, cs, hb, hu⟩
      obtain ⟨rfl, -⟩ := List.append_eq_nil_iff.mp hb.symm
      exact ⟨sec, Option.some.inj hu ▸ h⟩
    · intro hlt
      exact absurd hlt (Nat.not_lt_zero _)
  | cons op ops ih =>
    obtain ⟨s', hs, hr⟩ := Option.bind_eq_some_iff.mp hr
    -- What follows where the task still sleeps after the action.
    have hmore : ∀ sec', Asleep i sec' s' →
        (secondTicks s' ops ≤ (sec' - 1).toNat → ∀ u, Visits Sched.step s (op :: ops) u → ∃ sec', Asleep i sec' u) ∧
        ((sec' - 1).toNat < secondTicks s' ops →
          Ready i t ∨ ∃ u, Visits Sched.step s (op :: ops) u ∧ u.runningTask = i) := by
      intro sec' h'
      obtain ⟨hsleep, hwake⟩ := ih h' (hsp.2 s' hs) hr
      constructor
      · intro hle u hu
        rcases visits_cons_cases hu with rfl | ⟨s₁, hs₁, hu⟩
        · exact ⟨sec, h⟩
        · obtain rfl : s' = s₁ := Option.some.inj (hs.symm.trans hs₁)
          exact hsleep hle u hu
      · intro hlt
        refine (hwake hlt).imp_right ?_
        rintro ⟨u, hu, hrun⟩
        exact ⟨u, visits_cons hs hu, hrun⟩
    rw [secondTicks_cons hs]
    cases hsec : s.endsSecond op with
    | false =>
      rw [Bool.toNat_false, Nat.zero_add]
      exact hmore sec (h.step hsp.1 hsec hs)
    | true =>
      rw [Bool.toNat_true]
      rcases h.second hsp.1 hsec hs with ⟨hne, h'⟩ | ⟨hzero, h'⟩
      · have hless : (sec - 1 - 1).toNat + 1 = (sec - 1).toNat := by bv_omega
        obtain ⟨hsleep, hwake⟩ := hmore (sec - 1) h'
        exact ⟨fun hle => hsleep (by omega), fun hlt => hwake (by omega)⟩
      · rw [hzero]
        constructor
        · intro hle
          exact absurd hle (by simp)
        · intro _
          rcases h' with hready | hrun
          · refine (hready.run (hsp.2 s' hs) hr).imp_right ?_
            rintro ⟨u, hu, hrun⟩
            exact ⟨u, visits_cons hs hu, hrun⟩
          · exact .inr ⟨s', visits_cons hs visits_start, hrun⟩

/-- A run in which some second is over has a part in which one is. -/
theorem exists_second (hr : run step s ops = some t) (h : secondTicks s ops ≠ 0) :
    ∃ bs cs u, ops = bs ++ cs ∧ run step s bs = some u ∧ secondTicks s bs = 1 := by
  induction ops generalizing s with
  | nil => exact absurd rfl h
  | cons op ops ih =>
    obtain ⟨s', hs, hr⟩ := Option.bind_eq_some_iff.mp hr
    rw [secondTicks_cons hs] at h
    cases hsec : s.endsSecond op with
    | false =>
      rw [hsec, Bool.toNat_false, Nat.zero_add] at h
      obtain ⟨bs, cs, u, hops, hu, hone⟩ := ih hr h
      refine ⟨op :: bs, cs, u, by rw [hops, List.cons_append], ?_, ?_⟩
      · rw [run_cons, hs]
        exact hu
      · rw [secondTicks_cons hs, hsec, Bool.toNat_false, Nat.zero_add, hone]
    | true =>
      refine ⟨[op], ops, s', rfl, ?_, ?_⟩
      · rw [run_cons, hs]
        rfl
      · rw [secondTicks_cons hs, hsec]
        rfl

/-- A task that has called `sleep_s` sleeps for `n` seconds: at each point of the run it is asleep if fewer
seconds than that are over, and else it is ready, or has run. -/
def SleepsFor (s : Sched) (i n : ℕ) (ops : List SchedOp) : Prop :=
  ∀ bs cs t, ops = bs ++ cs → run step s bs = some t →
    (secondTicks s bs < n → (t.tasks i).taskState = .sleep) ∧
    (max n 1 ≤ secondTicks s bs →
      (t.tasks i).taskState = .ready ∨ ∃ u, Visits step s bs u ∧ u.runningTask = i)

/-- Where there are seconds to sleep, the task sleeps for as many. -/
theorem Asleep.sleepsFor (h : Asleep i sec s) (hsp : Along Sched.step (Spares i) s ops)
    (hsec : sec ≠ 0 ∨ secondTicks s ops = 0) : SleepsFor s i sec.toNat ops := by
  rintro bs cs t rfl ht
  obtain ⟨hsleep, hwake⟩ := h.run hsp.left ht
  have hasleep : secondTicks s bs ≤ (sec - 1).toNat → (t.tasks i).taskState = .sleep := by
    intro hle
    obtain ⟨sec', h'⟩ := hsleep hle t (visits_of_run ht)
    exact h'.taskState
  rcases hsec with hne | hnone
  · have hless : (sec - 1).toNat + 1 = sec.toNat := by bv_omega
    constructor
    · intro hlt
      exact hasleep (by omega)
    · intro hle
      exact (hwake (by omega)).imp_left Ready.taskState
  · have hle : secondTicks s bs ≤ secondTicks s (bs ++ cs) := secondTicks_append_le ..
    constructor
    · intro _
      exact hasleep (by omega)
    · intro _
      omega

/-- Where there are none, the first second that is over does not wake up the task. -/
theorem Asleep.not_sleepsFor (h : Asleep i 0 s) (hsp : Along Sched.step (Spares i) s ops)
    (hr : Runs.run Sched.step s ops = some t) (hne : secondTicks s ops ≠ 0) : ¬ SleepsFor s i 0 ops := by
  intro hsleeps
  obtain ⟨bs, cs, u, rfl, hu, hone⟩ := exists_second hr hne
  have hasleep := (h.run hsp.left hu).1 (by rw [hone]; decide)
  rcases (hsleeps bs cs u rfl hu).2 (by rw [hone]; decide) with hready | ⟨v, hv, hrun⟩
  · obtain ⟨sec', h'⟩ := hasleep u (visits_of_run hu)
    exact TaskState.noConfusion (h'.taskState.symm.trans hready)
  · obtain ⟨sec', h'⟩ := hasleep v hv
    exact h'.runningTask hrun

/-- The walk of the timer only changes tasks that sleep. What else a tick does is to call `schedule`. -/
def WalksSleepers (s t : Sched) : Prop :=
  ∃ tasks count, (∀ j, (s.tasks j).taskState ≠ .sleep → tasks j = s.tasks j) ∧
    (t = { s with tasks := tasks, timerCount := count } ∨
      { s with tasks := tasks, timerCount := count }.schedule = some t)

theorem walksSleepers (h : s.timerInt = some t) : WalksSleepers s t := by
  obtain ⟨tasks, count, hwalk, hend⟩ := timerInt_cases h
  refine ⟨tasks, count, fun j hj => ?_, hend⟩
  rcases hwalk with rfl | ⟨l, -, rfl⟩
  · rfl
  · exact Tasks.countDown_of_not_sleep hj

/-- `sleep_s` lasts as many seconds as it says, unless there are none to sleep. -/
theorem sleep_lasts_iff (s₀ s t : Sched) (sec : BitVec 32) (ops : List SchedOp) (h₀ : s₀.InOrder)
    (hs : s₀.step (.sleep sec) = some s) (hsp : Along step (Spares s₀.runningTask) s ops)
    (hr : run step s ops = some t) :
    (SleepsFor s s₀.runningTask sec.toNat ops ↔ sec ≠ 0 ∨ secondTicks s ops = 0) ∧
      ∀ u v, u.timerInt = some v → WalksSleepers u v := by
  have h := h₀.asleep hs
  refine ⟨⟨fun hsleeps => ?_, h.sleepsFor hsp⟩, fun u v => walksSleepers⟩
  by_contra hnot
  obtain ⟨rfl, hne⟩ : sec = 0 ∧ secondTicks s ops ≠ 0 := by
    rw [not_or, not_not] at hnot
    exact hnot
  exact h.not_sleepsFor hsp hr hne hsleeps

/-- The shell sleeps, and the idle task runs until a second is over. -/
theorem sleep_run (sec : BitVec 32) (h : sec = 0 ∨ sec = 1) : ∃ s₀ s t, start = some s₀ ∧ s₀.step (.sleep sec) = some s ∧
    s₀.runningTask = 2 ∧ Along step (Spares 2) s (.resume :: List.replicate 19 .tick) ∧
    run step s (.resume :: List.replicate 19 .tick) = some t ∧
    secondTicks s (.resume :: List.replicate 19 .tick) = 1 := by
  have hrun : (start.bind fun s₀ => (s₀.step (.sleep sec)).bind fun s =>
      (run step s (.resume :: List.replicate 19 .tick)).map fun _ => (s₀.runningTask,
        decide (Along step (Spares 2) s (.resume :: List.replicate 19 .tick)),
        secondTicks s (.resume :: List.replicate 19 .tick))) = some (2, true, 1) := by
    rcases h with rfl | rfl
    · decide +kernel
    · decide +kernel
  obtain ⟨s₀, hs₀, hrun⟩ := Option.bind_eq_some_iff.mp hrun
  obtain ⟨s, hs, hrun⟩ := Option.bind_eq_some_iff.mp hrun
  obtain ⟨t, ht, hrun⟩ := Option.map_eq_some_iff.mp hrun
  rw [Prod.mk.injEq, Prod.mk.injEq, decide_eq_true_eq] at hrun
  exact ⟨s₀, s, t, hs₀, hs, hrun.1, hrun.2.1, ht, hrun.2.2⟩

/-- The shell sleeps for a second. -/
theorem sleep_lasts_one : ∃ s₀ s, start = some s₀ ∧ s₀.step (.sleep 1) = some s ∧
    SleepsFor s 2 1 (.resume :: List.replicate 19 .tick) := by
  obtain ⟨s₀, s, t, hs₀, hs, hrun, hsp, ht, -⟩ := sleep_run 1 (.inr rfl)
  have hlasts := sleep_lasts_iff s₀ s t 1 _ (inOrder_start hs₀) hs (hrun ▸ hsp) ht
  rw [hrun] at hlasts
  exact ⟨s₀, s, hs₀, hs, hlasts.1.mpr (.inl (by decide))⟩

/-- The shell sleeps for no second, and is still asleep when the first one is over. -/
theorem sleep_zero_lasts : ¬ ∀ (s₀ s t : Sched) (sec : BitVec 32) (ops : List SchedOp), start = some s₀ →
    s₀.step (.sleep sec) = some s → Along step (Spares s₀.runningTask) s ops → run step s ops = some t →
    SleepsFor s s₀.runningTask sec.toNat ops := by
  intro hall
  obtain ⟨s₀, s, t, hs₀, hs, hrun, hsp, ht, hsec⟩ := sleep_run 0 (.inl rfl)
  have h := (inOrder_start hs₀).asleep hs
  have hsleeps := hall s₀ s t 0 _ hs₀ hs (hrun ▸ hsp) ht
  rw [hrun] at h hsleeps
  exact h.not_sleepsFor hsp ht (by rw [hsec]; decide) hsleeps

end Sched

end Nascent
