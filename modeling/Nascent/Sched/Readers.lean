import Mathlib.Data.Finset.Card
import Nascent.Sched.Lists
import Nascent.Sched.Turns

/-!
# Wake-ups at the terminal

A task that reads where no line is pending waits in `schedule_terminal_task`, until the return key makes the
first such task of the list ready. It takes its line only when it runs again, so that another task may read in
between. A line is then pending while tasks wait, and nobody would wake them up for it: the next wake-up is
that of the next line.

This does no harm, as every line that is pending while tasks wait is matched by a task that has been woken up
and has not read yet (`pending_lines_read`). Such a task is ready, and reads once it runs. Only `sys_exit` can
take it away, by the pid.
-/

namespace Nascent

open Runs

/-- The task goes on in `schedule_terminal_task`, and is not kept from it. -/
def Task.Reads (x : Task) : Prop :=
  x.uid ≠ 0 ∧ x.cont = .readBuffer ∧ (x.taskState = .ready ∨ x.taskState = .running)

instance (x : Task) : Decidable x.Reads := inferInstanceAs (Decidable (_ ∧ _ ∧ _))

namespace Tasks

variable {t t' t'' : Tasks} {i target : ℕ}

/-- The tasks that have been woken up for a line and have not read it yet. -/
def readers (t : Tasks) : Finset ℕ := (Finset.range numPcb).filter fun i => (t i).Reads

theorem mem_readers : i ∈ t.readers ↔ i < numPcb ∧ (t i).Reads := by
  unfold readers
  rw [Finset.mem_filter, Finset.mem_range]

/-- No task has begun to wait for a line, and none that has been woken up is kept from it. -/
structure Steady (t t' : Tasks) : Prop where
  /-- The tasks that wait did so before. -/
  wait : ∀ i, (t' i).taskState = .wait → (t i).taskState = .wait ∧ (t' i).cont = (t i).cont
  /-- Those that have been woken up are still on their way. -/
  reads : ∀ i, (t i).Reads → (t' i).Reads

theorem Steady.refl (t : Tasks) : Steady t t := ⟨fun _ h => ⟨h, rfl⟩, fun _ h => h⟩

theorem Steady.trans (h : Steady t t') (h' : Steady t' t'') : Steady t t'' where
  wait i hi := by
    obtain ⟨hw', hc'⟩ := h'.wait i hi
    obtain ⟨hw, hc⟩ := h.wait i hw'
    exact ⟨hw, hc'.trans hc⟩
  reads i hi := h'.reads i (h.reads i hi)

theorem Steady.readers_subset (h : Steady t t') : t.readers ⊆ t'.readers := fun i hi => by
  rw [mem_readers] at hi ⊢
  exact ⟨hi.1, h.reads i hi.2⟩

/-- A change of one task, which does not make it wait, and where it reads, it still does. -/
theorem steady_modify {f : Task → Task} (hw : (f (t i)).taskState ≠ .wait)
    (hr : (t i).Reads → (f (t i)).Reads) : Steady t (t.modify i f) := by
  constructor
  · intro j hj
    by_cases hji : j = i
    · rw [hji, modify_self] at hj
      exact absurd hj hw
    · rw [modify_of_ne _ _ _ hji] at hj ⊢
      exact ⟨hj, rfl⟩
  · intro j hj
    by_cases hji : j = i
    · rw [hji, modify_self]
      exact hr (hji ▸ hj)
    · rw [modify_of_ne _ _ _ hji]
      exact hj

/-- A task that may run is one that may run, whichever of the two states it has. -/
theorem steady_setState {st : TaskState} (hst : st = .ready ∨ st = .running) : Steady t (t.setState i st) := by
  refine steady_modify ?_ fun h => ⟨h.1, h.2.1, hst⟩
  rcases hst with rfl | rfl
  · exact TaskState.noConfusion
  · exact TaskState.noConfusion

theorem steady_demote : Steady t (Queues.demote t i) := by
  unfold Queues.demote
  split_ifs
  · exact steady_setState (.inl rfl)
  · exact .refl t

/-- A zombie that is reaped. -/
theorem steady_clear (hz : (t i).taskState = .zombie) : Steady t (t.clear i) := by
  refine steady_modify TaskState.noConfusion fun h => ?_
  rcases h.2.2 with hs | hs
  · exact absurd (hs.symm.trans hz) TaskState.noConfusion
  · exact absurd (hs.symm.trans hz) TaskState.noConfusion

/-- The exit of a task that has not been woken up. -/
theorem steady_exit (ht : ¬ (t target).Reads) : Steady t (t.exit target) := by
  constructor
  · intro i hi
    rw [exit_taskState] at hi
    split_ifs at hi
    exact ⟨hi, exit_cont ..⟩
  · rintro i ⟨hu, hc, hs⟩
    have hne : i ≠ target := fun hi => ht (hi ▸ ⟨hu, hc, hs⟩)
    refine ⟨?_, ?_, ?_⟩
    · rw [exit_uid]
      exact hu
    · rw [exit_cont]
      exact hc
    · rw [exit_taskState, if_neg hne]
      split_ifs
      · exact .inl rfl
      · exact hs

/-- A change of one task loses at most one reader. -/
theorem readers_modify (t : Tasks) (i : ℕ) (f : Task → Task) :
    t.readers.card ≤ (t.modify i f).readers.card + 1 := by
  have hsub : t.readers ⊆ insert i (t.modify i f).readers := fun j hj => by
    rw [Finset.mem_insert]
    refine or_iff_not_imp_left.mpr fun hne => ?_
    rw [mem_readers] at hj ⊢
    rw [modify_of_ne _ _ _ hne]
    exact hj
  exact (Finset.card_le_card hsub).trans (Finset.card_insert_le _ _)

/-- A task that waits is woken up. -/
theorem readers_wake (hi : i < numPcb) (hu : (t i).uid ≠ 0) (hc : (t i).cont = .readBuffer)
    (hw : (t i).taskState = .wait) : t.readers.card + 1 = (t.setState i .ready).readers.card := by
  have hnot : i ∉ t.readers := fun hm => by
    obtain ⟨-, -, -, hs⟩ := mem_readers.mp hm
    rw [hw] at hs
    exact hs.elim TaskState.noConfusion TaskState.noConfusion
  rw [← Finset.card_insert_of_notMem hnot]
  refine congrArg Finset.card (Finset.ext fun j => ?_)
  rw [Finset.mem_insert, mem_readers, mem_readers]
  by_cases hji : j = i
  · have hreads : (t.setState i .ready j).Reads := by
      rw [hji]
      refine ⟨?_, ?_, .inl ?_⟩
      · rw [setState_uid]
        exact hu
      · rw [setState_cont]
        exact hc
      · rw [setState_taskState, if_pos rfl]
    exact iff_of_true (.inl hji) ⟨hji ▸ hi, hreads⟩
  · rw [setState_of_ne hji]
    exact or_iff_right hji

theorem steady_countDown (l : List ℕ) : Steady t (t.countDown l) := by
  constructor
  · intro i hi
    obtain ⟨-, hcont, -, -, -, -, hstate⟩ := timed_countDown t i l
    rcases hstate with hstate | ⟨-, hready⟩
    · exact ⟨hstate.symm.trans hi, hcont⟩
    · exact absurd (hready.symm.trans hi) TaskState.noConfusion
  · rintro i ⟨hu, hc, hs⟩
    obtain ⟨huid, hcont, -, -, -, -, hstate⟩ := timed_countDown t i l
    refine ⟨huid ▸ hu, hcont.trans hc, ?_⟩
    rcases hstate with hstate | ⟨-, hready⟩
    · rw [hstate]
      exact hs
    · exact .inl hready

end Tasks

namespace Core

variable {c d : Core}

/-- The lines that are pending while tasks wait, each with a task on its way to it. -/
structure Watched (c : Core) : Prop where
  /-- The count is one of lines. -/
  nonneg : 0 ≤ c.terminalLineCount
  /-- A task that waits does so in `schedule_terminal_task`. -/
  cont : ∀ i < numPcb, (c.tasks i).taskState = .wait → (c.tasks i).cont = .readBuffer
  /-- The running task does not wait. -/
  current : c.current.taskState ≠ .wait
  /-- No more lines are pending than tasks have been woken up. -/
  lines : ∀ i < numPcb, (c.tasks i).taskState = .wait → c.terminalLineCount ≤ c.tasks.readers.card

/-- Nothing has changed for the tasks that wait for a line. -/
structure Steady (c d : Core) : Prop where
  /-- The tasks. -/
  tasks : Tasks.Steady c.tasks d.tasks
  /-- The lines. -/
  terminalLineCount : d.terminalLineCount = c.terminalLineCount

theorem Steady.refl (c : Core) : Steady c c := ⟨.refl c.tasks, rfl⟩

theorem Watched.steady (h : c.Watched) (hs : Steady c d) (hcur : d.current.taskState ≠ .wait) : d.Watched where
  nonneg := hs.terminalLineCount ▸ h.nonneg
  cont i hi hw := by
    obtain ⟨hwc, hcont⟩ := hs.tasks.wait i hw
    exact hcont.trans (h.cont i hi hwc)
  current := hcur
  lines i hi hw := by
    obtain ⟨hwc, -⟩ := hs.tasks.wait i hw
    have hcard : c.tasks.readers.card ≤ d.tasks.readers.card := Finset.card_le_card hs.tasks.readers_subset
    calc d.terminalLineCount = c.terminalLineCount := hs.terminalLineCount
      _ ≤ c.tasks.readers.card := h.lines i hi hwc
      _ ≤ d.tasks.readers.card := by exact_mod_cast hcard

end Core

namespace Queues

variable {a b : Queues} {i child target : ℕ} {op : SchedOp}

/-! ## One action -/

theorem steady_schedule : Core.Steady a.toCore a.schedule.toCore := by
  unfold schedule
  split
  · exact ⟨Tasks.steady_demote, rfl⟩
  · exact ⟨(Tasks.steady_setState (.inr rfl)).trans Tasks.steady_demote, rfl⟩

/-- The task that `schedule` has chosen does not wait. -/
def Served (a : Queues) : Prop := a.runningTask = idleTask ∨ a.current.taskState ≠ .wait

theorem served_schedule : a.schedule.Served := by
  unfold schedule
  split
  · exact .inl rfl
  · rename_i x hx
    right
    show (demote (a.tasks.setState x .running) a.runningTask x).taskState ≠ .wait
    rw [demote_taskState, Tasks.setState_taskState, if_pos rfl]
    split_ifs
    · exact TaskState.noConfusion
    · exact TaskState.noConfusion

theorem Served.ne_wait (h : a.Served) (ho : a.Orderly) : a.current.taskState ≠ .wait := by
  refine h.elim (fun hidle => ?_) id
  rw [Core.current, hidle]
  rcases ho.idle_state with hs | hs | hs
  · exact hs ▸ TaskState.noConfusion
  · exact hs ▸ TaskState.noConfusion
  · exact hs ▸ TaskState.noConfusion

/-- What an action leaves: the tasks that wait are as they were, and the running task is none of them. -/
structure Serves (a b : Queues) : Prop where
  /-- The tasks and the lines. -/
  steady : Core.Steady a.toCore b.toCore
  /-- The running task. -/
  served : b.Served

theorem Serves.watched (h : Serves a b) (hw : a.Watched) (ho : b.Orderly) : b.Watched :=
  hw.steady h.steady (h.served.ne_wait ho)

theorem serves_schedule (h : Core.Steady a.toCore b.toCore) : Serves a b.schedule := by
  obtain ⟨htasks, hlines⟩ := steady_schedule (a := b)
  exact ⟨⟨h.tasks.trans htasks, hlines.trans h.terminalLineCount⟩, served_schedule⟩

/-- The running task is not in `schedule_terminal_task`, and goes on somewhere else. -/
theorem steady_modifyCurrent {f : Task → Task} (h : Core.Steady a.toCore b.toCore)
    (hc : b.current.cont ≠ .readBuffer) (hw : (f b.current).taskState ≠ .wait) :
    Core.Steady a.toCore (b.modifyCurrent f).toCore :=
  ⟨h.tasks.trans (Tasks.steady_modify hw fun hr => absurd hr.2.1 hc), h.terminalLineCount⟩

theorem serves_block {state : TaskState} {cont : Cont} (h : Core.Steady a.toCore b.toCore)
    (hc : b.current.cont ≠ .readBuffer) (hw : state ≠ .wait) : Serves a (b.block state cont) :=
  serves_schedule (steady_modifyCurrent h hc hw)

theorem Serves.reap (h : Serves a b) (hz : (b.tasks child).taskState = .zombie) : Serves a (b.reap child) := by
  refine ⟨⟨h.steady.tasks.trans (Tasks.steady_clear hz), h.steady.terminalLineCount⟩, ?_⟩
  refine h.served.imp id fun hstate => ?_
  rw [Core.current, reap_tasks]
  by_cases hr : b.runningTask = child
  · show (b.tasks.clear child b.runningTask).taskState ≠ .wait
    rw [hr, Tasks.clear_self]
    exact TaskState.noConfusion
  · show (b.tasks.clear child b.runningTask).taskState ≠ .wait
    rw [Tasks.clear_of_ne hr]
    exact hstate

/-- A loop of `wait_for_child`. -/
theorem serves_reapChild (h : a.Watched) : Serves a a.reapChild.2 := by
  have hserves : Serves a a := ⟨.refl a.toCore, .inr h.current⟩
  cases hc : a.tasks.zombieChild a.current.pid with
  | none =>
    rw [reapChild_of_none hc]
    exact hserves
  | some i =>
    rw [reapChild_of_some hc]
    obtain ⟨-, hz, -⟩ := Tasks.zombieChild_spec hc
    obtain ⟨⟨htasks, hlines⟩, hserved⟩ := hserves.reap hz
    exact ⟨⟨htasks, hlines⟩, hserved⟩

theorem reapChild_cont (a : Queues) : a.reapChild.2.current.cont = a.current.cont := by
  cases hc : a.tasks.zombieChild a.current.pid with
  | none => rw [reapChild_of_none hc]
  | some i =>
    rw [reapChild_of_some hc]
    exact Tasks.clear_cont ..

theorem Serves.cleanChildPcb (h : Serves a b) : Serves a b.cleanChildPcb :=
  cleanChildPcb_induction (P := Serves a) h fun _ _ hd _ hz _ => hd.reap hz

/-- What follows a return from `wait_for_child`. -/
theorem Serves.afterWait (h : Serves a b) (hc : b.current.cont ≠ .readBuffer)
    (hw : b.current.taskState ≠ .wait) : Serves a b.afterWait := by
  have hcont : ∀ cont, Core.Steady a.toCore (b.modifyCurrent fun x => { x with cont := cont }).toCore :=
    fun cont => steady_modifyCurrent h.steady hc hw
  unfold Queues.afterWait
  split_ifs
  · refine Serves.cleanChildPcb ⟨hcont .initProcess, .inr ?_⟩
    rw [Core.current, modifyCurrent_tasks, modifyCurrent_runningTask, Tasks.modify_self]
    exact hw
  · exact serves_schedule (hcont .user)

/-- After a loop of `wait_for_child`. -/
theorem serves_afterWait (h : a.Watched) (hr : a.runningTask ≠ idleTask) (hc : a.current.cont ≠ .readBuffer) :
    Serves a a.reapChild.2.afterWait := by
  have hserves := serves_reapChild h
  have hrun : a.reapChild.2.runningTask = a.runningTask := by
    cases hz : a.tasks.zombieChild a.current.pid with
    | none => rw [reapChild_of_none hz]
    | some i => rw [reapChild_of_some hz]; rfl
  refine hserves.afterWait ?_ ?_
  · rw [reapChild_cont]
    exact hc
  · exact hserves.served.resolve_left fun hidle => hr (hrun.symm.trans hidle)

theorem serves_waitForChild (h : a.Watched) (hr : a.runningTask ≠ idleTask) (hc : a.current.cont ≠ .readBuffer) :
    Serves a a.waitForChild := by
  have hafter := serves_afterWait h hr hc
  unfold waitForChild
  cases hz : a.tasks.zombieChild a.current.pid with
  | none =>
    rw [reapChild_of_none hz]
    exact serves_block (.refl a.toCore) hc TaskState.noConfusion
  | some i =>
    rw [reapChild_of_some hz] at hafter ⊢
    exact hafter

theorem serves_sysExit (ht : ¬ (a.tasks target).Reads) : Serves a (a.sysExit target) := by
  have hexit : Core.Steady a.toCore ({ a with
      tasks := a.tasks.exit target, exited := (a.tasks target).uid :: a.exited } : Queues).toCore :=
    ⟨Tasks.steady_exit ht, rfl⟩
  exact serves_schedule hexit

theorem serves_timerInt (h : a.Watched) : Serves a a.timerInt := by
  unfold timerInt
  split_ifs
  · have hwalk : Core.Steady a.toCore ({ a with
        timerCount := 0, tasks := a.tasks.countDown a.list } : Queues).toCore :=
      ⟨Tasks.steady_countDown a.list, rfl⟩
    exact serves_schedule hwalk
  · exact serves_schedule (b := { a with timerCount := 0 }) ⟨.refl a.tasks, rfl⟩
  · exact ⟨⟨.refl a.tasks, rfl⟩, .inr h.current⟩

/-- A child does not read. -/
theorem serves_forkProcess (h : a.Watched) (ho : a.Settled) (hf : a.forkProcess = some b) : Serves a b := by
  have hlines : b.terminalLineCount = a.terminalLineCount := by
    unfold forkProcess at hf
    split at hf
    · cases hf
    · obtain rfl := Option.some.inj hf
      rfl
  obtain ⟨child, free, hfree, -, hrun, -, -, hother, -, hready⟩ := forkProcess_spec hf
  have hmem : child ∈ a.free := hfree ▸ List.mem_cons_self
  have huid : (a.tasks child).uid = 0 := (ho.free_iff child (ho.free_lt child hmem)).mp hmem
  have hne : a.runningTask ≠ child := fun hr => ho.running (hr ▸ hmem)
  refine ⟨⟨⟨fun i hi => ?_, fun i hi => ?_⟩, hlines⟩, .inr ?_⟩
  · by_cases hic : i = child
    · rw [hic, hready] at hi
      cases hi
    · rw [hother i hic] at hi ⊢
      exact ⟨hi, rfl⟩
  · by_cases hic : i = child
    · exact absurd (hic ▸ huid) hi.1
    · rw [hother i hic]
      exact hi
  · rw [Core.current, hrun, hother _ hne]
    exact h.current

/-! ## Lines that come and are read -/

/-- The running task takes a line. -/
theorem watched_read (h : a.Watched) (hcount : a.terminalLineCount ≠ 0) :
    ({ a with terminalLineCount := a.terminalLineCount - 1 }.modifyCurrent fun x =>
      { x with cont := .user } : Queues).Watched := by
  have hnonneg := h.nonneg
  have hother : ∀ i, i ≠ a.runningTask →
      a.tasks.modify a.runningTask (fun x => { x with cont := .user }) i = a.tasks i := fun i hi =>
    Tasks.modify_of_ne _ _ _ hi
  have hself : a.tasks.modify a.runningTask (fun x => { x with cont := .user }) a.runningTask =
      { a.current with cont := .user } := Tasks.modify_self ..
  have hne : ∀ i, (a.tasks.modify a.runningTask (fun x => { x with cont := .user }) i).taskState = .wait →
      i ≠ a.runningTask := by
    rintro i hi rfl
    rw [hself] at hi
    exact h.current hi
  refine ⟨?_, fun i hi hw => ?_, fun hw => hne a.runningTask hw rfl, fun i hi hw => ?_⟩
  · show 0 ≤ a.terminalLineCount - 1
    omega
  · have heq := hother i (hne i hw)
    exact (congrArg Task.cont heq).trans (h.cont i hi ((congrArg Task.taskState heq).symm.trans hw))
  · have heq := hother i (hne i hw)
    have hle := h.lines i hi ((congrArg Task.taskState heq).symm.trans hw)
    -- It is one reader less, and one line.
    have hcard := a.tasks.readers_modify a.runningTask fun x => { x with cont := .user }
    show a.terminalLineCount - 1 ≤ ((a.tasks.modify a.runningTask fun x => { x with cont := .user }).readers.card : ℤ)
    omega

/-- `schedule_terminal_task`, at its start or after its call of `schedule`. -/
theorem watched_scheduleTerminalTask (h : a.Watched) (ho : a.scheduleTerminalTask.Orderly) :
    a.scheduleTerminalTask.Watched := by
  unfold scheduleTerminalTask at ho ⊢
  split_ifs at ho ⊢ with hcount
  · exact watched_read h hcount
  · -- The running task begins to wait, as no line is pending.
    obtain ⟨htasks, hlines⟩ := steady_schedule (a := a.modifyCurrent fun x =>
      { x with taskState := .wait, cont := .readBuffer })
    have hserved := served_schedule (a := a.modifyCurrent fun x =>
      { x with taskState := .wait, cont := .readBuffer })
    have hzero : (a.block .wait .readBuffer).terminalLineCount = 0 := hlines.trans (not_not.mp hcount)
    refine ⟨hzero.ge, fun i hi hw => ?_, hserved.ne_wait ho, fun i hi hw => ?_⟩
    · obtain ⟨hw', hcont⟩ := htasks.wait i hw
      rw [modifyCurrent_tasks] at hw' hcont
      refine hcont.trans ?_
      by_cases hir : i = a.runningTask
      · rw [hir, Tasks.modify_self]
      · rw [Tasks.modify_of_ne _ _ _ hir] at hw' ⊢
        exact h.cont i hi hw'
    · rw [hzero]
      exact Int.natCast_nonneg _

/-- The return key: where a task waits, the first one on the list is woken up, and every task that waits is on
the list. -/
theorem watched_terminalHandler (h : a.Watched) (ho : a.Settled) : a.terminalHandler.Watched := by
  have hnonneg := h.nonneg
  unfold terminalHandler
  split
  · rename_i hnone
    have hno : ∀ i < numPcb, (a.tasks i).taskState ≠ .wait := by
      intro i hi hw
      have huid : (a.tasks i).uid ≠ 0 := fun h0 => by
        have hs := ho.free_state i ((ho.free_iff i hi).mpr h0)
        rw [hw] at hs
        exact hs.elim TaskState.noConfusion TaskState.noConfusion
      have hrun : i ≠ a.runningTask := by
        rintro rfl
        exact h.current hw
      have hmem := ho.queued i hi huid (by rw [hw]; exact TaskState.noConfusion) hrun
      exact absurd hw (by simpa using List.find?_eq_none.mp hnone i hmem)
    refine ⟨?_, h.cont, h.current, fun i hi hw => absurd hw (hno i hi)⟩
    show 0 ≤ a.terminalLineCount + 1
    omega
  · rename_i task htask
    have hmem := List.mem_of_find?_eq_some htask
    have hwait : (a.tasks task).taskState = .wait := by simpa using List.find?_some htask
    have hlt := ho.list_lt task hmem
    have hcard := Tasks.readers_wake hlt (ho.uid_of_mem hmem) (h.cont task hlt hwait) hwait
    obtain ⟨hw', -⟩ := Tasks.steady_setState (t := a.tasks) (i := task) (.inl rfl : TaskState.ready = .ready ∨ _)
    refine ⟨?_, fun i hi hw => ?_, fun hw => ?_, fun i hi hw => ?_⟩
    · show 0 ≤ a.terminalLineCount + 1
      omega
    · obtain ⟨hwi, hcont⟩ := hw' i hw
      exact hcont.trans (h.cont i hi hwi)
    · exact h.current (hw' a.runningTask hw).1
    · have hle := h.lines i hi (hw' i hw).1
      show a.terminalLineCount + 1 ≤ ((a.tasks.setState task .ready).readers.card : ℤ)
      omega

/-- An action keeps the pending lines matched, unless it kills a task that has been woken up for one. -/
theorem watched_step (h : a.Watched) (ho : a.Settled) (ho' : b.Settled)
    (hspare : ∀ pid, op = .kill pid → ¬ (a.tasks pid).Reads) (hs : a.step op = some b) : b.Watched := by
  have hu := user_of_step hs
  cases op with
  | resume =>
    unfold Queues.step at hs
    cases hc : a.current.cont with
    | waitForChild =>
      rw [hc] at hs
      obtain rfl := Option.some.inj hs
      have hr := ho.ne_idle (by rw [hc]; exact Cont.noConfusion)
      exact (serves_afterWait h hr (by rw [hc]; exact Cont.noConfusion)).watched h ho'.toOrderly
    | readBuffer =>
      rw [hc] at hs
      obtain rfl := Option.some.inj hs
      exact watched_scheduleTerminalTask h ho'.toOrderly
    | initProcess =>
      rw [hc] at hs
      obtain rfl := Option.some.inj hs
      have hr := ho.ne_idle (by rw [hc]; exact Cont.noConfusion)
      exact (serves_waitForChild h hr (by rw [hc]; exact Cont.noConfusion)).watched h ho'.toOrderly
    | user | idleProcess =>
      rw [hc] at hs
      cases hs
  | tick =>
    obtain rfl := step_tick hs
    exact (serves_timerInt h).watched h ho'.toOrderly
  | yield | enter =>
    unfold Queues.step at hs
    cases hc : a.current.cont with
    | user | idleProcess =>
      rw [hc] at hs
      obtain rfl := Option.some.inj hs
      first
      | exact (serves_schedule (.refl a.toCore)).watched h ho'.toOrderly
      | exact watched_terminalHandler h ho
    | waitForChild | readBuffer | initProcess =>
      rw [hc] at hs
      cases hs
  | fork =>
    unfold Queues.step at hs
    rw [hu (by simp)] at hs
    exact (serves_forkProcess h ho hs).watched h ho'.toOrderly
  | exit =>
    have hc := hu (by simp)
    unfold Queues.step at hs
    rw [hc] at hs
    obtain rfl := Option.some.inj hs
    have hnot : ¬ (a.tasks a.runningTask).Reads := fun hr => Cont.noConfusion (hc.symm.trans hr.2.1)
    exact (serves_sysExit hnot).watched h ho'.toOrderly
  | kill pid =>
    unfold Queues.step at hs
    rw [hu (by simp)] at hs
    dsimp only at hs
    split_ifs at hs
    obtain rfl := Option.some.inj hs
    exact (serves_sysExit (hspare pid rfl)).watched h ho'.toOrderly
  | wait =>
    have hc := hu (by simp)
    unfold Queues.step at hs
    rw [hc] at hs
    obtain rfl := Option.some.inj hs
    have hr := (ho.not_kernel hc).2
    exact (serves_waitForChild h hr (by rw [hc]; exact Cont.noConfusion)).watched h ho'.toOrderly
  | sleep sec =>
    have hc := hu (by simp)
    unfold Queues.step at hs
    rw [hc] at hs
    obtain rfl := Option.some.inj hs
    have hcont : a.current.cont ≠ .readBuffer := by
      rw [hc]
      exact Cont.noConfusion
    have hsec : Core.Steady a.toCore (a.modifyCurrent fun x => { x with sleepSec := sec }).toCore :=
      steady_modifyCurrent (.refl a.toCore) hcont h.current
    refine (serves_block hsec ?_ TaskState.noConfusion).watched h ho'.toOrderly
    rw [Core.current, modifyCurrent_tasks, modifyCurrent_runningTask, Tasks.modify_self]
    exact hcont
  | read =>
    unfold Queues.step at hs
    rw [hu (by simp)] at hs
    obtain rfl := Option.some.inj hs
    exact watched_scheduleTerminalTask h ho'.toOrderly

end Queues

/-! ## Runs -/

namespace Sched

variable {s s' : Sched} {op : SchedOp}

/-- The action does not kill a task that has been woken up for a line and has not read it yet. -/
def SparesReaders (s : Sched) (op : SchedOp) : Prop :=
  match op with
  | .kill pid => ¬ (s.tasks pid).Reads
  | _ => True

instance : Decidable (s.SparesReaders op) :=
  match op with
  | .kill pid => inferInstanceAs (Decidable (¬ (s.tasks pid).Reads))
  | .fork | .exit | .wait | .sleep _ | .read | .yield | .resume | .tick | .enter => isTrue trivial

/-- What holds between two actions. -/
structure Attentive (s : Sched) : Prop where
  /-- The lists are in order. -/
  inOrder : s.InOrder
  /-- The pending lines are matched. -/
  watched : s.Watched

theorem Attentive.step (h : s.Attentive) (hk : s.KillsLive op) (hl : s.ReapsOffList op)
    (hsp : s.SparesReaders op) (hs : s.step op = some s') : s'.Attentive := by
  obtain ⟨⟨a, hrep, ho⟩, hw⟩ := h
  have hk' : a.KillsLive op := hrep.core ▸ hk
  have hl' : ∀ i ∈ a.reaped op, i ∉ a.list := by
    rw [← reaped_of_rep hrep]
    exact hl a.list (taskList_of_rep hrep ho.toOrderly)
  obtain ⟨a', hstep, hrep'⟩ := hrep.exists_queues ho hk' hl' hs
  have ho' := ho.step hk' hl' hstep
  refine ⟨⟨a', hrep', ho'⟩, ?_⟩
  rw [hrep'.core]
  rw [hrep.core] at hw
  refine Queues.watched_step hw ho ho' (fun pid hpid => ?_) hstep
  subst hpid
  rw [← hrep.tasks]
  exact hsp

/-- Nobody reads at the start. -/
theorem attentive_start (h : start = some s) : s.Attentive := by
  obtain ⟨s₀, hs₀, hrep⟩ := rep_start
  obtain rfl : s = s₀ := by
    rw [h] at hs₀
    exact Option.some.inj hs₀
  have hno : ∀ i, (s.tasks i).taskState ≠ .wait := by
    intro i
    rw [hrep.tasks]
    show (Queues.startTasks i).taskState ≠ .wait
    rcases Queues.lt_three_cases i with rfl | rfl | rfl | h3
    · decide
    · decide
    · decide
    · rw [Queues.startTasks_of_le h3]
      exact TaskState.noConfusion
  have hzero : s.terminalLineCount = 0 := by
    rw [hrep.core]
    rfl
  exact ⟨⟨Queues.start, hrep, Queues.settled_start⟩, hzero.ge, fun i _ hw => absurd hw (hno i),
    hno _, fun i _ hw => absurd hw (hno i)⟩

/-- A task that has been woken up for a line runs, or is ready. -/
theorem InOrder.ready_of_reads {i : ℕ} (h : s.InOrder) (hi : i ∈ s.tasks.readers) :
    s.runningTask = i ∨ Ready i s := by
  obtain ⟨hlt, huid, hcont, hstate⟩ := Tasks.mem_readers.mp hi
  refine or_iff_not_imp_left.mpr fun hrun => ?_
  have hord := h
  obtain ⟨a, hrep, ho⟩ := h
  rw [hrep.tasks] at huid hcont hstate
  rw [hrep.runningTask] at hrun
  refine ⟨⟨hord, hlt, ?_, ?_, ?_⟩, ?_⟩
  · rintro rfl
    exact Cont.noConfusion (ho.idle_cont.symm.trans hcont)
  · rw [hrep.tasks]
    exact huid
  · rw [hrep.runningTask]
    exact hrun
  · rw [hrep.tasks]
    exact hstate.resolve_right fun hs => hrun (ho.runs i hlt huid hs).symm

/-- While a task waits for input, no more lines are pending than there are tasks that have been woken up to read,
each of which runs or is ready. -/
theorem pending_lines_read (s₀ : Sched) (h₀ : start = some s₀) (ops : List SchedOp)
    (hkill : Along step (fun s op => s.KillsLive op) s₀ ops)
    (hreap : Along step (fun s op => s.ReapsOffList op) s₀ ops)
    (hspare : Along step SparesReaders s₀ ops) (t : Sched) (ht : Visits step s₀ ops t) (i : ℕ) (hi : i < numPcb)
    (hw : (t.tasks i).taskState = .wait) : 0 ≤ t.terminalLineCount ∧
      t.terminalLineCount ≤ t.tasks.readers.card ∧ ∀ j ∈ t.tasks.readers, t.runningTask = j ∨ Ready j t := by
  have hcond := (hkill.and hreap).and hspare
  obtain ⟨hord, hwatched⟩ := ht.invariant hcond (fun s op s' h hc hs => h.step hc.1.1 hc.1.2 hc.2 hs)
    (attentive_start h₀)
  exact ⟨hwatched.nonneg, hwatched.lines i hi hw, fun j hj => hord.ready_of_reads hj⟩

/-- The shell forks a child and reads, and then the child reads. The return key wakes up the shell, while the
child goes on waiting. -/
theorem pending_lines_read_run : ∃ s₀ t, start = some s₀ ∧
    run step s₀ [.fork, .read, .resume, .yield, .read, .enter] = some t ∧ 0 ≤ t.terminalLineCount ∧
    t.terminalLineCount ≤ t.tasks.readers.card ∧ ∀ j ∈ t.tasks.readers, t.runningTask = j ∨ Ready j t := by
  have hrun : (start.bind fun s₀ => (run step s₀ [.fork, .read, .resume, .yield, .read, .enter]).map fun t =>
      (decide ((t.tasks 3).taskState = .wait),
        decide (Along step (fun s op => s.KillsLive op) s₀ [.fork, .read, .resume, .yield, .read, .enter]),
        decide (Along step (fun s op => s.ReapsOffList op) s₀ [.fork, .read, .resume, .yield, .read, .enter]),
        decide (Along step SparesReaders s₀ [.fork, .read, .resume, .yield, .read, .enter]))) =
      some (true, true, true, true) := by decide +kernel
  obtain ⟨s₀, hs₀, hrun⟩ := Option.bind_eq_some_iff.mp hrun
  obtain ⟨t, ht, hrun⟩ := Option.map_eq_some_iff.mp hrun
  simp only [Prod.mk.injEq, decide_eq_true_eq] at hrun
  obtain ⟨hw, hk, hl, hsp⟩ := hrun
  exact ⟨s₀, t, hs₀, ht, pending_lines_read s₀ hs₀ _ hk hl hsp t (visits_of_run ht) 3 (by decide) hw⟩

end Sched

end Nascent
