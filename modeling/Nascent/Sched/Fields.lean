import Mathlib.Logic.Function.Basic
import Nascent.Sched.Model

/-!
# What the operations do to the fields of tasks

The operations on the process table change few fields each. The lemmas here say, field by field, what
a task looks like after an operation, so that no proof about the scheduler has to unfold them.
-/

namespace Nascent

namespace Tasks

variable (t : Tasks) (i j : ℕ) (st : TaskState)

@[simp] theorem modify_self (f : Task → Task) : t.modify i f i = f (t i) := Function.update_self ..

theorem modify_of_ne {f : Task → Task} (h : j ≠ i) : t.modify i f j = t j :=
  Function.update_of_ne h ..

/-! ## `setState` -/

theorem setState_of_ne {t : Tasks} {i j : ℕ} {st : TaskState} (h : j ≠ i) :
    t.setState i st j = t j := modify_of_ne t i j h

theorem setState_taskState :
    (t.setState i st j).taskState = if j = i then st else (t j).taskState := by
  by_cases h : j = i
  · rw [h, setState, modify_self, if_pos rfl]
  · rw [setState_of_ne h, if_neg h]

theorem setState_fields : (t.setState i st j).uid = (t j).uid ∧
    (t.setState i st j).cont = (t j).cont ∧ (t.setState i st j).pid = (t j).pid ∧
    (t.setState i st j).ppid = (t j).ppid ∧
    (t.setState i st j).parentTask = (t j).parentTask ∧
    (t.setState i st j).forker = (t j).forker := by
  by_cases h : j = i
  · rw [h, setState, modify_self]
    exact ⟨rfl, rfl, rfl, rfl, rfl, rfl⟩
  · rw [setState_of_ne h]
    exact ⟨rfl, rfl, rfl, rfl, rfl, rfl⟩

@[simp] theorem setState_uid : (t.setState i st j).uid = (t j).uid := (setState_fields ..).1

@[simp] theorem setState_cont : (t.setState i st j).cont = (t j).cont := (setState_fields ..).2.1

@[simp] theorem setState_pid : (t.setState i st j).pid = (t j).pid := (setState_fields ..).2.2.1

@[simp] theorem setState_ppid : (t.setState i st j).ppid = (t j).ppid :=
  (setState_fields ..).2.2.2.1

@[simp] theorem setState_parentTask : (t.setState i st j).parentTask = (t j).parentTask :=
  (setState_fields ..).2.2.2.2.1

@[simp] theorem setState_forker : (t.setState i st j).forker = (t j).forker :=
  (setState_fields ..).2.2.2.2.2

/-! ## `sys_exit` -/

/-- The state of a task after `sys_exit`. -/
theorem exit_taskState : (t.exit i j).taskState = if j = i then .zombie
    else if (t i).parentTask = some j ∧ (t j).taskState = .suspended then .ready
    else (t j).taskState := by
  have hadopt : ∀ u : Tasks, (u.adopt i j).taskState = (u j).taskState := fun u => by
    rw [adopt]
    split_ifs <;> rfl
  rw [exit, hadopt, wake]
  simp only [setState_parentTask]
  cases hp : (t i).parentTask with
  | none => simp [setState_taskState]
  | some p =>
    simp only [setState_taskState, Option.some.injEq]
    by_cases hpi : p = i
    · simp only [hpi, if_true, reduceCtorEq, if_false, setState_taskState]
      split_ifs with h1 h2
      · rfl
      · exact absurd h2.1.symm h1
      · rfl
    · simp only [hpi, if_false]
      by_cases hs : (t p).taskState = .suspended
      · simp only [hs, if_true, setState_taskState]
        by_cases hjp : j = p
        · subst hjp
          simp [hpi, hs]
        · simp only [hjp, if_false]
          split_ifs with h1 h2
          · rfl
          · exact absurd h2.1.symm hjp
          · rfl
      · simp only [hs, if_false, setState_taskState]
        split_ifs with h1 h2
        · rfl
        · exact absurd (h2.1 ▸ h2.2) hs
        · rfl

theorem wake_fields : (t.wake i j).uid = (t j).uid ∧ (t.wake i j).cont = (t j).cont ∧
    (t.wake i j).pid = (t j).pid ∧ (t.wake i j).ppid = (t j).ppid ∧
    (t.wake i j).parentTask = (t j).parentTask ∧ (t.wake i j).forker = (t j).forker := by
  rw [wake]
  simp only [setState_parentTask]
  cases (t i).parentTask with
  | none => simp
  | some p =>
    simp only
    split_ifs <;> simp

/-- The target, and its parent if it waits, are the only tasks that change. -/
theorem wake_of_ne {t : Tasks} {i j : ℕ} (hne : j ≠ i)
    (hparent : (t i).parentTask = some j → (t j).taskState ≠ .suspended) : t.wake i j = t j := by
  unfold wake
  rw [setState_parentTask]
  cases hp : (t i).parentTask with
  | none => exact setState_of_ne hne
  | some p =>
    dsimp only
    split_ifs with hsus
    · have hjp : j ≠ p := by
        rintro rfl
        rw [setState_of_ne hne] at hsus
        exact hparent hp hsus
      rw [setState_of_ne hjp, setState_of_ne hne]
    · exact setState_of_ne hne

/-- `sys_exit` changes no other field than `task_state` and `ppid`. -/
theorem exit_fields : (t.exit i j).uid = (t j).uid ∧ (t.exit i j).cont = (t j).cont ∧
    (t.exit i j).pid = (t j).pid ∧ (t.exit i j).parentTask = (t j).parentTask ∧
    (t.exit i j).forker = (t j).forker := by
  obtain ⟨h1, h2, h3, -, h5, h6⟩ := wake_fields t i j
  rw [exit, adopt]
  split_ifs
  · exact ⟨h1, h2, h3, h5, h6⟩
  · exact ⟨h1, h2, h3, h5, h6⟩

@[simp] theorem exit_uid : (t.exit i j).uid = (t j).uid := (exit_fields ..).1

@[simp] theorem exit_cont : (t.exit i j).cont = (t j).cont := (exit_fields ..).2.1

@[simp] theorem exit_pid : (t.exit i j).pid = (t j).pid := (exit_fields ..).2.2.1

@[simp] theorem exit_parentTask : (t.exit i j).parentTask = (t j).parentTask :=
  (exit_fields ..).2.2.2.1

@[simp] theorem exit_forker : (t.exit i j).forker = (t j).forker := (exit_fields ..).2.2.2.2

/-- The parent of a task after `sys_exit`: the children of the target that are not ready go to the
init task. -/
theorem exit_ppid : (t.exit i j).ppid =
    if j < numPcb ∧ (t j).ppid = (t i).pid ∧ (t.exit i j).taskState ≠ .ready
    then (t initTask).pid else (t j).ppid := by
  have hstate : (t.exit i j).taskState = (t.wake i j).taskState := by
    rw [exit, adopt]
    split_ifs <;> rfl
  rw [hstate, exit, adopt, (wake_fields t i j).2.2.2.1, (wake_fields t i i).2.2.1,
    (wake_fields t i initTask).2.2.1]
  split_ifs
  · rfl
  · exact (wake_fields t i j).2.2.2.1

/-! ## `clear_pcb` -/

theorem clear_of_ne {t : Tasks} {i j : ℕ} (h : j ≠ i) : t.clear i j = t j := modify_of_ne t i j h

theorem clear_self : t.clear i i = { t i with
    parentTask := none, sleepSec := 0, taskState := .ready, ppid := -1, uid := 0 } :=
  modify_self ..

@[simp] theorem clear_cont : (t.clear i j).cont = (t j).cont := by
  by_cases h : j = i
  · rw [h, clear_self]
  · rw [clear_of_ne h]

@[simp] theorem clear_pid : (t.clear i j).pid = (t j).pid := by
  by_cases h : j = i
  · rw [h, clear_self]
  · rw [clear_of_ne h]

/-! ## `timer_int` -/

/-- The fields of a task that the timer does not change, and the state, which it changes from `SLEEP`
to `READY` only. -/
def Timed (x y : Task) : Prop :=
  y.uid = x.uid ∧ y.cont = x.cont ∧ y.pid = x.pid ∧ y.ppid = x.ppid ∧
    y.parentTask = x.parentTask ∧ y.forker = x.forker ∧
    (y.taskState = x.taskState ∨ (x.taskState = .sleep ∧ y.taskState = .ready))

theorem Timed.refl (x : Task) : Timed x x := ⟨rfl, rfl, rfl, rfl, rfl, rfl, .inl rfl⟩

theorem Timed.trans {x y z : Task} (h : Timed x y) (h' : Timed y z) : Timed x z := by
  obtain ⟨h1, h2, h3, h4, h5, h6, h7⟩ := h
  obtain ⟨g1, g2, g3, g4, g5, g6, g7⟩ := h'
  refine ⟨g1.trans h1, g2.trans h2, g3.trans h3, g4.trans h4, g5.trans h5, g6.trans h6, ?_⟩
  rcases h7 with h7 | ⟨hs, hr⟩
  · rw [← h7]
    exact g7
  · rcases g7 with g7 | ⟨gs, -⟩
    · exact .inr ⟨hs, g7.trans hr⟩
    · rw [hr] at gs
      cases gs

theorem timed_countDownTask (p : ℕ) : Timed (t j) (t.countDownTask p j) := by
  rw [countDownTask]
  split_ifs with hs
  · by_cases hjp : j = p
    · subst hjp
      simp only [modify_self]
      split_ifs
      · rw [setState, modify_self, modify_self]
        exact ⟨rfl, rfl, rfl, rfl, rfl, rfl, .inr ⟨hs, rfl⟩⟩
      · rw [modify_self]
        exact ⟨rfl, rfl, rfl, rfl, rfl, rfl, .inl rfl⟩
    · simp only
      split_ifs
      · rw [setState_of_ne hjp, modify_of_ne _ _ _ hjp]
        exact .refl _
      · rw [modify_of_ne _ _ _ hjp]
        exact .refl _
  · exact .refl _

/-- The walk of the timer only wakes up tasks that sleep. -/
theorem timed_countDown (l : List ℕ) : Timed (t j) (t.countDown l j) := by
  induction l generalizing t with
  | nil => exact .refl _
  | cons p l ih => exact (timed_countDownTask t j p).trans (ih _)

/-! ## `wait_for_child` -/

/-- The loop of `wait_for_child` finds a zombie of the process table. -/
theorem zombieChild_spec {t : Tasks} {pid : ℤ} {i : ℕ} (h : t.zombieChild pid = some i) :
    i < numPcb ∧ (t i).taskState = .zombie ∧ (t i).ppid = pid := by
  have hmem := List.mem_of_find?_eq_some h
  have hp := List.find?_some h
  simp only [Bool.and_eq_true, decide_eq_true_eq] at hp
  exact ⟨List.mem_range.mp hmem, hp⟩

/-- Where the loop finds nothing, there is no zombie child. -/
theorem zombieChild_eq_none {t : Tasks} {pid : ℤ} : t.zombieChild pid = none ↔
    ∀ i < numPcb, (t i).taskState = .zombie → (t i).ppid ≠ pid := by
  simp [zombieChild]

end Tasks

/-- The timer: the walk over the tasks that a second is over for, if it is, and then possibly `schedule`. -/
theorem Sched.timerInt_cases {s s' : Sched} (h : s.timerInt = some s') : ∃ tasks count,
    (tasks = s.tasks ∨ ∃ l, Linked.nodesFrom s.next (numPcb + 1) s.overallTaskList = some l ∧
      tasks = s.tasks.countDown l) ∧
    (s' = { s with tasks := tasks, timerCount := count } ∨
      { s with tasks := tasks, timerCount := count }.schedule = some s') := by
  -- The end of the function, after the walk.
  have hend : ∀ u : Sched,
      (if u.timerCount + 1 = 0 then schedule { u with timerCount := u.timerCount + 1 }
        else some { u with timerCount := u.timerCount + 1 }) = some s' →
      s' = { u with timerCount := u.timerCount + 1 } ∨
        { u with timerCount := u.timerCount + 1 }.schedule = some s' := by
    intro u hu
    split_ifs at hu
    · exact .inr hu
    · exact .inl (Option.some.inj hu).symm
  unfold timerInt at h
  split_ifs at h
  · obtain ⟨l, hl, h⟩ := Option.bind_eq_some_iff.mp h
    exact ⟨_, _, .inr ⟨l, hl, rfl⟩, hend { s with timerCount := -1, tasks := s.tasks.countDown l } h⟩
  · exact ⟨_, _, .inl rfl, hend s h⟩

end Nascent
