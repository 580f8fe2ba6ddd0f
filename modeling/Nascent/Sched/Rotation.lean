import Nascent.Lib.Runs
import Nascent.Sched.Links

/-!
# `schedule` as a rotation of the run list

`schedule` takes the first ready task off `overall_task_list` and appends the task that ran. The links
are followed here from any chain, whatever the states of the tasks are and however they change between
the calls.

A task that is taken from the head of the list keeps its link. `add_to_task_list` does not reset the
link of a task that it puts on an empty list. So the list is what it should be exactly if the running
task is a zombie, or has no link, or does not come to an empty list (`Sched.schedule_rotates_iff`).
-/

namespace Nascent

open Linked Runs

/-- What happens to the scheduler. -/
inductive RotationOp
  /-- A call of `schedule`. -/
  | schedule
  /-- Any change of the states of the tasks. -/
  | setStates (states : ℕ → TaskState)

namespace Sched

variable {s t : Sched} {l : List ℕ} {x : ℕ}

/-- One step. -/
def rotationStep (s : Sched) : RotationOp → Option Sched
  | .schedule => s.schedule
  | .setStates states =>
    some { s with tasks := fun i => { s.tasks i with taskState := states i } }

/-- The first ready task of a list. -/
def firstReady (s : Sched) (l : List ℕ) : Option ℕ :=
  l.find? fun i => decide ((s.tasks i).taskState = .ready)

/-- What is appended to the list: the task that ran, unless it is a zombie. -/
def yielded (s : Sched) : List ℕ := if s.current.taskState = .zombie then [] else [s.runningTask]

/-- `schedule` switches to `x`, takes it off the list, and appends the task that ran. -/
def Rotates (s : Sched) (l : List ℕ) (x : ℕ) : Prop :=
  ∃ t, s.schedule = some t ∧ t.runningTask = x ∧ x ∉ l.erase x ++ s.yielded ∧
    Chain t.next t.overallTaskList (l.erase x ++ s.yielded)

/-- The running task is not put on the list, or has no link. -/
def Unlinked (s : Sched) : Prop := s.current.taskState = .zombie ∨ s.next s.runningTask = none

/-- A step that keeps the list in order. A call of `schedule` that leaves the list empty needs a running
task without a link, and a call without a ready task an idle task that is neither running nor on the
list. -/
def Fits (s : Sched) : RotationOp → Prop
  | .setStates _ => True
  | .schedule => ∀ l, Chain s.next s.overallTaskList l →
    match s.firstReady l with
    | some x => l = [x] → s.Unlinked
    | none => idleTask ∉ l ∧ s.runningTask ≠ idleTask ∧ (l = [] → s.Unlinked)

/-- A list that becomes empty had one task. -/
theorem erase_eq_nil_iff (hx : s.firstReady l = some x) : l.erase x = [] ↔ l = [x] := by
  have hmem : x ∈ l := List.mem_of_find?_eq_some hx
  have hne : l ≠ [] := List.ne_nil_of_mem hmem
  rw [List.erase_eq_nil_iff, or_iff_right hne]

/-- The list is a chain of PCBs, and the running task is not on it. -/
structure Rotating (s : Sched) (l : List ℕ) : Prop where
  /-- The chain. -/
  chain : Chain s.next s.overallTaskList l
  /-- Its tasks are in `pcb_arr`. -/
  lt : ∀ i ∈ l, i < numPcb
  /-- So is the running task. -/
  running_lt : s.runningTask < numPcb
  /-- The running task is not on the list. -/
  running : s.runningTask ∉ l

namespace Rotating

variable (h : s.Rotating l)

include h

theorem length_le : l.length ≤ numPcb := length_le_numPcb h.chain.nodup h.lt

/-- The rest of `schedule`, once the next task `x` is found and the list is `l'`. -/
theorem append (s₁ : Sched) {l' : List ℕ} (hstate : s₁.tasks s.runningTask = s.current)
    (hchain : Chain s₁.next s₁.overallTaskList l') (hsub : l' ⊆ l)
    (hnext : s₁.next s.runningTask = s.next s.runningTask) (hfits : l' = [] → s.Unlinked) :
    ∃ t, s₁.addToTaskList s.runningTask = some t ∧ t.runningTask = s₁.runningTask ∧
      Chain t.next t.overallTaskList (l' ++ s.yielded) := by
  have hrun : s.runningTask ∉ l' := fun hm => h.running (hsub hm)
  have hlen : l'.length ≤ numPcb := length_le_numPcb hchain.nodup fun i hi => h.lt i (hsub hi)
  by_cases hz : s.current.taskState = .zombie
  · refine ⟨_, addToTaskList_of_zombie (by rw [hstate, hz]), rfl, ?_⟩
    rw [yielded, if_pos hz, List.append_nil]
    exact hchain
  · have hz₁ : (s₁.tasks s.runningTask).taskState ≠ .zombie := by rwa [hstate]
    obtain ⟨t, ht, hcore, hlist, -⟩ := addToTaskList_spec s.runningTask [] hchain hlen
      (fun hnil => by rw [hnext, (hfits hnil).resolve_left hz]; rfl) fun hm => absurd hm hrun
    have hrunning : t.runningTask = s₁.runningTask := by rw [hcore]
    refine ⟨t, ht, hrunning, ?_⟩
    rw [if_neg (by simp [hz₁, hrun])] at hlist
    rw [yielded, if_neg hz]
    split at hlist
    · rename_i hnil
      rwa [hnil]
    · exact hlist

/-- `schedule` with a ready task, up to its call of `add_to_task_list`. -/
theorem schedule_eq (hx : s.firstReady l = some x) :
    ∃ s₁ : Sched, s.schedule = s₁.addToTaskList s.runningTask ∧ s₁.runningTask = x ∧
      s₁.tasks s.runningTask = s.current ∧ Chain s₁.next s₁.overallTaskList (l.erase x) ∧
      s₁.next s.runningTask = s.next s.runningTask := by
  obtain ⟨s', hs', hcore, -, hchain, hnext, -⟩ := fetchReadyTask_spec h.chain h.length_le hx
  have hne : s.runningTask ≠ x := fun hc => h.running (hc ▸ List.mem_of_find?_eq_some hx)
  refine ⟨{ s' with runningTask := x }, by rw [schedule, hs']; rfl, rfl, ?_, hchain,
    hnext _ h.running⟩
  have htasks : s'.tasks = s.tasks.setState x .running := congrArg Core.tasks hcore
  show s'.tasks s.runningTask = s.tasks s.runningTask
  rw [htasks, Tasks.setState_of_ne hne]

/-- The task that `schedule` switches to is not on the list. -/
theorem notMem_yielded (hx : s.firstReady l = some x) : x ∉ l.erase x ++ s.yielded := by
  have hmem : x ∈ l := List.mem_of_find?_eq_some hx
  rw [List.mem_append, not_or]
  refine ⟨h.chain.nodup.not_mem_erase, fun hc => ?_⟩
  rw [yielded] at hc
  split at hc
  · cases hc
  · exact h.running (List.mem_singleton.mp hc ▸ hmem)

/-- A call with a ready task does what it should exactly if it does not put a task with a link on an
empty list. -/
theorem rotates_iff (hx : s.firstReady l = some x) : s.Rotates l x ↔ (l = [x] → s.Unlinked) := by
  obtain ⟨s₁, heq, hrun, hstate, hchain, hnext⟩ := h.schedule_eq hx
  rw [← erase_eq_nil_iff hx]
  constructor
  · rintro ⟨t, ht, -, -, hlist⟩ hnil
    by_contra hlinked
    obtain ⟨hz, hsome⟩ := not_or.mp hlinked
    rw [hnil] at hchain hlist
    rw [heq, addToTaskList_of_none hchain (by rwa [hstate])] at ht
    obtain rfl := Option.some.inj ht
    rw [yielded, if_neg hz] at hlist
    exact hsome (hnext.symm.trans hlist.2)
  · intro hfits
    obtain ⟨t, ht, hrunning, hlist⟩ := h.append _ hstate hchain List.erase_subset hnext hfits
    exact ⟨t, heq.trans ht, hrunning.trans hrun, h.notMem_yielded hx, hlist⟩

/-- What `schedule` appends is in `pcb_arr`. -/
theorem lt_of_mem_append {l' : List ℕ} (hsub : l' ⊆ l) : ∀ i ∈ l' ++ s.yielded, i < numPcb := by
  intro i hi
  rcases List.mem_append.mp hi with hi | hi
  · exact h.lt i (hsub hi)
  · rw [yielded] at hi
    split at hi
    · cases hi
    · exact List.mem_singleton.mp hi ▸ h.running_lt

/-- A call of `schedule` that fits leaves a chain that does not have the running task. -/
theorem schedule (hfits : s.Fits .schedule) (hs : s.schedule = some t) : ∃ l', t.Rotating l' := by
  have hfits := hfits l h.chain
  cases hx : s.firstReady l with
  | some x =>
    rw [hx] at hfits
    obtain ⟨t', ht', hrun, hoff, hchain⟩ := (h.rotates_iff hx).mpr hfits
    obtain rfl : t' = t := Option.some.inj (ht'.symm.trans hs)
    refine ⟨_, hchain, h.lt_of_mem_append List.erase_subset, ?_, hrun ▸ hoff⟩
    rw [hrun]
    exact h.lt x (List.mem_of_find?_eq_some hx)
  | none =>
    rw [hx] at hfits
    obtain ⟨hidle, hne, hnil⟩ := hfits
    have hfetch : s.fetchReadyTask = some (idleTask, s) := by
      rw [fetchReadyTask, firstFrom_of_forall h.chain (Nat.lt_succ_of_le h.length_le) fun i hi =>
        Bool.not_eq_true _ ▸ List.find?_eq_none.mp hx i hi]
      rfl
    obtain ⟨t', ht', hrun, hchain⟩ := h.append { s with runningTask := idleTask } rfl h.chain
      (List.Subset.refl l) rfl hnil
    have hs' : s.schedule = some t' := by
      rw [Sched.schedule, hfetch]
      exact ht'
    obtain rfl : t' = t := Option.some.inj (hs'.symm.trans hs)
    refine ⟨_, hchain, h.lt_of_mem_append (List.Subset.refl l), ?_, ?_⟩
    · rw [hrun]
      exact Nat.lt_of_sub_eq_succ rfl
    · rw [hrun, List.mem_append, not_or]
      refine ⟨hidle, fun hc => ?_⟩
      rw [yielded] at hc
      split at hc
      · cases hc
      · exact hne (List.mem_singleton.mp hc).symm

/-- A step that fits keeps the chain in order. -/
theorem step {op : RotationOp} (hfits : s.Fits op) (hs : s.rotationStep op = some t) :
    ∃ l', t.Rotating l' := by
  cases op with
  | schedule => exact h.schedule hfits hs
  | setStates states =>
    obtain rfl := Option.some.inj hs
    exact ⟨l, h.chain, h.lt, h.running_lt, h.running⟩

end Rotating

/-- In every state of a run whose calls of `schedule` so far have not put a task with a link on an empty
list, and have not gone to an idle task that is running or on the list, a call with a ready task switches
to the first one, takes it off the list, keeps the order of the others, and appends the task that ran,
unless it is a zombie, exactly if this call does not put a task with a link on an empty list. -/
theorem schedule_rotates_iff (s₀ s : Sched) (l₀ : List ℕ) (ops : List RotationOp)
    (h : s₀.Rotating l₀) (hops : Along rotationStep Fits s₀ ops)
    (hvisit : Visits rotationStep s₀ ops s) :
    ∃ l, Chain s.next s.overallTaskList l ∧
      ∀ x, s.firstReady l = some x → (s.Rotates l x ↔ (l = [x] → s.Unlinked)) := by
  have hstep : ∀ (s : Sched) (op : RotationOp) (t : Sched), (∃ l, s.Rotating l) → s.Fits op →
      s.rotationStep op = some t → ∃ l, t.Rotating l := by
    rintro s op t ⟨l, hl⟩ hfits hs
    exact hl.step hfits hs
  obtain ⟨l, hl⟩ := hvisit.invariant hops hstep ⟨l₀, h⟩
  exact ⟨l, hl.chain, fun x hx => hl.rotates_iff hx⟩

/-- Task 2 runs, and 3 and 4 are on the list. -/
def threeTasks : Sched where
  tasks := fun i => ⟨i, 0, none, 0, if i = 2 then .running else .ready, .user, i, 0⟩
  runningTask := 2
  timerCount := 0
  terminalLineCount := 0
  born := 5
  exited := []
  reported := []
  next := fun i => if i = 3 then some 4 else none
  overallTaskList := some 3
  freePcbHead := none

theorem threeTasks_rotating : threeTasks.Rotating [3, 4] :=
  ⟨⟨rfl, rfl, rfl⟩, by decide, by decide, by decide⟩

/-- A call that finds another task than the last of the list fits. -/
theorem fits_schedule (hl : Chain s.next s.overallTaskList l) (hx : s.firstReady l = some x) (hone : l ≠ [x]) :
    s.Fits .schedule := by
  intro l' hl'
  obtain rfl := hl'.unique hl
  rw [hx]
  exact fun hc => absurd hc hone

/-- Task 3 runs and yields, 4 runs and yields, and 2 is the next. -/
theorem schedule_rotates_three : ∃ s, run rotationStep threeTasks
      [.schedule, .setStates fun i => if i = 3 then .running else .ready, .schedule,
        .setStates fun i => if i = 4 then .running else .ready] = some s ∧
    s.Rotates [2, 3] 2 := by
  have heval : (run rotationStep threeTasks
      [.schedule, .setStates fun i => if i = 3 then .running else .ready, .schedule,
        .setStates fun i => if i = 4 then .running else .ready]).map (fun s =>
        (s.overallTaskList, s.next 2, s.next 3, s.firstReady [2, 3])) =
      some (some 2, some 3, none, some 2) := rfl
  have hfirst : threeTasks.schedule.map (fun s => (s.overallTaskList, s.next 4, s.next 2)) =
      some (some 4, some 2, none) := rfl
  have hfits : Along rotationStep Fits threeTasks
      [.schedule, .setStates fun i => if i = 3 then .running else .ready, .schedule,
        .setStates fun i => if i = 4 then .running else .ready] := by
    refine ⟨fits_schedule threeTasks_rotating.chain rfl (by decide), fun s₁ hs₁ => ⟨trivial, fun s₂ hs₂ => ?_⟩⟩
    have hs₁ : threeTasks.schedule = some s₁ := hs₁
    rw [hs₁, Option.map_some, Option.some.injEq, Prod.mk.injEq, Prod.mk.injEq] at hfirst
    obtain ⟨hhead, hlink, hend⟩ := hfirst
    obtain rfl := Option.some.inj hs₂
    exact ⟨fits_schedule (l := [4, 2]) ⟨hhead, hlink, hend⟩ rfl (by decide), fun _ _ => ⟨trivial, fun _ _ => trivial⟩⟩
  obtain ⟨s, hs, hfields⟩ := Option.map_eq_some_iff.mp heval
  simp only [Prod.mk.injEq] at hfields
  obtain ⟨hhead, hlink, hend, hready⟩ := hfields
  obtain ⟨l, hl, hiff⟩ := schedule_rotates_iff threeTasks s [3, 4] _ threeTasks_rotating hfits (visits_of_run hs)
  obtain rfl : l = [2, 3] := hl.unique ⟨hhead, hlink, hend⟩
  exact ⟨s, hs, (hiff 2 hready).mpr fun hone => absurd hone (by decide)⟩

/-- Task 2 exits, and then 4 is switched to from 3, which still has its link to 4: the list has 4, which
is running. -/
theorem running_task_on_list : ¬ ∀ (s₀ s : Sched) (l₀ : List ℕ) (ops : List RotationOp),
    s₀.Rotating l₀ → s₀.next s₀.runningTask = none → Visits rotationStep s₀ ops s →
    ∃ l, Chain s.next s.overallTaskList l ∧ ∀ x, s.firstReady l = some x → s.Rotates l x := by
  intro hall
  -- The state after the first call, and what the second call makes of it.
  have heval : (run rotationStep threeTasks
      [.setStates fun i => if i = 2 then .zombie else .ready, .schedule]).map (fun s =>
        (s.overallTaskList, s.next 4, s.firstReady [4], s.yielded,
          s.schedule.map (·.next 3))) = some (some 4, none, some 4, [3], some (some 4)) := rfl
  obtain ⟨s, hs, hfields⟩ := Option.map_eq_some_iff.mp heval
  obtain ⟨hhead, hfields⟩ := Prod.mk.inj hfields
  obtain ⟨hnext, hfields⟩ := Prod.mk.inj hfields
  obtain ⟨hready, hfields⟩ := Prod.mk.inj hfields
  obtain ⟨hyielded, hafter⟩ := Prod.mk.inj hfields
  obtain ⟨l, hl, hrotates⟩ := hall threeTasks s [3, 4] _ threeTasks_rotating rfl (visits_of_run hs)
  obtain rfl : l = [4] := hl.unique ⟨hhead, hnext⟩
  obtain ⟨t, ht, -, -, hchain⟩ := hrotates 4 hready
  rw [hyielded] at hchain
  have hnone : t.next 3 = none := hchain.2
  rw [ht, Option.map_some, hnone] at hafter
  cases hafter

end Sched

end Nascent
