import Nascent.Sched.Orderly

/-!
# The links of the lists

`Rep s a` says that the links of the state `s` are those of the lists of `a`. This file is about the
functions that write links: `add_to_task_list` and `append_in_free_list` walk to the end of a list,
for which the list must have no more tasks than there are PCBs, and `fetch_ready_task` takes a task
out of it. `Rep.schedule` puts them together.
-/

namespace Nascent

open Linked (Chain)

variable {s s' : Sched} {a : Queues} {l fl behind : List ℕ} {i task child x : ℕ}

/-- A list of distinct tasks is no longer than the process table. -/
theorem length_le_numPcb (hnd : l.Nodup) (hlt : ∀ i ∈ l, i < numPcb) : l.length ≤ numPcb := by
  have hsub : l ⊆ List.range numPcb := fun i hi => List.mem_range.mpr (hlt i hi)
  simpa using (hnd.subperm hsub).length_le

/-- The last element stays when another one is taken out. -/
theorem getLast?_erase {i : ℕ} (hlast : l.getLast? = some i) (hne : i ≠ x) :
    (l.erase x).getLast? = some i := by
  obtain ⟨l₀, rfl⟩ := List.getLast?_eq_some_iff.mp hlast
  by_cases hx : x ∈ l₀
  · rw [List.erase_append_left _ hx]
    simp
  · rw [List.erase_append_right _ hx, List.erase_of_not_mem (by simpa using hne.symm)]
    simp

namespace Sched

/-- What the walk to the end of a list and the append do: the list has one task more, unless this is
its last task already, and other lists and links stay. -/
theorem linkLast_spec {head : ℕ} (hl : Chain s.next (some head) l) (hlen : l.length ≤ numPcb)
    (hmem : task ∈ l → l.getLast? = some task) :
    ∃ next, s.linkLast head task = some { s with next := next } ∧
      Chain next (some head) (if task ∈ l then l else l ++ [task]) ∧
      (∀ start l', Chain s.next start l' → (∀ i ∈ l, i ∉ l') → task ∉ l' → Chain next start l') ∧
      ∀ i, i ≠ task → i ∉ l → next i = s.next i := by
  rcases List.eq_nil_or_concat' l with rfl | ⟨l₀, e, rfl⟩
  · cases hl
  have hwalk : Linked.lastFrom s.next numPcb head = some e := Linked.lastFrom_of_chain hl hlen
  refine ⟨_, by rw [linkLast, hwalk, Option.map_some], ?_, fun start l' hl' hdisj ht => ?_,
    fun i hi hil => ?_⟩
  · by_cases htask : task ∈ l₀ ++ [e]
    · -- The last task is linked to itself, and then reset.
      have he : e = task := by simpa using hmem htask
      have hnone : s.next task = none := he ▸ hl.tail_of_append
      rw [if_pos htask, he, Function.update_idem, ← hnone, Function.update_eq_self, ← he]
      exact hl
    · have hte : task ≠ e := fun h => htask (by simp [h])
      rw [if_neg htask, List.append_assoc]
      exact hl.set_last (fun h => htask (List.mem_append_left _ h)) hte
  · exact (hl'.update_of_notMem (hdisj e (by simp)) _).update_of_notMem ht _
  · have hie : i ≠ e := fun h => hil (by simp [h])
    rw [Function.update_of_ne hi, Function.update_of_ne hie]

/-- `add_to_task_list`, once the task is not running any more. -/
theorem addToTaskList_eq (s : Sched) (task : ℕ) : s.addToTaskList task =
    if (Queues.demote s.tasks task task).taskState = .zombie then
      some { s with tasks := Queues.demote s.tasks task }
    else match s.overallTaskList with
      | none => some { s with
          tasks := Queues.demote s.tasks task, overallTaskList := some task }
      | some head => linkLast { s with tasks := Queues.demote s.tasks task } head task := by
  rw [addToTaskList, Queues.demote]
  split_ifs <;> rfl

/-- A zombie is not appended. -/
theorem addToTaskList_of_zombie (hz : (s.tasks task).taskState = .zombie) :
    s.addToTaskList task = some { s with tasks := Queues.demote s.tasks task } := by
  rw [addToTaskList_eq, if_pos ((Queues.demote_zombie _).mpr hz)]

/-- A task that is put on an empty list keeps its link. -/
theorem addToTaskList_of_none (hnone : s.overallTaskList = none)
    (hlive : (s.tasks task).taskState ≠ .zombie) : s.addToTaskList task =
      some { s with tasks := Queues.demote s.tasks task, overallTaskList := some task } := by
  rw [addToTaskList_eq, if_neg fun hc => hlive ((Queues.demote_zombie _).mp hc), hnone]

/-- `add_to_task_list` appends the task, unless it is a zombie or there already. -/
theorem addToTaskList_spec (task : ℕ) (behind : List ℕ) (hl : Chain s.next s.overallTaskList l)
    (hlen : l.length ≤ numPcb) (hbehind : l = [] → Chain s.next (s.next task) behind)
    (hlast : task ∈ l → (s.tasks task).taskState = .zombie ∨ l.getLast? = some task) :
    ∃ s', s.addToTaskList task = some s' ∧
      s'.toCore = { s.toCore with tasks := Queues.demote s.tasks task } ∧
      Chain s'.next s'.overallTaskList (if (s.tasks task).taskState = .zombie ∨ task ∈ l then l
        else if l = [] then task :: behind else l ++ [task]) ∧
      (∀ fl, Chain s.next s.freePcbHead fl → (∀ i ∈ l, i ∉ fl) → task ∉ fl →
        Chain s'.next s'.freePcbHead fl) ∧
      (∀ i, i ≠ task → i ∉ l → s'.next i = s.next i) ∧
      (l ≠ [] → s'.overallTaskList = s.overallTaskList) := by
  -- The state in which the task is not running any more.
  set s₁ : Sched := { s with tasks := Queues.demote s.tasks task } with hs₁
  have hz : (Queues.demote s.tasks task task).taskState = .zombie ↔
      (s.tasks task).taskState = .zombie := Queues.demote_zombie _
  have hdef : s.addToTaskList task = if (s₁.tasks task).taskState = .zombie then some s₁ else
      match s₁.overallTaskList with
      | none => some { s₁ with overallTaskList := some task }
      | some head => s₁.linkLast head task := addToTaskList_eq s task
  rw [hdef]
  by_cases hzombie : (s.tasks task).taskState = .zombie
  · rw [if_pos (hz.mpr hzombie), if_pos (.inl hzombie)]
    exact ⟨s₁, rfl, rfl, hl, fun _ hfl _ _ => hfl, fun _ _ _ => rfl, fun _ => rfl⟩
  rw [if_neg fun h => hzombie (hz.mp h)]
  cases hhead : s₁.overallTaskList with
  | none =>
    have hnil : l = [] := by
      have := hl.start_eq
      rw [show s.overallTaskList = none from hhead] at this
      exact List.head?_eq_none_iff.mp this.symm
    subst hnil
    rw [if_neg (by simp [hzombie]), if_pos rfl]
    exact ⟨_, rfl, rfl, ⟨rfl, hbehind rfl⟩, fun _ hfl _ _ => hfl, fun _ _ _ => rfl,
      fun h => absurd rfl h⟩
  | some head =>
    have hl' : Chain s₁.next (some head) l := hhead ▸ hl
    have hne : l ≠ [] := by
      rintro rfl
      cases hl'
    obtain ⟨next, heq, hlist, hother, hnext⟩ := linkLast_spec hl' hlen fun h =>
      (hlast h).resolve_left hzombie
    refine ⟨_, heq, rfl, ?_, fun fl hfl => hother _ fl hfl, hnext, fun _ => hhead⟩
    simp only [hzombie, false_or, hne, if_false]
    exact hhead.symm ▸ hlist

/-- `fetch_ready_task` with a ready task takes the first one off the list. -/
theorem fetchReadyTask_spec (hl : Chain s.next s.overallTaskList l) (hlen : l.length ≤ numPcb)
    (hsome : l.find? (fun i => decide ((s.tasks i).taskState = .ready)) = some x) :
    ∃ s', s.fetchReadyTask = some (x, s') ∧
      s'.toCore = { s.toCore with tasks := s.tasks.setState x .running } ∧
      s'.freePcbHead = s.freePcbHead ∧ Chain s'.next s'.overallTaskList (l.erase x) ∧
      (∀ i, i ∉ l → s'.next i = s.next i) ∧
      s'.next x = if l.head? = some x then s'.overallTaskList else none := by
  -- The list around the task.
  obtain ⟨hready, l₁, l₂, rfl, hbefore⟩ := List.find?_eq_some_iff_append.mp hsome
  have hnd := hl.nodup
  have hx₁ : x ∉ l₁ := fun hm => (List.nodup_append.mp hnd).2.2 x hm x (List.mem_cons_self ..) rfl
  have herase : (l₁ ++ x :: l₂).erase x = l₁ ++ l₂ := by
    rw [List.erase_append_right _ hx₁, List.erase_cons_head]
  have hfirst : Linked.firstFrom s.next (fun i => decide ((s.tasks i).taskState = .ready))
      (numPcb + 1) none s.overallTaskList = some (some (l₁.getLast?, x)) := by
    rw [Linked.firstFrom_of_append hl (Nat.lt_succ_of_le hlen) (fun b hb => by
      simpa using hbefore b hb) hready, Option.or_none]
  rw [herase, fetchReadyTask, hfirst]
  rcases List.eq_nil_or_concat' l₁ with rfl | ⟨l₀, p, rfl⟩
  · -- The task is the first one.
    have hhead : s.overallTaskList = some x := hl.1
    simp only [List.getLast?_nil, Option.bind_eq_bind, Option.bind_some, hhead]
    exact ⟨_, rfl, rfl, rfl, hl.2, fun _ _ => rfl, by simp⟩
  · simp only [List.getLast?_append, List.getLast?_singleton, Option.some_or, Option.bind_eq_bind,
      Option.bind_some]
    have hlist : Chain s.next s.overallTaskList (l₀ ++ p :: x :: l₂) := by simpa using hl
    refine ⟨_, rfl, rfl, rfl, by simpa using hlist.unlink, fun i hi => ?_, ?_⟩
    · have hix : i ≠ x := fun hc => hi (by simp [hc])
      have hip : i ≠ p := fun hc => hi (by simp [hc])
      show Function.update (Function.update s.next p (s.next x)) x none i = s.next i
      rw [Function.update_of_ne hix, Function.update_of_ne hip]
    · have hne : (l₀ ++ [p] ++ x :: l₂).head? ≠ some x := by
        intro hc
        rw [List.head?_append_of_ne_nil _ (by simp)] at hc
        exact hx₁ (List.mem_of_mem_head? hc)
      rw [if_neg hne]
      exact Function.update_self ..

/-- `append_in_free_list` appends the PCB. -/
theorem appendInFreeList_spec (hl : Chain s.next s.overallTaskList l)
    (hfl : Chain s.next s.freePcbHead fl) (hlen : fl.length ≤ numPcb) (hfree : task ∉ fl)
    (htask : task ∉ l) (hdisj : ∀ i ∈ l, i ∉ fl) :
    ∃ s', s.appendInFreeList task = some s' ∧ s'.toCore = s.toCore ∧
      Chain s'.next s'.overallTaskList l ∧ Chain s'.next s'.freePcbHead (fl ++ [task]) ∧
      (∀ i, i ≠ task → i ∉ fl → s'.next i = s.next i) ∧
      s'.overallTaskList = s.overallTaskList := by
  rw [appendInFreeList]
  cases hhead : s.freePcbHead with
  | none =>
    have hnil : fl = [] := by
      have := hfl.start_eq
      rw [hhead] at this
      exact List.head?_eq_none_iff.mp this.symm
    subst hnil
    refine ⟨_, rfl, rfl, hl.update_of_notMem htask _, ⟨rfl, ?_⟩, fun i hi _ => ?_, rfl⟩
    · exact Function.update_self ..
    · exact Function.update_of_ne hi ..
  | some head =>
    obtain ⟨next, heq, hlist, hother, hnext⟩ := linkLast_spec (hhead ▸ hfl) hlen fun h =>
      absurd h hfree
    refine ⟨_, heq, rfl, hother _ _ hl (fun i hi hil => hdisj i hil hi) htask, ?_, hnext, rfl⟩
    rw [if_neg hfree] at hlist
    exact hhead.symm ▸ hlist

end Sched

/-! ## The relation -/

/-- The links of `s` are those of the lists of `a`. -/
structure Rep (s : Sched) (a : Queues) : Prop where
  /-- The rest of the state is the same. -/
  core : s.toCore = a.toCore
  /-- The chain of `overall_task_list`. -/
  list : Chain s.next s.overallTaskList a.list
  /-- The chain of free PCBs. -/
  free : Chain s.next s.freePcbHead a.free
  /-- The link of the running task. -/
  link : a.runningTask ∉ a.list →
    s.next a.runningTask = if a.linked then s.overallTaskList else none

namespace Rep

variable (h : Rep s a) (hf : a.Orderly)

include h

theorem tasks : s.tasks = a.tasks := congrArg Core.tasks h.core

theorem runningTask : s.runningTask = a.runningTask := congrArg Core.runningTask h.core

theorem current : s.current = a.current := congrArg Core.current h.core

include hf

/-- The list is no longer than the process table. -/
theorem list_length : a.list.length ≤ numPcb := length_le_numPcb h.list.nodup hf.list_lt

/-- Neither is the list of free PCBs. -/
theorem free_length : a.free.length ≤ numPcb := length_le_numPcb h.free.nodup hf.free_lt

/-- `fetch_ready_task` without a ready task. -/
theorem fetchReadyTask_none (hnone : a.ready = none) :
    s.fetchReadyTask = some (idleTask, s) := by
  have hfirst : Linked.firstFrom s.next (fun i => decide ((s.tasks i).taskState = .ready))
      (numPcb + 1) none s.overallTaskList = some none := by
    refine Linked.firstFrom_of_forall h.list (Nat.lt_succ_of_le (h.list_length hf)) fun i hi => ?_
    rw [h.tasks]
    exact Bool.not_eq_true _ ▸ List.find?_eq_none.mp hnone i hi
  rw [Sched.fetchReadyTask, hfirst]
  rfl

/-- `fetch_ready_task` with a ready task. -/
theorem fetchReadyTask_some (hsome : a.ready = some x) :
    ∃ s', s.fetchReadyTask = some (x, s') ∧
      s'.toCore = { s.toCore with tasks := s.tasks.setState x .running } ∧
      Chain s'.next s'.overallTaskList (a.list.erase x) ∧ Chain s'.next s'.freePcbHead a.free ∧
      (∀ i, i ∉ a.list → s'.next i = s.next i) ∧
      s'.next x = if a.list.head? = some x then s'.overallTaskList else none := by
  obtain ⟨s', hs', hcore, hhead, hlist, hnext, hx⟩ := Sched.fetchReadyTask_spec h.list
    (h.list_length hf) (by rw [h.tasks]; exact hsome)
  refine ⟨s', hs', hcore, hlist, ?_, hnext, hx⟩
  rw [hhead]
  exact h.free.congr fun i hi => hnext i fun hil => hf.disjoint i hil hi

omit hf in
/-- What hangs behind the task that was running, where the list has become empty. -/
theorem chain_behind {next : ℕ → Option ℕ} {start : Option ℕ} (hsome : a.ready = some x)
    (hnext : ∀ i, i ∉ a.list → next i = s.next i)
    (hx : next x = if a.list.head? = some x then start else none)
    (hlist : Chain next start (a.list.erase x)) (hnil : a.list.erase x = []) :
    Chain next (next a.runningTask)
      (if a.linked = true ∧ a.runningTask ∉ a.list then [x] else []) := by
  have hmem : x ∈ a.list := List.mem_of_find?_eq_some hsome
  have hone : a.list = [x] := by
    have hlen := List.length_erase_of_mem hmem
    rw [hnil] at hlen
    obtain ⟨y, hy⟩ : ∃ y, a.list = [y] := List.length_eq_one_iff.mp (by
      have := List.length_pos_of_mem hmem
      simp at hlen
      omega)
    rw [hy] at hmem
    rw [hy, List.mem_singleton.mp hmem]
  have hxnone : next x = none := by
    rw [hx, hone]
    simpa [hnil] using hlist
  by_cases hrun : a.runningTask ∈ a.list
  · have hrx : a.runningTask = x := by simpa [hone] using hrun
    rw [if_neg fun hc => hc.2 hrun, hrx]
    exact hxnone
  · rw [hnext _ hrun, h.link hrun]
    cases a.linked with
    | false => simp
    | true =>
      have hover : s.overallTaskList = some x := by
        have := h.list
        rw [hone] at this
        exact this.1
      simpa [hrun, hover] using hxnone

/-- `schedule`. -/
theorem schedule : ∃ s', s.schedule = some s' ∧ Rep s' a.schedule := by
  rw [Queues.schedule, Sched.schedule, h.runningTask]
  cases hready : a.ready with
  | none =>
    rw [h.fetchReadyTask_none hf hready]
    simp only [Option.bind_eq_bind, Option.bind_some]
    have hlen := h.list_length hf
    obtain ⟨core, next, overall, head⟩ := s
    obtain rfl : core = a.toCore := h.core
    obtain ⟨s', hs', hcore, hlist, hfree, -, -⟩ := Sched.addToTaskList_spec
      (s := ⟨{ a.toCore with runningTask := idleTask }, next, overall, head⟩) _ [] h.list hlen
      (fun hnil => by
        -- The list is empty, so the running task points to nothing.
        have hlink := h.link (by simp [hnil])
        have hnone : overall = none := by simpa [hnil] using h.list
        simpa [hnone] using hlink) hf.last
    refine ⟨s', hs', hcore, hlist, hfree _ h.free hf.disjoint hf.running,
      fun hidle => (hidle ?_).elim⟩
    -- The idle task runs, and it is on the list.
    rcases hf.idle with hmem | ⟨hrun, hz⟩
    · exact Queues.mem_addToTaskList_of_mem hmem
    · exact hrun ▸ Queues.mem_addToTaskList_self (a := { a with runningTask := _ }) hz
  | some x =>
    obtain ⟨s₁, hs₁, hcore₁, hlist₁, hfree₁, hnext₁, hx₁⟩ := h.fetchReadyTask_some hf hready
    rw [hs₁]
    simp only [Option.bind_eq_bind, Option.bind_some]
    obtain ⟨core, next, overall, head⟩ := s₁
    obtain rfl : core = { a.toCore with tasks := a.tasks.setState x .running } := by
      rw [← h.core]
      exact hcore₁
    have hnd := h.list.nodup
    have hxl : x ∉ a.list.erase x := hnd.not_mem_erase
    have hxstate : (a.tasks.setState x .running x).taskState = .running := by
      simp [Tasks.setState, Tasks.modify]
    -- A task at the end of the list stays there.
    have hlast : a.runningTask ∈ a.list.erase x →
        ((a.take x).tasks a.runningTask).taskState = .zombie ∨
          (a.list.erase x).getLast? = some a.runningTask := fun hm => by
      have hne : a.runningTask ≠ x := fun hc => hxl (hc ▸ hm)
      have hstate : (a.take x).tasks a.runningTask = a.tasks a.runningTask :=
        Function.update_of_ne hne ..
      rw [hstate]
      exact (hf.last (List.mem_of_mem_erase hm)).imp_right fun hl => getLast?_erase hl hne
    obtain ⟨s', hs', hcore, hlist, hfree, hnext, hover⟩ := Sched.addToTaskList_spec
      (s := ⟨(a.take x).toCore, next, overall, head⟩) _ _
      hlist₁ ((List.length_erase_le ..).trans (h.list_length hf))
      (h.chain_behind hready hnext₁ hx₁ hlist₁) hlast
    refine ⟨s', hs', hcore, hlist, hfree _ hfree₁
      (fun i hi => hf.disjoint i (List.mem_of_mem_erase hi)) hf.running, fun hxnew => ?_⟩
    -- The running task is not the last one, which would be on the list.
    have hne : x ≠ a.runningTask := by
      rintro rfl
      have hzombie : ((a.take a.runningTask).tasks a.runningTask).taskState ≠ .zombie := by
        rw [show ((a.take a.runningTask).tasks a.runningTask).taskState = _ from hxstate]
        exact TaskState.noConfusion
      exact hxnew (Queues.mem_addToTaskList_self hzombie)
    show s'.next x = if decide (a.list.head? = some x ∧ a.list.erase x ≠ []) = true then
      s'.overallTaskList else none
    rw [show s'.next x = next x from hnext x hne hxl, show next x = _ from hx₁]
    by_cases hhead : a.list.head? = some x
    · by_cases hnil : a.list.erase x = []
      · have hnone : overall = none := by simpa [hnil] using hlist₁
        simp [hhead, hnil, hnone]
      · have hsame : s'.overallTaskList = overall := hover hnil
        simp [hhead, hnil, hsame]
    · simp [hhead]

end Rep

end Nascent
