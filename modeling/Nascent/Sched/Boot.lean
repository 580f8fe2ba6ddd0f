import Nascent.Sched.Refine

/-!
# The first processes

`create_pcb_list` links all PCBs in order, and `start` takes three of them: the init task and the
idle task, which go on `overall_task_list`, and the shell, which runs. `Queues.start` is this state
with lists, and the links of `Sched.start` are those of its lists.
-/

namespace Nascent

open Linked (Chain)

namespace Sched

variable {s : Sched} {l : List ℕ}

/-- One PCB of `create_pcb_list` becomes the head of the free list. -/
theorem linkPcb_eq (s : Sched) (i : ℕ) : s.linkPcb i =
    { s with freePcbHead := some i, next := Function.update s.next i s.freePcbHead } := by
  rw [linkPcb]
  cases s.freePcbHead with
  | none => rfl
  | some head => rfl

/-- The PCBs that `create_pcb_list` links, in turn. -/
theorem foldl_linkPcb (is : List ℕ) (hl : Chain s.next s.freePcbHead l)
    (hnd : (is.reverse ++ l).Nodup) : ∃ next head,
      is.foldl linkPcb s = { s with next := next, freePcbHead := head } ∧
      Chain next head (is.reverse ++ l) := by
  induction is generalizing s l with
  | nil => exact ⟨s.next, s.freePcbHead, rfl, hl⟩
  | cons i is ih =>
    rw [List.reverse_cons, List.append_assoc] at hnd ⊢
    have hi : i ∉ l := (List.nodup_cons.mp (List.nodup_append.mp hnd).2.1).1
    rw [List.foldl_cons, linkPcb_eq]
    refine ih ⟨rfl, ?_⟩ hnd
    show Chain (Function.update s.next i s.freePcbHead)
      (Function.update s.next i s.freePcbHead i) l
    rw [Function.update_self]
    exact hl.update_of_notMem hi _

/-- The PCBs up to `n` are linked in order. -/
theorem foldl_linkPcb_range (n : ℕ) : ∃ next head,
    (List.range n).reverse.foldl linkPcb blank = { blank with next := next, freePcbHead := head } ∧
      Chain next head (List.range' 0 n) := by
  obtain ⟨next, head, heq, hchain⟩ := foldl_linkPcb (s := blank) (l := []) (List.range n).reverse
    rfl (by simpa using List.nodup_range)
  rw [List.reverse_reverse, List.append_nil, List.range_eq_range'] at hchain
  exact ⟨next, head, heq, hchain⟩

/-- After `create_pcb_list` all PCBs are free. -/
theorem createPcbList_spec : ∃ next, createPcbList blank =
      { blank with next := next, freePcbHead := some 0 } ∧
    Chain next (some 0) (0 :: 1 :: 2 :: List.range' 3 997) := by
  obtain ⟨next, head, heq, hchain⟩ := foldl_linkPcb_range (997 + 1 + 1 + 1)
  rw [List.range'_succ, List.range'_succ, List.range'_succ] at hchain
  obtain rfl : head = some 0 := hchain.1
  exact ⟨next, heq, hchain⟩

end Sched

namespace Queues

/-- The tasks once the first processes are there. -/
def startTasks : Tasks :=
  let t := (Sched.blank.tasks.fetch 0 1).modify 0 fun x => { x with cont := .initProcess }
  let t := (t.fetch 1 2).modify 1 fun x => { x with cont := .idleProcess }
  (t.fetch 2 3).modify 2 fun x => { x with taskState := .running, cont := .user }

/-- The state at the start of the shell. -/
def start : Queues where
  tasks := startTasks
  runningTask := 2
  timerCount := 0
  terminalLineCount := 0
  born := 3
  exited := []
  reported := []
  list := [0, 1]
  free := List.range' 3 997
  linked := false

/-- The other PCBs have not been used yet. -/
theorem startTasks_of_le {i : ℕ} (hi : 3 ≤ i) : startTasks i = Sched.blank.tasks i := by
  have h0 : i ≠ 0 := by omega
  have h1 : i ≠ 1 := by omega
  have h2 : i ≠ 2 := by omega
  simp only [startTasks, Tasks.fetch, Tasks.modify_of_ne _ _ _ h0, Tasks.modify_of_ne _ _ _ h1,
    Tasks.modify_of_ne _ _ _ h2]

/-- A PCB is one of the first three or was not used yet. -/
theorem lt_three_cases (i : ℕ) : i = 0 ∨ i = 1 ∨ i = 2 ∨ 3 ≤ i := by omega

/-- The lists are in order at the start. -/
theorem settled_start : start.Settled where
  list_nodup := by decide
  free_nodup := List.nodup_range'
  disjoint := by decide +kernel
  list_lt := by decide
  free_lt i hi := by
    have hr := List.mem_range'_1.mp hi
    exact show i < 1000 by omega
  free_iff i hi := by
    show i ∈ List.range' 3 997 ↔ (startTasks i).uid = 0
    rcases lt_three_cases i with rfl | rfl | rfl | h3
    · decide +kernel
    · decide +kernel
    · decide +kernel
    · rw [startTasks_of_le h3, List.mem_range'_1]
      have hi : i < 1000 := hi
      exact ⟨fun _ => rfl, fun _ => by omega⟩
  running_lt := by decide
  running_uid := by decide
  queued i _ hu _ hne := by
    rcases lt_three_cases i with rfl | rfl | rfl | h3
    · decide
    · decide
    · exact absurd rfl hne
    · exact absurd (congrArg Task.uid (startTasks_of_le h3)) hu
  kernel := by decide
  last := by decide
  linked := by decide
  init := by decide
  idle := by decide
  runs i _ hu hs := by
    rcases lt_three_cases i with rfl | rfl | rfl | h3
    · exact absurd hs (by decide)
    · exact absurd hs (by decide)
    · rfl
    · exact absurd (congrArg Task.uid (startTasks_of_le h3)) hu
  free_state i hi := by
    have h3 := (List.mem_range'_1.mp hi).1
    exact .inr (congrArg Task.taskState (startTasks_of_le h3))
  idle_state := by decide
  init_cont := by decide
  idle_cont := by decide
  zombie := by decide

end Queues

/-- The links after `start` are those of the lists. -/
theorem rep_start : ∃ s, Sched.start = some s ∧ Rep s Queues.start := by
  obtain ⟨next, heq, h0, h1, h2, hfree⟩ := Sched.createPcbList_spec
  have hne : ∀ i ∈ List.range' 3 997, i ≠ 0 ∧ i ≠ 1 ∧ i ≠ 2 := fun i hi => by
    have hr := List.mem_range'_1.mp hi
    omega
  -- The links that the three calls of `fetch_free_pcb` and the two of `add_to_task_list` write.
  set next' : ℕ → Option ℕ := Function.update (Function.update (Function.update
    (Function.update (Function.update next 0 none) 1 none) 0 (some 1)) 1 none) 2 none with hnext'
  have hsame : ∀ i ∈ List.range' 3 997, next' i = next i := fun i hi => by
    obtain ⟨hi0, hi1, hi2⟩ := hne i hi
    simp only [hnext', Function.update_of_ne hi0, Function.update_of_ne hi1,
      Function.update_of_ne hi2]
  refine ⟨⟨Queues.start.toCore, next', some 0, next 2⟩, ?_, rfl, ⟨rfl, ?_⟩, hfree.congr hsame,
    fun _ => ?_⟩
  · -- The walk along the list with the init task on it.
    have hlast : Linked.lastFrom (Function.update (Function.update next 0 none) 1 none) numPcb 0 =
        some 0 := by
      refine Linked.lastFrom_of_chain (l := []) ⟨rfl, ?_⟩ (by decide)
      simp
    rw [Sched.start, heq]
    simp [Sched.createKernelProcess, Sched.fetchFreePcb, Sched.addToTaskList,
      Sched.linkLast, Sched.blank, Tasks.fetch, h1, h2, hnext', Queues.start, Queues.startTasks,
      hlast]
  · simp [hnext']
  · simp [hnext', Queues.start]

end Nascent
