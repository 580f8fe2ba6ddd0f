import Nascent.Sched.Actions
import Nascent.Sched.Links

/-!
# The links follow the lists

Each function of the kernel does to the links what its counterpart on lists says, and does not run
off a list. The lists must be in order for this, and a zombie that is reaped must be off
`overall_task_list`. `Rep.step` is the result for an action.
-/

namespace Nascent

open Linked (Chain)

variable {s s' : Sched} {a a' : Queues} {i task child x : ℕ} {op : SchedOp}

namespace Rep

/-- A change that leaves the lists and the running task alone. -/
theorem withCore {c : Core} {next : ℕ → Option ℕ} {overall head : Option ℕ}
    (h : Rep ⟨a.toCore, next, overall, head⟩ a) (hrun : c.runningTask = a.runningTask) :
    Rep ⟨c, next, overall, head⟩ { a with toCore := c } where
  core := rfl
  list := h.list
  free := h.free
  link := by
    show c.runningTask ∉ a.list → next c.runningTask = if a.linked then overall else none
    rw [hrun]
    exact h.link

/-- A change of the running task. -/
theorem modifyCurrent (h : Rep s a) (f : Task → Task) :
    Rep (s.modifyCurrent f) (a.modifyCurrent f) := by
  obtain ⟨core, next, overall, head⟩ := s
  obtain rfl : core = a.toCore := h.core
  exact h.withCore rfl

/-- The running task is put to sleep. -/
theorem block {state : TaskState} {cont : Cont} (h : Rep s a)
    (ho : (a.modifyCurrent fun x => { x with taskState := state, cont := cont }).Orderly) :
    ∃ s', s.block state cont = some s' ∧ Rep s' (a.block state cont) :=
  (h.modifyCurrent _).schedule ho

/-- `sys_exit`. -/
theorem sysExit {target : ℕ} (h : Rep s a)
    (ho : Queues.Orderly { a with
      tasks := a.tasks.exit target, exited := (a.tasks target).uid :: a.exited }) :
    ∃ s', s.sysExit target = some s' ∧ Rep s' (a.sysExit target) := by
  obtain ⟨core, next, overall, head⟩ := s
  obtain rfl : core = a.toCore := h.core
  have hexit := h.withCore
    (c := { a.toCore with tasks := a.tasks.exit target, exited := (a.tasks target).uid :: a.exited })
    rfl
  exact hexit.schedule ho

/-- `fork_process`. -/
theorem forkProcess (h : Rep s a) (ho : a.Orderly) :
    Option.Rel Rep s.forkProcess a.forkProcess := by
  obtain ⟨core, next, overall, head⟩ := s
  obtain rfl : core = a.toCore := h.core
  have hfree : Chain next head a.free := h.free
  have hhead := hfree.start_eq
  rw [Sched.forkProcess, Sched.fetchFreePcb, Queues.forkProcess]
  cases hf : a.free with
  | nil =>
    obtain rfl : head = none := by simpa [hf] using hhead
    exact .none
  | cons child free =>
    obtain rfl : head = some child := by simpa [hf] using hhead
    rw [hf] at hfree
    have hmem : child ∈ a.free := hf ▸ List.mem_cons_self ..
    have hcl : child ∉ a.list := fun hm => ho.disjoint child hm hmem
    have hcf : child ∉ free := (List.nodup_cons.mp hfree.nodup).1
    have hrc : a.runningTask ≠ child := fun hc => ho.running (hc ▸ hmem)
    simp only [Option.bind_eq_bind, Option.bind_some]
    -- The state with the PCB taken off the free list and filled in.
    set c : Core := { a.toCore with
      born := a.born + 1
      tasks := (a.tasks.fetch child (a.born + 1)).modify child fun x => { x with
        parentTask := some a.runningTask
        ppid := ((a.tasks.fetch child (a.born + 1)) a.runningTask).pid
        cont := .user, forker := ((a.tasks.fetch child (a.born + 1)) a.runningTask).uid } } with hc
    obtain ⟨s', hs', hcore, hlist, hfree', hnext, hover⟩ := Sched.addToTaskList_spec
      (s := ⟨c, Function.update next child none, overall, next child⟩) child []
      (h.list.update_of_notMem hcl none) (h.list_length ho) (fun _ => Function.update_self ..)
      fun hm => absurd hm hcl
    have hfree₁ : Chain s'.next s'.freePcbHead free := hfree' _ (hfree.2.update_of_notMem hcf none)
      (fun i hi hif => ho.disjoint i hi (hf ▸ List.mem_cons_of_mem _ hif)) hcf
    rw [show Sched.addToTaskList _ child = some s' from hs']
    refine .some ⟨hcore, hlist, hfree₁, fun hm => ?_⟩
    have hrl : a.runningTask ∉ a.list := fun hc => hm (Queues.mem_addToTaskList_of_mem hc)
    show s'.next a.runningTask = if a.linked then s'.overallTaskList else none
    have hsame : s'.next a.runningTask = next a.runningTask :=
      (hnext _ hrc hrl).trans (Function.update_of_ne hrc ..)
    rw [hsame, show next a.runningTask = _ from h.link hrl]
    cases hlk : a.linked with
    | false => rfl
    | true => exact (hover (ho.linked hlk)).symm

/-- A zombie that is off the list is reaped. -/
theorem reap (h : Rep s a) (ho : a.Orderly) (hi : child < numPcb)
    (hz : (a.tasks child).taskState = .zombie) (hl : child ∉ a.list) (hr : child ≠ a.runningTask) :
    ∃ s', s.reap child = some s' ∧ Rep s' (a.reap child) := by
  obtain ⟨core, next, overall, head⟩ := s
  obtain rfl : core = a.toCore := h.core
  have hfree : child ∉ a.free := fun hm =>
    ho.uid_of_zombie hi hz ((ho.free_iff child hi).mp hm)
  obtain ⟨s', hs', hcore, hlist, hfree', hnext, hover⟩ := Sched.appendInFreeList_spec
    (s := Sched.clearPcb ⟨a.toCore, next, overall, head⟩ child)
    (h.list.update_of_notMem hl none) (h.free.update_of_notMem hfree none) (h.free_length ho)
    hfree hl ho.disjoint
  refine ⟨s', hs', hcore, hlist, hfree', fun hm => ?_⟩
  show s'.next a.runningTask = if a.linked then s'.overallTaskList else none
  rw [hnext _ hr.symm ho.running, hover]
  exact (Function.update_of_ne hr.symm ..).trans (h.link hm)

/-- A loop of `wait_for_child`. -/
theorem reapChild (h : Rep s a) (ho : a.Settled) (hr : a.runningTask ≠ idleTask)
    (hl : ∀ i, a.tasks.zombieChild a.current.pid = some i → i ∉ a.list) :
    ∃ s', s.reapChild = some (a.reapChild.1, s') ∧ Rep s' a.reapChild.2 := by
  unfold Sched.reapChild
  rw [h.tasks, h.current]
  cases hc : a.tasks.zombieChild a.current.pid with
  | none =>
    rw [Queues.reapChild_of_none hc]
    exact ⟨s, rfl, h⟩
  | some i =>
    rw [Queues.reapChild_of_some hc]
    obtain ⟨hi, hz, -⟩ := Tasks.zombieChild_spec hc
    obtain ⟨s', hs', hrep⟩ := h.reap ho.toOrderly hi hz (hl i hc) (ho.ne_running hr hz)
    simp only [hs', Option.bind_eq_bind, Option.bind_some]
    obtain ⟨core, next, overall, head⟩ := s'
    obtain rfl : core = (a.reap i).toCore := hrep.core
    exact ⟨_, rfl, hrep.withCore rfl⟩

/-- `clean_child_pcb`. -/
theorem cleanChildPcb (h : Rep s a) (ho : a.Settled) (hr : a.runningTask ≠ idleTask)
    (hl : ∀ i < numPcb, (a.tasks i).taskState = .zombie → (a.tasks i).ppid = a.current.pid →
      i ∉ a.list) : ∃ s', s.cleanChildPcb = some s' ∧ Rep s' a.cleanChildPcb := by
  have hfold : ∀ (l : List ℕ) (s : Sched) (b : Queues), (∀ i ∈ l, i < numPcb) → Rep s b →
      b.Settled → a.Reaps b → ∃ s', l.foldlM (fun s i =>
        if (s.tasks i).taskState = .zombie ∧ (s.tasks i).ppid = s.current.pid then s.reap i
        else some s) s = some s' ∧ Rep s' (l.foldl (fun a i =>
          if (a.tasks i).taskState = .zombie ∧ (a.tasks i).ppid = a.current.pid then a.reap i
          else a) b) := by
    intro l
    induction l with
    | nil => exact fun s b _ hrep _ _ => ⟨s, rfl, hrep⟩
    | cons i l ih =>
      intro s b hlt hrep hset hreaps
      have hlt' : ∀ j ∈ l, j < numPcb := fun j hj => hlt j (List.mem_cons_of_mem _ hj)
      simp only [List.foldlM_cons, List.foldl_cons, hrep.tasks, hrep.current]
      by_cases hc : (b.tasks i).taskState = .zombie ∧ (b.tasks i).ppid = b.current.pid
      · obtain ⟨hz, hp⟩ := hc
        have hi := hlt i (List.mem_cons_self ..)
        have hne : i ≠ b.runningTask := hset.ne_running (hreaps.runningTask ▸ hr) hz
        have heq := hreaps.zombie i hz
        have hnl : i ∉ b.list := by
          rw [hreaps.list]
          exact hl i hi (heq ▸ hz) (by rw [← heq, hp, hreaps.current])
        obtain ⟨s₁, hs₁, hrep₁⟩ := hrep.reap hset.toOrderly hi hz hnl hne
        rw [if_pos ⟨hz, hp⟩, if_pos ⟨hz, hp⟩, hs₁]
        exact ih s₁ _ hlt' hrep₁ (hset.reap hi hz hnl hne) (hreaps.reap hne)
      · rw [if_neg hc, if_neg hc]
        exact ih s b hlt' hrep hset hreaps
  exact hfold _ s a (fun i hi => List.mem_range.mp hi) h ho (.refl a)

/-- What follows a return from `wait_for_child`. -/
theorem afterWait (h : Rep s a) (ho : a.Settled) (hr : a.runningTask ≠ idleTask)
    (hl : a.runningTask = initTask → ∀ i < numPcb, (a.tasks i).taskState = .zombie →
      (a.tasks i).ppid = a.current.pid → i ∉ a.list) :
    ∃ s', s.afterWait = some s' ∧ Rep s' a.afterWait := by
  have hmod : ∀ cont, (a.runningTask = initTask → cont = .initProcess ∨ cont = .waitForChild) →
      (a.modifyCurrent fun x => { x with cont := cont }).Settled := fun cont hcont =>
    ho.modifyCurrent hr rfl (ho.alive hr) id hcont
  rw [Sched.afterWait, Queues.afterWait, h.runningTask]
  split_ifs with hinit
  · exact (h.modifyCurrent _).cleanChildPcb (hmod .initProcess fun _ => .inl rfl) hr
      (ho.initProcess_reaps hr (hl hinit))
  · exact (h.modifyCurrent _).schedule (hmod .user fun hc => absurd hc hinit).toOrderly

/-- `wait_for_child` after its call of `schedule`. -/
theorem waitForChildWoken (h : Rep s a) (ho : a.Settled) (hr : a.runningTask ≠ idleTask)
    (hw : a.waits op = true) (hl : ∀ i ∈ a.reaped op, i ∉ a.list) :
    ∃ s', s.waitForChildWoken = some s' ∧ Rep s' a.waitForChildWoken := by
  have hfirst : ∀ i, a.tasks.zombieChild a.current.pid = some i → i ∉ a.list := fun i hi =>
    hl i (Core.mem_reaped_of_zombieChild hw hi)
  obtain ⟨s₁, hs₁, hrep₁⟩ := h.reapChild ho hr hfirst
  obtain ⟨hset, hreaps⟩ := ho.reapChild hr hfirst
  have hr' : a.reapChild.2.runningTask ≠ idleTask := by
    rw [hreaps.runningTask]
    exact hr
  unfold Sched.waitForChildWoken
  rw [hs₁]
  exact hrep₁.afterWait hset hr' (hreaps.all_reaped hw hl)

/-- `wait_for_child` from its start. -/
theorem waitForChild (h : Rep s a) (ho : a.Settled) (hr : a.runningTask ≠ idleTask)
    (hw : a.waits op = true) (hl : ∀ i ∈ a.reaped op, i ∉ a.list) :
    ∃ s', s.waitForChild = some s' ∧ Rep s' a.waitForChild := by
  have hfirst : ∀ i, a.tasks.zombieChild a.current.pid = some i → i ∉ a.list := fun i hi =>
    hl i (Core.mem_reaped_of_zombieChild hw hi)
  obtain ⟨s₁, hs₁, hrep₁⟩ := h.reapChild ho hr hfirst
  obtain ⟨hset, hreaps⟩ := ho.reapChild hr hfirst
  have hr' : a.reapChild.2.runningTask ≠ idleTask := by
    rw [hreaps.runningTask]
    exact hr
  have hall := hreaps.all_reaped hw hl
  unfold Sched.waitForChild Queues.waitForChild
  rw [hs₁]
  generalize a.reapChild = p at *
  obtain ⟨_ | found, b⟩ := p
  · exact hrep₁.block (hset.modifyCurrent hr' rfl TaskState.noConfusion TaskState.noConfusion
      fun _ => .inr rfl).toOrderly
  · exact hrep₁.afterWait hset hr' hall

/-- `schedule_terminal_task` by a task that is not one of the kernel's. -/
theorem scheduleTerminalTask (h : Rep s a) (ho : a.Settled) (hinit : a.runningTask ≠ initTask)
    (hr : a.runningTask ≠ idleTask) :
    ∃ s', s.scheduleTerminalTask = some s' ∧ Rep s' a.scheduleTerminalTask := by
  obtain ⟨core, next, overall, head⟩ := s
  obtain rfl : core = a.toCore := h.core
  rw [Sched.scheduleTerminalTask, Queues.scheduleTerminalTask]
  split_ifs
  · have hcount := h.withCore
      (c := { a.toCore with terminalLineCount := a.terminalLineCount - 1 }) rfl
    exact ⟨_, rfl, hcount.modifyCurrent _⟩
  · exact h.block (ho.modifyCurrent hr rfl TaskState.noConfusion TaskState.noConfusion
      fun hc => absurd hc hinit).toOrderly

/-- `terminal_handler`. -/
theorem terminalHandler (h : Rep s a) (ho : a.Orderly) :
    ∃ s', s.terminalHandler = some s' ∧ Rep s' a.terminalHandler := by
  have hlen := h.list_length ho
  obtain ⟨core, next, overall, head⟩ := s
  obtain rfl : core = a.toCore := h.core
  have hlist : Chain next overall a.list := h.list
  simp only [Sched.terminalHandler, Queues.terminalHandler, Sched.wakeUpTask]
  cases hf : a.list.find? fun i => decide ((a.tasks i).taskState = .wait) with
  | none =>
    rw [Linked.firstFrom_of_forall hlist (Nat.lt_succ_of_le hlen) fun i hi =>
      Bool.not_eq_true _ ▸ List.find?_eq_none.mp hf i hi]
    exact ⟨_, rfl, h.withCore rfl⟩
  | some task =>
    obtain ⟨hwait, l₁, l₂, hl, hbefore⟩ := List.find?_eq_some_iff_append.mp hf
    rw [hl] at hlist hlen
    rw [Linked.firstFrom_of_append hlist (Nat.lt_succ_of_le hlen)
      (fun b hb => by simpa using hbefore b hb) hwait]
    exact ⟨_, rfl, h.withCore rfl⟩

/-- `timer_int`. -/
theorem timerInt (h : Rep s a) (ho : a.Settled) :
    ∃ s', s.timerInt = some s' ∧ Rep s' a.timerInt := by
  have hlen := h.list_length ho.toOrderly
  obtain ⟨core, next, overall, head⟩ := s
  obtain rfl : core = a.toCore := h.core
  have hnodes : Linked.nodesFrom next (numPcb + 1) overall = some a.list :=
    Linked.nodesFrom_of_chain h.list (Nat.lt_succ_of_le hlen)
  by_cases h18 : a.timerCount = 18
  · have hcount := h.withCore
      (c := { a.toCore with timerCount := 0, tasks := a.tasks.countDown a.list }) rfl
    obtain ⟨s', hs', hrep⟩ := hcount.schedule (ho.countDown rfl rfl rfl rfl rfl)
    refine ⟨s', ?_, ?_⟩
    · simpa [Sched.timerInt, h18, hnodes] using hs'
    · simpa [Queues.timerInt, h18] using hrep
  · by_cases hm : a.timerCount = -1
    · have hcount := h.withCore (c := { a.toCore with timerCount := 0 }) rfl
      obtain ⟨s', hs', hrep⟩ := hcount.schedule { ho.toOrderly with }
      refine ⟨s', ?_, ?_⟩
      · simpa [Sched.timerInt, hm] using hs'
      · simpa [Queues.timerInt, hm] using hrep
    · have hne : a.timerCount + 1 ≠ 0 := by omega
      have hcount := h.withCore (c := { a.toCore with timerCount := a.timerCount + 1 }) rfl
      refine ⟨⟨{ a.toCore with timerCount := a.timerCount + 1 }, next, overall, head⟩, ?_, ?_⟩
      · simp [Sched.timerInt, h18, hne]
      · simpa [Queues.timerInt, h18, hm] using hcount

/-- What is returned in any case. -/
theorem rel_some {o : Option Sched} {b : Queues} (h : ∃ s', o = some s' ∧ Rep s' b) :
    Option.Rel Rep o (some b) := by
  obtain ⟨s', rfl, hrep⟩ := h
  exact .some hrep

/-- An action on the links does what it does on the lists. -/
theorem step (h : Rep s a) (ho : a.Settled) (hk : a.KillsLive op)
    (hl : ∀ i ∈ a.reaped op, i ∉ a.list) : Option.Rel Rep (s.step op) (a.step op) := by
  unfold Sched.step Queues.step
  rw [h.current, h.runningTask]
  have hr : a.current.cont ≠ .idleProcess → a.runningTask ≠ idleTask := ho.ne_idle
  cases hu : a.current.cont <;> cases op
  case user.fork => exact h.forkProcess ho.toOrderly
  case user.exit => exact rel_some (h.sysExit (ho.exit hu ho.running_uid _))
  case user.kill pid =>
    dsimp only
    split_ifs
    · exact rel_some (h.sysExit (ho.exit hu hk.1 _))
    · exact .none
  case user.wait =>
    exact rel_some (h.waitForChild ho (ho.not_kernel hu).2 (by simp [Core.waits, hu]) hl)
  case user.sleep sec =>
    obtain ⟨hninit, hnidle⟩ := ho.not_kernel hu
    have hsec := ho.modifyCurrent (f := fun x => { x with sleepSec := sec }) hnidle rfl
      (ho.alive hnidle) id fun hc => absurd hc hninit
    exact rel_some ((h.modifyCurrent _).block (hsec.modifyCurrent hnidle rfl
      TaskState.noConfusion TaskState.noConfusion fun hc => absurd hc hninit).toOrderly)
  case user.read =>
    exact rel_some (h.scheduleTerminalTask ho (ho.not_kernel hu).1 (ho.not_kernel hu).2)
  case user.yield | idleProcess.yield => exact rel_some (h.schedule ho.toOrderly)
  case user.tick | idleProcess.tick => exact rel_some (h.timerInt ho)
  case user.enter | idleProcess.enter => exact rel_some (h.terminalHandler ho.toOrderly)
  case waitForChild.resume =>
    exact rel_some (h.waitForChildWoken ho (hr (by simp [hu])) (by simp [Core.waits, hu]) hl)
  case readBuffer.resume =>
    exact rel_some (h.scheduleTerminalTask ho (ho.ne_init (by simp [hu]) (by simp [hu]))
      (hr (by simp [hu])))
  case initProcess.resume =>
    exact rel_some (h.waitForChild ho (hr (by simp [hu])) (by simp [Core.waits, hu]) hl)
  all_goals exact .none

/-- What is related to a state that is returned. -/
theorem exists_of_rel_left {o : Option Queues} (h : Option.Rel Rep (some s) o) : ∃ b, o = some b ∧ Rep s b := by
  cases h with
  | some hrep => exact ⟨_, rfl, hrep⟩

/-- What the lists that are returned are related to. -/
theorem exists_of_rel_right {o : Option Sched} (h : Option.Rel Rep o (some a)) :
    ∃ t, o = some t ∧ Rep t a := by
  cases h with
  | some hrep => exact ⟨_, rfl, hrep⟩

/-- Where the links take a step, so do the lists. -/
theorem exists_queues (h : Rep s a) (ho : a.Settled) (hk : a.KillsLive op)
    (hl : ∀ i ∈ a.reaped op, i ∉ a.list) (hs : s.step op = some s') :
    ∃ a', a.step op = some a' ∧ Rep s' a' := by
  have hrel := h.step ho hk hl
  rw [hs] at hrel
  exact exists_of_rel_left hrel

/-- Where the lists take a step, so do the links. -/
theorem exists_links (h : Rep s a) (ho : a.Settled) (hk : a.KillsLive op)
    (hl : ∀ i ∈ a.reaped op, i ∉ a.list) (ha : a.step op = some a') :
    ∃ s', s.step op = some s' ∧ Rep s' a' := by
  have hrel := h.step ho hk hl
  rw [ha] at hrel
  exact exists_of_rel_right hrel

end Rep

end Nascent
