import Nascent.Console.Format
import Nascent.Sched.Children

/-!
# The list of processes

`sys_ps` of `syscalls.c`. It prints a row for each task of `overall_task_list` that is no zombie, and one for the
running task behind them. A killed task stays on the list, and the running task may be on the list too where it is
one of the kernel's, so it takes the order of the lists to know what the rows are: each living process has one, and
there are no others (`ps_rows`). The names of the processes are a parameter.
-/

namespace Nascent

open Bytes (Byte)
open Format (PrintsAll conversions Arg outputBufferMaxLength)
open Numbers (decimalText)
open Runs
open Strings (Str IsString strOf isString_strOf)

/-- The number of a state in `TASK_STATES`. -/
def TaskState.number : TaskState → ℕ
  | .running => 0
  | .ready => 1
  | .sleep => 2
  | .wait => 3
  | .idle => 4
  | .exit => 5
  | .zombie => 6
  | .suspended => 7

/-- The names of the states: `RUNNING`, `READY`, `SLEEP`, `WAIT FOR INPUT`, `IDLE`, `EXIT`, `ZOMBIE`, `WAITING`. -/
def stateNames : List (List Byte) :=
  [[82, 85, 78, 78, 73, 78, 71], [82, 69, 65, 68, 89], [83, 76, 69, 69, 80],
    [87, 65, 73, 84, 32, 70, 79, 82, 32, 73, 78, 80, 85, 84], [73, 68, 76, 69], [69, 88, 73, 84],
    [90, 79, 77, 66, 73, 69], [87, 65, 73, 84, 73, 78, 71]]

/-- `"PID   PROCESS      MODE \n"`. -/
def psHead : List Byte :=
  [80, 73, 68] ++ List.replicate 3 32 ++ [80, 82, 79, 67, 69, 83, 83] ++ List.replicate 6 32 ++ [77, 79, 68, 69, 32, 10]

/-- `"%d     %s           %s\n"`, and `"%d     %s         %s\n"`, with a number of spaces between the last two. -/
def psRow (n : ℕ) : List Byte := [37, 100] ++ List.replicate 5 32 ++ [37, 115] ++ List.replicate n 32 ++ [37, 115, 10]

namespace Sched

/-- The row of a task. -/
def printRow (s : Sched) (filename : ℕ → Str) (n : ℕ) (o : Console × Str) (p : ℕ) : Option (Console × Str) :=
  Format.kprintf o.1 o.2 (psRow n)
    [.int (BitVec.ofInt 32 (s.tasks p).pid), .string (filename p),
      .string (strOf (stateNames.getD (s.tasks p).taskState.number []))]

/-- `sys_ps`, with the buffer of `kprintf` as it is left. -/
def sysPs (s : Sched) (filename : ℕ → Str) (c : Console) (buffer : Str) : Option (Console × Str) :=
  (Format.kprintf c buffer psHead []).bind fun o =>
    s.taskList.bind fun l =>
      (l.foldlM (fun o p =>
          if (s.tasks p).taskState.number ≠ 6 then s.printRow filename 11 o p else some o) o).bind fun o =>
        s.printRow filename 9 o s.runningTask

/-- The text of a pid. The number 0 has a zero byte behind it. -/
def pidText (p : ℕ) : List Byte := if p = 0 then [48, 0] else decimalText (BitVec.ofNat 32 p)

/-- The texts of a row. -/
def rowTexts (s : Sched) (names : ℕ → List Byte) (p : ℕ) : List (List Byte) :=
  [pidText p, names p, stateNames.getD (s.tasks p).taskState.number []]

variable {s s₀ t : Sched} {filename : ℕ → Str} {names : ℕ → List Byte} {p n : ℕ} {l : List ℕ} {ops : List SchedOp}

/-! ## One row -/

/-- The text of a pid is short. -/
theorem pidText_length (hp : p < numPcb) : (pidText p).length ≤ 10 := by
  unfold pidText
  rw [numPcb] at hp
  split_ifs with h0
  · decide
  · have hnat : (BitVec.ofNat 32 p).toNat = p := by
      rw [BitVec.toNat_ofNat]
      omega
    have hint : (BitVec.ofNat 32 p).toInt = p := by
      rw [BitVec.toInt_eq_toNat_of_lt (by rw [hnat]; omega), hnat]
    rw [Numbers.decimalText_of_nonneg (by omega), List.length_map, hnat]
    exact Numeral.length_numeral_le (by decide) (by decide) (by omega)

/-- `%d` prints a pid. -/
theorem prints_pid (hp : p < numPcb) : Format.Prints 100 (.int (BitVec.ofNat 32 p)) (pidText p) := by
  unfold pidText
  rw [numPcb] at hp
  split_ifs with h0
  · rw [h0]
    exact .decimalZero
  · have hnat : (BitVec.ofNat 32 p).toNat = p := by
      rw [BitVec.toNat_ofNat]
      omega
    refine .decimal _ (fun hz => ?_) (fun hmin => ?_)
    · rw [hz] at hnat
      exact h0 hnat.symm
    · rw [hmin] at hnat
      have htop : (BitVec.intMin 32).toNat = 2 ^ 31 := by decide
      omega

/-- The names of the states are strings without a zero byte, and short. -/
theorem stateName_spec (st : TaskState) : (0 : Byte) ∉ stateNames.getD st.number [] ∧
    (stateNames.getD st.number []).length ≤ 14 := by
  cases st <;> decide

/-- A row is printed. -/
theorem printRow_eq (hn : n = 11 ∨ n = 9) (hp : p < numPcb) (hpid : (s.tasks p).pid = p)
    (hname : IsString (filename p) (names p)) (hlen : (names p).length < 75) (o : Console × Str) :
    ∃ buffer', s.printRow filename n o p = some (o.1.kprintf (psRow n) (s.rowTexts names p), buffer') := by
  obtain ⟨hzero, hstate⟩ := stateName_spec (s.tasks p).taskState
  have hconv : conversions (psRow n) = [100, 115, 115] := by
    rcases hn with rfl | rfl <;> decide
  have hformat : Console.format (psRow n) (s.rowTexts names p) =
      pidText p ++ (List.replicate 5 32 ++ (names p ++ (List.replicate n 32 ++
        (stateNames.getD (s.tasks p).taskState.number [] ++ [10])))) := by
    rcases hn with rfl | rfl <;> rfl
  have hpidlen := pidText_length hp
  refine ⟨_, Format.kprintf_eq ?_ ?_⟩
  · rw [hconv, hpid]
    exact .cons (prints_pid hp) (.cons (.string _ _ hname (by omega))
      (.cons (.string _ _ (isString_strOf hzero) (by omega)) (.nil [])))
  · rw [hformat]
    simp only [List.length_append, List.length_replicate, List.length_cons, List.length_nil,
      outputBufferMaxLength]
    omega

/-! ## The rows -/

/-- The rows of a list are those of its tasks that are no zombies. -/
theorem printRows_eq (hl : ∀ p ∈ l, p < numPcb ∧ (s.tasks p).pid = p)
    (hname : ∀ p < numPcb, IsString (filename p) (names p) ∧ (names p).length < 75) (o : Console × Str) :
    ∃ buffer', l.foldlM (fun o p =>
        if (s.tasks p).taskState.number ≠ 6 then s.printRow filename 11 o p else some o) o =
      some ((l.filter fun p => (s.tasks p).taskState ≠ .zombie).foldl
        (fun c p => c.kprintf (psRow 11) (s.rowTexts names p)) o.1, buffer') := by
  induction l generalizing o with
  | nil => exact ⟨o.2, rfl⟩
  | cons p l ih =>
    have hl' : ∀ p ∈ l, p < numPcb ∧ (s.tasks p).pid = p := fun q hq => hl q (List.mem_cons_of_mem _ hq)
    have hzombie : (s.tasks p).taskState.number ≠ 6 ↔ (s.tasks p).taskState ≠ .zombie := by
      cases (s.tasks p).taskState <;> decide
    rw [List.foldlM_cons, List.filter_cons]
    by_cases hz : (s.tasks p).taskState = .zombie
    · rw [if_neg (mt hzombie.mp (not_not.mpr hz)), if_neg (by simp [hz])]
      exact ih hl' o
    · obtain ⟨hp, hpid⟩ := hl p List.mem_cons_self
      obtain ⟨buffer₁, hrow⟩ := printRow_eq (.inl rfl) hp hpid (hname p hp).1 (hname p hp).2 o
      obtain ⟨buffer', hrest⟩ := ih hl' (o.1.kprintf (psRow 11) (s.rowTexts names p), buffer₁)
      rw [if_pos (hzombie.mpr hz), if_pos (by simp [hz]), hrow]
      exact ⟨buffer', hrest⟩

/-- In every run from the start that kills only living tasks, reaps no task that is on `overall_task_list`, and in
which no fork takes a PCB that a process in the table names as its parent: whenever a program may call `ps`, each
living process has one row, the running one the last, and there are no other rows. -/
theorem ps_rows (s₀ : Sched) (h₀ : start = some s₀) (ops : List SchedOp)
    (hkill : Along step (fun s op => s.KillsLive op) s₀ ops)
    (hreap : Along step (fun s op => s.ReapsOffList op) s₀ ops)
    (hfork : Along step (fun s op => s.ForksUnnamed op) s₀ ops)
    (t : Sched) (ht : Visits step s₀ ops t) (hu : t.current.cont = .user)
    (filename : ℕ → Str) (names : ℕ → List Byte)
    (hname : ∀ p < numPcb, IsString (filename p) (names p) ∧ (names p).length < 75) (c : Console) (buffer : Str) :
    ∃ l buffer', t.sysPs filename c buffer =
        some ((l.foldl (fun c p => c.kprintf (psRow 11) (t.rowTexts names p)) (c.kprintf psHead [])).kprintf
          (psRow 9) (t.rowTexts names t.runningTask), buffer') ∧
      (l ++ [t.runningTask]).Nodup ∧ ∀ p, p ∈ l ++ [t.runningTask] ↔
        p < numPcb ∧ (t.tasks p).uid ≠ 0 ∧ (t.tasks p).taskState ≠ .zombie := by
  obtain ⟨a, hrep, ho, hfam, -⟩ : t.KinInOrder := ht.invariant ((hkill.and hreap).and hfork)
    (fun s op s' hs hc hstep => hs.step hc.1.1 hc.1.2 hc.2 hstep) (kinInOrder_start h₀)
  have hlist := taskList_of_rep hrep ho.toOrderly
  have hua : a.current.cont = .user := hrep.core ▸ hu
  obtain ⟨hninit, hnidle⟩ := ho.not_kernel hua
  -- A program is not on the list while it runs.
  have hoff : a.runningTask ∉ a.list := fun hm => (ho.kernel hm).elim hninit hnidle
  have hpid : ∀ p < numPcb, (t.tasks p).uid ≠ 0 → (t.tasks p).pid = p := hrep.tasks ▸ hfam.kin.pid
  have hmem : ∀ p ∈ a.list, p < numPcb ∧ (t.tasks p).uid ≠ 0 := fun p hp =>
    ⟨ho.list_lt p hp, hrep.tasks ▸ ho.uid_of_mem hp⟩
  have hrunning : t.runningTask < numPcb ∧ (t.tasks t.runningTask).uid ≠ 0 ∧
      (t.tasks t.runningTask).taskState ≠ .zombie := by
    rw [hrep.tasks, hrep.runningTask]
    exact ⟨ho.running_lt, ho.running_uid, fun hz => hnidle (ho.zombie hz)⟩
  obtain ⟨buffer₁, hhead⟩ : ∃ buffer₁, Format.kprintf c buffer psHead [] = some (c.kprintf psHead [], buffer₁) :=
    ⟨_, Format.kprintf_eq (.nil []) (by decide)⟩
  obtain ⟨buffer₂, hrows⟩ := printRows_eq (fun p hp => ⟨(hmem p hp).1, hpid p (hmem p hp).1 (hmem p hp).2⟩) hname
    (c.kprintf psHead [], buffer₁)
  obtain ⟨hlt, huid, hlive⟩ := hrunning
  obtain ⟨buffer', hlast⟩ := printRow_eq (.inr rfl) hlt (hpid _ hlt huid) (hname _ hlt).1 (hname _ hlt).2
    ((a.list.filter fun p => (t.tasks p).taskState ≠ .zombie).foldl
      (fun c p => c.kprintf (psRow 11) (t.rowTexts names p)) (c.kprintf psHead []), buffer₂)
  refine ⟨a.list.filter fun p => (t.tasks p).taskState ≠ .zombie, buffer', ?_, ?_, fun p => ?_⟩
  · unfold sysPs
    rw [hhead, Option.bind_some, hlist, Option.bind_some, hrows, Option.bind_some]
    exact hlast
  · rw [hrep.runningTask]
    refine List.nodup_append'.mpr ⟨ho.list_nodup.filter _, List.nodup_singleton _, fun p hp hp' => ?_⟩
    rw [List.mem_singleton] at hp'
    exact hoff (hp' ▸ List.mem_of_mem_filter hp)
  · rw [List.mem_append, List.mem_filter, List.mem_singleton, decide_eq_true_iff]
    constructor
    · rintro (⟨hp, hz⟩ | rfl)
      · exact ⟨(hmem p hp).1, (hmem p hp).2, hz⟩
      · exact ⟨hlt, huid, hlive⟩
    · rintro ⟨hp, hup, hz⟩
      by_cases hr : p = t.runningTask
      · exact .inr hr
      · refine .inl ⟨?_, hz⟩
        rw [hrep.tasks] at hup hz
        rw [hrep.runningTask] at hr
        exact ho.queued p hp hup hz hr

/-- The shell has forked a child, and calls `ps`. -/
theorem ps_rows_child : ∃ s₀ t, start = some s₀ ∧ s₀.step .fork = some t ∧ ∃ l buffer',
    t.sysPs (fun _ => strOf [115, 104]) (Console.cleared fun _ => 0) (fun _ => 0) =
        some ((l.foldl (fun c p => c.kprintf (psRow 11) (t.rowTexts (fun _ => [115, 104]) p))
          ((Console.cleared fun _ => 0).kprintf psHead [])).kprintf
          (psRow 9) (t.rowTexts (fun _ => [115, 104]) t.runningTask), buffer') ∧
      (l ++ [t.runningTask]).Nodup ∧ ∀ p, p ∈ l ++ [t.runningTask] ↔
        p < numPcb ∧ (t.tasks p).uid ≠ 0 ∧ (t.tasks p).taskState ≠ .zombie := by
  have hrun : (start.bind fun s₀ => (s₀.step .fork).map fun t =>
      (decide (t.current.cont = .user), decide (Along step (fun s op => s.ForksUnnamed op) s₀ [.fork]))) =
        some (true, true) := by
    decide +kernel
  obtain ⟨s₀, hs₀, hrun⟩ := Option.bind_eq_some_iff.mp hrun
  obtain ⟨t, ht, hrun⟩ := Option.map_eq_some_iff.mp hrun
  rw [Prod.mk.injEq, decide_eq_true_eq, decide_eq_true_eq] at hrun
  refine ⟨s₀, t, hs₀, ht, ps_rows s₀ hs₀ [.fork] ⟨trivial, fun _ _ => trivial⟩
    ⟨fun l _ i hi => absurd hi List.not_mem_nil, fun _ _ => trivial⟩ hrun.2 t (visits_cons ht visits_start) hrun.1
    _ _ (fun p _ => ⟨isString_strOf (by decide), by decide⟩) _ _⟩

end Sched

end Nascent
