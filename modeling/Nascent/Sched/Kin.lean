import Nascent.Sched.Fields
import Nascent.Sched.Queue

/-!
# The records of parenthood

Parenthood is recorded twice: `wait_for_child` looks for zombies by `ppid`, and `sys_exit` wakes up
`parent_task`. `Kin` says that the two agree with who forked whom, for the processes that are in the
process table. A task that was woken up in `wait_for_child` then has a zombie child to report.

`Core.Family` adds that the processes are numbered, and which of them have exited and have been reported.
Each operation on the table keeps the records, but for a fork that takes a PCB which a process in the table
names as its parent (`Kin.fork`).
-/

namespace Nascent

namespace Tasks

variable {t t' t'' : Tasks} {i p r target busy : ℕ} {st : TaskState}

/-- A task that goes on in `wait_for_child`, and has been woken up, has a zombie child. -/
def Woken (t : Tasks) (p : ℕ) : Prop :=
  (t p).uid ≠ 0 → (t p).cont = .waitForChild → (t p).taskState ≠ .suspended →
    (t p).taskState ≠ .zombie → ∃ c < numPcb, (t c).taskState = .zombie ∧ (t c).ppid = p

/-- The records of parenthood agree with who forked whom. The task `busy` may be about to return from
`wait_for_child`. -/
structure Kin (t : Tasks) (busy : ℕ) : Prop where
  /-- The pid of a process is the index of its PCB. -/
  pid : ∀ i < numPcb, (t i).uid ≠ 0 → (t i).pid = i
  /-- A process has one PCB. -/
  uid_inj : ∀ i < numPcb, ∀ j < numPcb, (t i).uid ≠ 0 → (t i).uid = (t j).uid → i = j
  /-- The init task forks no process. -/
  init : ∀ i < numPcb, (t i).uid ≠ 0 → (t i).forker ≠ (t initTask).uid
  /-- A process was forked by the one that its `ppid` names. -/
  ppid : ∀ p < numPcb, ∀ c < numPcb, p ≠ initTask → (t p).uid ≠ 0 → (t c).uid ≠ 0 →
    (t c).ppid = p → (t c).forker = (t p).uid
  /-- The `parent_task` of a process is the one that its `ppid` names. -/
  parent : ∀ p < numPcb, ∀ c < numPcb, p ≠ initTask → (t p).uid ≠ 0 → (t p).taskState ≠ .zombie →
    (t c).uid ≠ 0 → (t c).taskState ≠ .zombie → (t c).parentTask = some p → (t c).ppid = p
  /-- A process that was woken up in `wait_for_child` has a zombie child. -/
  woken : ∀ p < numPcb, p ≠ initTask → p ≠ busy → t.Woken p

/-! ## Changes of states -/

/-- The tasks have changed their states, but there are no new zombies, and no task was woken up that goes on
in `wait_for_child`. -/
structure Quiet (t t' : Tasks) : Prop where
  /-- The other fields are the same. -/
  fields : ∀ i, (t' i).uid = (t i).uid ∧ (t' i).pid = (t i).pid ∧ (t' i).ppid = (t i).ppid ∧
    (t' i).parentTask = (t i).parentTask ∧ (t' i).forker = (t i).forker
  /-- The zombies are the same. -/
  zombie : ∀ i, (t' i).taskState = .zombie ↔ (t i).taskState = .zombie
  /-- A task that was woken up in `wait_for_child` was so before. -/
  woken : ∀ i, (t' i).cont = .waitForChild → (t' i).taskState ≠ .suspended →
    (t i).cont = .waitForChild ∧ (t i).taskState ≠ .suspended

theorem Quiet.refl (t : Tasks) : Quiet t t :=
  ⟨fun _ => ⟨rfl, rfl, rfl, rfl, rfl⟩, fun _ => Iff.rfl, fun _ hc hs => ⟨hc, hs⟩⟩

theorem Quiet.trans (h : Quiet t t') (h' : Quiet t' t'') : Quiet t t'' where
  fields i := by
    obtain ⟨h1, h2, h3, h4, h5⟩ := h.fields i
    obtain ⟨g1, g2, g3, g4, g5⟩ := h'.fields i
    exact ⟨g1.trans h1, g2.trans h2, g3.trans h3, g4.trans h4, g5.trans h5⟩
  zombie i := (h'.zombie i).trans (h.zombie i)
  woken i hc hs := by
    obtain ⟨hc, hs⟩ := h'.woken i hc hs
    exact h.woken i hc hs

/-- A change of one task. -/
theorem quiet_modify {f : Task → Task}
    (hf : (f (t i)).uid = (t i).uid ∧ (f (t i)).pid = (t i).pid ∧ (f (t i)).ppid = (t i).ppid ∧
      (f (t i)).parentTask = (t i).parentTask ∧ (f (t i)).forker = (t i).forker)
    (hz : (f (t i)).taskState = .zombie ↔ (t i).taskState = .zombie)
    (hw : (f (t i)).cont = .waitForChild → (f (t i)).taskState ≠ .suspended →
      (t i).cont = .waitForChild ∧ (t i).taskState ≠ .suspended) : Quiet t (t.modify i f) := by
  have hother : ∀ j, j ≠ i → t.modify i f j = t j := fun j hj => modify_of_ne t i j hj
  refine ⟨fun j => ?_, fun j => ?_, fun j => ?_⟩
  · by_cases hj : j = i
    · rw [hj, modify_self]
      exact hf
    · rw [hother j hj]
      exact ⟨rfl, rfl, rfl, rfl, rfl⟩
  · by_cases hj : j = i
    · rw [hj, modify_self]
      exact hz
    · rw [hother j hj]
  · by_cases hj : j = i
    · rw [hj, modify_self]
      exact hw
    · rw [hother j hj]
      exact fun hc hs => ⟨hc, hs⟩

/-- A task that is not suspended gets another state. -/
theorem quiet_setState (hz : st ≠ .zombie) (hz' : (t i).taskState ≠ .zombie)
    (hs : (t i).taskState ≠ .suspended) : Quiet t (t.setState i st) :=
  quiet_modify ⟨rfl, rfl, rfl, rfl, rfl⟩ (iff_of_false hz hz') fun hc _ => ⟨hc, hs⟩

theorem quiet_demote : Quiet t (Queues.demote t i) := by
  rw [Queues.demote]
  split_ifs with hrun
  · exact quiet_setState (by decide) (by rw [hrun]; decide) (by rw [hrun]; decide)
  · exact .refl t

theorem quiet_countDown (l : List ℕ) : Quiet t (t.countDown l) := by
  have htimed := fun i => timed_countDown t i l
  refine ⟨fun i => ?_, fun i => ?_, fun i hc hs => ?_⟩
  · obtain ⟨h1, -, h3, h4, h5, h6, -⟩ := htimed i
    exact ⟨h1, h3, h4, h5, h6⟩
  · rcases (htimed i).2.2.2.2.2.2 with hstate | ⟨hsleep, hready⟩
    · rw [hstate]
    · rw [hsleep, hready]
      decide
  · rw [(htimed i).2.1] at hc
    rcases (htimed i).2.2.2.2.2.2 with hstate | ⟨hsleep, -⟩
    · exact ⟨hc, hstate ▸ hs⟩
    · exact ⟨hc, by rw [hsleep]; decide⟩

/-- Changes of states keep the records. -/
theorem Kin.quiet (h : t.Kin busy) (hq : Quiet t t') : t'.Kin busy where
  pid i hi hu := by
    obtain ⟨huid, hpid, -⟩ := hq.fields i
    rw [hpid]
    exact h.pid i hi (huid ▸ hu)
  uid_inj i hi j hj hu heq := by
    rw [(hq.fields i).1] at hu heq
    rw [(hq.fields j).1] at heq
    exact h.uid_inj i hi j hj hu heq
  init i hi hu := by
    rw [(hq.fields i).1] at hu
    rw [(hq.fields i).2.2.2.2, (hq.fields initTask).1]
    exact h.init i hi hu
  ppid p hp c hc hne hup huc hppid := by
    rw [(hq.fields p).1] at hup ⊢
    obtain ⟨huid, -, hppid', -, hforker⟩ := hq.fields c
    rw [hforker]
    exact h.ppid p hp c hc hne hup (huid ▸ huc) (hppid' ▸ hppid)
  parent p hp c hc hne hup hzp huc hzc hpar := by
    obtain ⟨huid, -, hppid', hparent, -⟩ := hq.fields c
    rw [(hq.fields p).1] at hup
    rw [hppid']
    exact h.parent p hp c hc hne hup (fun hz => hzp ((hq.zombie p).mpr hz)) (huid ▸ huc)
      (fun hz => hzc ((hq.zombie c).mpr hz)) (hparent ▸ hpar)
  woken p hp hne hb hu hc hs hz := by
    rw [(hq.fields p).1] at hu
    obtain ⟨hc, hs⟩ := hq.woken p hc hs
    obtain ⟨c, hlt, hzc, hppid⟩ := h.woken p hp hne hb hu hc hs fun hz' => hz ((hq.zombie p).mpr hz')
    exact ⟨c, hlt, (hq.zombie c).mpr hzc, (hq.fields c).2.2.1 ▸ hppid⟩

/-- The busy task has returned from `wait_for_child`. -/
theorem Kin.done (h : t.Kin busy) (hc : (t busy).cont ≠ .waitForChild) : t.Kin initTask where
  pid := h.pid
  uid_inj := h.uid_inj
  init := h.init
  ppid := h.ppid
  parent := h.parent
  woken p hp hne _ := by
    by_cases hb : p = busy
    · exact fun _ hc' => absurd hc' (hb ▸ hc)
    · exact h.woken p hp hne hb

/-- Any task may be busy. -/
theorem Kin.weaken (h : t.Kin initTask) : t.Kin busy where
  pid := h.pid
  uid_inj := h.uid_inj
  init := h.init
  ppid := h.ppid
  parent := h.parent
  woken p hp hne _ := h.woken p hp hne hne

/-! ## `sys_exit` -/

/-- The zombies stay zombies. -/
theorem exit_zombie (hz : (t i).taskState = .zombie) : (t.exit target i).taskState = .zombie := by
  rw [exit_taskState]
  split_ifs with htarget hwoken
  · rfl
  · rw [hz] at hwoken
    cases hwoken.2
  · exact hz

/-- The `ppid` after `sys_exit` is the one before it, but for the children of the target. -/
theorem exit_ppid_of_ne (hne : (t i).ppid ≠ (t target).pid) : (t.exit target i).ppid = (t i).ppid := by
  rw [exit_ppid, if_neg fun h => hne h.2.1]

/-- An exit keeps the records. -/
theorem Kin.exit (h : t.Kin busy) (hlt : target < numPcb) (hu : (t target).uid ≠ 0)
    (hlive : (t target).taskState ≠ .zombie) (hinit : (t initTask).uid ≠ 0) : (t.exit target).Kin busy := by
  have hpid : (t target).pid = target := h.pid target hlt hu
  have hpid0 : (t initTask).pid = (initTask : ℕ) := h.pid initTask (by decide) hinit
  have hzombie : ∀ p, (t.exit target p).taskState ≠ .zombie →
      p ≠ target ∧ (t p).taskState ≠ .zombie := fun p hz =>
    ⟨fun heq => hz (by rw [exit_taskState, if_pos heq]), fun hz' => hz (exit_zombie hz')⟩
  -- The parent of a child other than those of the target stays.
  have hkept : ∀ p c, p ≠ target → (t c).ppid = (p : ℕ) → (t.exit target c).ppid = (t c).ppid := by
    intro p c hne hppid
    refine exit_ppid_of_ne fun heq => hne ?_
    rw [hppid, hpid] at heq
    exact_mod_cast heq
  refine ⟨fun i hi hui => ?_, fun i hi j hj hui heq => ?_, fun i hi hui => ?_,
    fun p hp c hc hne hup huc hppid => ?_, fun p hp c hc hne hup hzp huc hzc hpar => ?_,
    fun p hp hne hb hup hcont hs hz => ?_⟩
  · rw [exit_uid] at hui
    rw [exit_pid]
    exact h.pid i hi hui
  · rw [exit_uid] at hui heq
    rw [exit_uid] at heq
    exact h.uid_inj i hi j hj hui heq
  · rw [exit_uid] at hui
    rw [exit_forker, exit_uid]
    exact h.init i hi hui
  · rw [exit_uid] at hup huc
    rw [exit_forker, exit_uid]
    refine h.ppid p hp c hc hne hup huc ?_
    rw [exit_ppid] at hppid
    split_ifs at hppid
    · rw [hpid0] at hppid
      exact absurd (by exact_mod_cast hppid.symm) hne
    · exact hppid
  · rw [exit_uid] at hup huc
    rw [exit_parentTask] at hpar
    obtain ⟨hpt, hzp⟩ := hzombie p hzp
    obtain ⟨-, hzc⟩ := hzombie c hzc
    have hppid := h.parent p hp c hc hne hup hzp huc hzc hpar
    rw [hkept p c hpt hppid, hppid]
  · rw [exit_uid] at hup
    rw [exit_cont] at hcont
    obtain ⟨hpt, hzp⟩ := hzombie p hz
    by_cases hsus : (t p).taskState = .suspended
    · -- It is woken up by the target, which is its child.
      have hpar : (t target).parentTask = some p := by
        rw [exit_taskState, if_neg hpt] at hs
        by_contra hpar
        rw [if_neg fun hw => hpar hw.1] at hs
        exact hs hsus
      have hppid := h.parent p hp target hlt hne hup hzp hu hlive hpar
      refine ⟨target, hlt, by rw [exit_taskState, if_pos rfl], ?_⟩
      rw [hkept p target hpt hppid, hppid]
    · obtain ⟨c, hc, hzc, hppid⟩ := h.woken p hp hne hb hup hcont hsus hzp
      exact ⟨c, hc, exit_zombie hzc, by rw [hkept p c hpt hppid, hppid]⟩

/-! ## `clear_pcb` -/

/-- A zombie child of the busy task is reaped. -/
theorem Kin.clear (h : t.Kin busy) (hi : i ≠ initTask) (hppid : (t i).ppid = busy) :
    (t.clear i).Kin busy := by
  have hother : ∀ j, (t.clear i j).uid ≠ 0 → t.clear i j = t j := by
    intro j hu
    refine clear_of_ne fun hj => ?_
    rw [hj, clear_self] at hu
    exact hu rfl
  have hinit : t.clear i initTask = t initTask := clear_of_ne (Ne.symm hi)
  refine ⟨fun j hj hu => ?_, fun j hj k hk hu heq => ?_, fun j hj hu => ?_,
    fun p hp c hc hne hup huc hpp => ?_, fun p hp c hc hne hup hzp huc hzc hpar => ?_,
    fun p hp hne hb hup hcont hs hz => ?_⟩
  · have hj' := hother j hu
    rw [hj'] at hu ⊢
    exact h.pid j hj hu
  · have hj' := hother j hu
    have hk' := hother k (heq ▸ hu)
    rw [hj'] at hu heq
    rw [hk'] at heq
    exact h.uid_inj j hj k hk hu heq
  · have hj' := hother j hu
    rw [hj'] at hu ⊢
    rw [hinit]
    exact h.init j hj hu
  · have hp' := hother p hup
    have hc' := hother c huc
    rw [hp'] at hup ⊢
    rw [hc'] at huc hpp ⊢
    exact h.ppid p hp c hc hne hup huc hpp
  · have hp' := hother p hup
    have hc' := hother c huc
    rw [hp'] at hup hzp
    rw [hc'] at huc hzc hpar ⊢
    exact h.parent p hp c hc hne hup hzp huc hzc hpar
  · have hp' := hother p hup
    rw [hp'] at hup hcont hs hz
    obtain ⟨c, hc, hzc, hpp⟩ := h.woken p hp hne hb hup hcont hs hz
    have hci : c ≠ i := by
      rintro rfl
      rw [hppid] at hpp
      exact hb (by exact_mod_cast hpp.symm)
    exact ⟨c, hc, by rw [clear_of_ne hci]; exact hzc, by rw [clear_of_ne hci]; exact hpp⟩

/-! ## `fork_process` -/

/-- No process in the table names a PCB as its parent. -/
def Unnamed (t : Tasks) (k : ℕ) : Prop :=
  ∀ i < numPcb, (t i).uid ≠ 0 → (t i).ppid ≠ k ∧ ((t i).parentTask = some k → (t i).taskState = .zombie)

instance (t : Tasks) (k : ℕ) : Decidable (t.Unnamed k) := inferInstanceAs (Decidable (∀ i < numPcb, _ → _))

/-- A fork keeps the records where no process names the new PCB as its parent. -/
theorem Kin.fork {k uid : ℕ} (h : t.Kin initTask) (hfree : (t k).uid = 0)
    (hstate : (t k).taskState ≠ .zombie) (hname : t.Unnamed k)
    (hr : r < numPcb) (hru : (t r).uid ≠ 0) (hrinit : r ≠ initTask) (hinit : (t initTask).uid ≠ 0)
    (hother : ∀ i ≠ k, t' i = t i) (huid : (t' k).uid = uid) (hnew : ∀ i < numPcb, (t i).uid < uid)
    (hpid : (t' k).pid = k) (hppid : (t' k).ppid = r) (hparent : (t' k).parentTask = some r)
    (hcont : (t' k).cont = .user) (hforker : (t' k).forker = (t r).uid) : t'.Kin initTask := by
  have hne : ∀ i, (t i).uid ≠ 0 → i ≠ k := fun i hu hik => hu (hik ▸ hfree)
  have hrk := hne r hru
  have hinit' : t' initTask = t initTask := hother initTask (hne initTask hinit)
  refine ⟨fun i hi hu => ?_, fun i hi j hj hu heq => ?_, fun i hi hu => ?_,
    fun p hp c hc hpi hup huc hpp => ?_, fun p hp c hc hpi hup hzp huc hzc hpar => ?_,
    fun p hp hpi _ hup hcont' hs hz => ?_⟩
  · by_cases hik : i = k
    · rw [hik]
      exact hpid
    · rw [hother i hik] at hu ⊢
      exact h.pid i hi hu
  · by_cases hik : i = k <;> by_cases hjk : j = k
    · rw [hik, hjk]
    · rw [hik, huid, hother j hjk] at heq
      exact absurd heq (hnew j hj).ne'
    · rw [hjk, huid, hother i hik] at heq
      exact absurd heq (hnew i hi).ne
    · rw [hother i hik] at hu heq
      rw [hother j hjk] at heq
      exact h.uid_inj i hi j hj hu heq
  · rw [hinit']
    by_cases hik : i = k
    · rw [hik, hforker]
      exact fun heq => hrinit (h.uid_inj r hr initTask (by decide) hru heq)
    · rw [hother i hik] at hu ⊢
      exact h.init i hi hu
  · by_cases hck : c = k
    · rw [hck, hppid] at hpp
      obtain rfl : r = p := by exact_mod_cast hpp
      rw [hck, hforker, hother r hrk]
    · rw [hother c hck] at huc hpp ⊢
      by_cases hpk : p = k
      · exact absurd (hpk ▸ hpp) (hname c hc huc).1
      · rw [hother p hpk] at hup ⊢
        exact h.ppid p hp c hc hpi hup huc hpp
  · by_cases hck : c = k
    · rw [hck, hparent] at hpar
      rw [hck, hppid, Option.some.inj hpar]
    · rw [hother c hck] at huc hzc hpar ⊢
      by_cases hpk : p = k
      · exact absurd ((hname c hc huc).2 (hpk ▸ hpar)) hzc
      · rw [hother p hpk] at hup hzp
        exact h.parent p hp c hc hpi hup hzp huc hzc hpar
  · by_cases hpk : p = k
    · rw [hpk, hcont] at hcont'
      cases hcont'
    · rw [hother p hpk] at hup hcont' hs hz
      obtain ⟨c, hc, hzc, hpp⟩ := h.woken p hp hpi hpi hup hcont' hs hz
      have hck : c ≠ k := fun hck => hstate (hck ▸ hzc)
      exact ⟨c, hc, by rw [hother c hck]; exact hzc, by rw [hother c hck]; exact hpp⟩

end Tasks

/-! ## The processes that have been reported -/

open Tasks (Quiet)

/-- The records of parenthood, and those of exits and reports. -/
structure Core.Family (c : Core) (busy : ℕ) : Prop where
  /-- The records of parenthood. -/
  kin : c.tasks.Kin busy
  /-- The processes are numbered. -/
  uid_le : ∀ i < numPcb, (c.tasks i).uid ≤ c.born
  /-- A zombie has exited. -/
  exited : ∀ i < numPcb, (c.tasks i).taskState = .zombie → (c.tasks i).uid ∈ c.exited
  /-- The reported processes have been numbered. -/
  reported_le : ∀ u ∈ c.reported, u ≤ c.born
  /-- A process in the table has not been reported. -/
  unreported : ∀ i < numPcb, (c.tasks i).uid ≠ 0 → (c.tasks i).uid ∉ c.reported

namespace Core.Family

variable {c c' : Core} {i busy target : ℕ} (h : c.Family busy)

include h

/-- Changes of states. -/
theorem quiet (hq : Quiet c.tasks c'.tasks) (hborn : c'.born = c.born) (hexited : c'.exited = c.exited)
    (hreported : c'.reported = c.reported) : c'.Family busy where
  kin := h.kin.quiet hq
  uid_le i hi := by
    rw [(hq.fields i).1, hborn]
    exact h.uid_le i hi
  exited i hi hz := by
    rw [(hq.fields i).1, hexited]
    exact h.exited i hi ((hq.zombie i).mp hz)
  reported_le := by
    rw [hreported, hborn]
    exact h.reported_le
  unreported i hi hu := by
    rw [(hq.fields i).1] at hu ⊢
    rw [hreported]
    exact h.unreported i hi hu

/-- An exit of a living process. -/
theorem exit (hlt : target < numPcb) (hu : (c.tasks target).uid ≠ 0)
    (hlive : (c.tasks target).taskState ≠ .zombie) (hinit : (c.tasks initTask).uid ≠ 0)
    (ht : c'.tasks = c.tasks.exit target) (hborn : c'.born = c.born)
    (hexited : c'.exited = (c.tasks target).uid :: c.exited) (hreported : c'.reported = c.reported) :
    c'.Family busy where
  kin := ht ▸ h.kin.exit hlt hu hlive hinit
  uid_le i hi := by
    rw [ht, Tasks.exit_uid, hborn]
    exact h.uid_le i hi
  exited i hi hz := by
    rw [ht, Tasks.exit_taskState] at hz
    rw [ht, Tasks.exit_uid, hexited]
    split_ifs at hz with htarget
    · rw [htarget]
      exact List.mem_cons_self ..
    · exact List.mem_cons_of_mem _ (h.exited i hi hz)
  reported_le := by
    rw [hreported, hborn]
    exact h.reported_le
  unreported i hi hui := by
    rw [ht, Tasks.exit_uid] at hui ⊢
    rw [hreported]
    exact h.unreported i hi hui

/-- A zombie child of the busy task is reaped. -/
theorem clear (hi : i < numPcb) (hne : i ≠ initTask) (hppid : (c.tasks i).ppid = busy)
    (ht : c'.tasks = c.tasks.clear i) (hborn : c'.born = c.born) (hexited : c'.exited = c.exited)
    (hreported : ∀ u ∈ c'.reported, u = (c.tasks i).uid ∨ u ∈ c.reported) : c'.Family busy := by
  have hother : ∀ j, (c'.tasks j).uid ≠ 0 → j ≠ i := by
    rintro j hu rfl
    rw [ht, Tasks.clear_self] at hu
    exact hu rfl
  refine ⟨ht ▸ h.kin.clear hne hppid, fun j hj => ?_, fun j hj hz => ?_, fun u hu => ?_, fun j hj hu => ?_⟩
  · rw [hborn]
    by_cases hji : j = i
    · rw [hji, ht, Tasks.clear_self]
      exact Nat.zero_le _
    · rw [ht, Tasks.clear_of_ne hji]
      exact h.uid_le j hj
  · have hji : j ≠ i := by
      rintro rfl
      rw [ht, Tasks.clear_self] at hz
      cases hz
    rw [ht, Tasks.clear_of_ne hji] at hz ⊢
    rw [hexited]
    exact h.exited j hj hz
  · rw [hborn]
    rcases hreported u hu with rfl | hu
    · exact h.uid_le i hi
    · exact h.reported_le u hu
  · have hji := hother j hu
    rw [ht, Tasks.clear_of_ne hji] at hu ⊢
    intro hmem
    rcases hreported _ hmem with heq | hmem
    · exact hji (h.kin.uid_inj j hj i hi hu heq)
    · exact h.unreported j hj hu hmem

/-- The busy task has returned from `wait_for_child`. -/
theorem done (hc : (c.tasks busy).cont ≠ .waitForChild) : c.Family initTask :=
  { h with kin := h.kin.done hc }

omit h in
/-- Any task may be busy. -/
theorem weaken (h : c.Family initTask) : c.Family busy := { h with kin := h.kin.weaken }

end Core.Family

end Nascent
