import Nascent.Proc.Model
import Nascent.Virmem.Map

/-!
# `fork_process` and the pools

`fork_process` takes two frames, a VMA for each VMA of the parent, and a PCB. What it does to the frames
and the VMAs does not depend on the PCB that it finds, so its result is the result of the pools and the
fields of one PCB (`Kernel.forkProcess_eq`).

There is no check for the null pointers that the pools return. With an empty pool of PCBs, or with fewer
VMAs than the parent has, `fork_process` follows a null pointer, and does not return to the parent
(`Kernel.fork_not_clean`).

A PCB from the list may have been used before. `clear_pcb` leaves its saved registers, and
`fork_process` sets three of them, so the child starts with the others as the process before it left
them (`Kernel.recycled_iff`).
-/

namespace Nascent.Proc

variable {α β : Type} {e : Fault}

theorem deref_eq_ok {o : Option α} {a : α} (h : deref o = .ok a) : o = some a := by
  cases o with
  | none => cases h
  | some b => rw [deref, Except.ok.injEq] at h; rw [h]

theorem bind_eq_ok {x : Except Fault α} {f : α → Except Fault β} {b : β} (h : x >>= f = .ok b) :
    ∃ a, x = .ok a ∧ f a = .ok b := by
  cases x with
  | error e => cases h
  | ok a => exact ⟨a, rfl, h⟩

theorem bind_eq_error {x : Except Fault α} {f : α → Except Fault β} (h : x >>= f = .error e) :
    x = .error e ∨ ∃ a, x = .ok a ∧ f a = .error e := by
  cases x with
  | error e' =>
    have herror : (Except.error e' : Except Fault β) = .error e := h
    exact .inl (congrArg _ (Except.error.inj herror))
  | ok a => exact .inr ⟨a, rfl, h⟩

theorem deref_eq_error {o : Option α} (h : deref o = .error e) : e = .nullPointer := by
  cases o with
  | none => exact (Except.error.inj h).symm
  | some a => cases h

theorem paged_eq_ok {o : Option α} {a : α} (h : paged o = .ok a) : o = some a := by
  cases o with
  | none => cases h
  | some b => rw [paged, Except.ok.injEq] at h; rw [h]

theorem paged_eq_error {o : Option α} (h : paged o = .error e) : e = .outOfPages := by
  cases o with
  | none => exact (Except.error.inj h).symm
  | some a => cases h

/-! ## The pools -/

namespace Pools

variable {p p' : Pools} {r r' : List ℕ × Pools} {ppml4 cpml4 : Word} {vmas l : List ℕ} {v : ℕ}

/-- A VMA that is not the null pointer is taken from the list. -/
theorem length_getFreeVma (h : p.getFreeVma.1 = some v) :
    p.getFreeVma.2.freeVmas.length + 1 = p.freeVmas.length := by
  unfold getFreeVma at h ⊢
  split
  · rename_i hfree
    rw [hfree] at h
    cases h
  · rename_i hfree
    rw [hfree, List.length_cons]

/-- A VMA that is copied is taken from the list. -/
theorem length_copyVma (h : copyVma ppml4 cpml4 r v = .ok r') :
    r'.2.freeVmas.length + 1 = r.2.freeVmas.length ∧ r'.1.length = r.1.length + 1 := by
  obtain ⟨w, hw, h⟩ := bind_eq_ok h
  obtain ⟨mm, -, h⟩ := bind_eq_ok h
  obtain rfl := Except.ok.inj h
  exact ⟨length_getFreeVma (deref_eq_ok hw), List.length_append⟩

/-- The loop takes as many VMAs as the parent has. -/
theorem length_foldlM_copyVma : ∀ (vmas : List ℕ) (r : List ℕ × Pools),
    vmas.foldlM (copyVma ppml4 cpml4) r = .ok r' →
      r'.2.freeVmas.length + vmas.length = r.2.freeVmas.length ∧
        r'.1.length = r.1.length + vmas.length
  | [], r, h => by
    obtain rfl := Except.ok.inj h
    exact ⟨rfl, rfl⟩
  | v :: vmas, r, h => by
    rw [List.foldlM_cons] at h
    obtain ⟨r₁, h1, h⟩ := bind_eq_ok h
    obtain ⟨h2, h3⟩ := length_copyVma h1
    obtain ⟨h4, h5⟩ := length_foldlM_copyVma vmas r₁ h
    rw [List.length_cons]
    omega

/-- The faults of the loop. -/
theorem fault_foldlM_copyVma : ∀ (vmas : List ℕ) (r : List ℕ × Pools),
    vmas.foldlM (copyVma ppml4 cpml4) r = .error e → e = .nullPointer ∨ e = .outOfPages
  | [], r, h => by cases h
  | v :: vmas, r, h => by
    rw [List.foldlM_cons] at h
    rcases bind_eq_error h with h1 | ⟨r₁, -, h⟩
    · rcases bind_eq_error h1 with h2 | ⟨w, -, h2⟩
      · exact .inl (deref_eq_error h2)
      · rcases bind_eq_error h2 with h3 | ⟨mm, -, h3⟩
        · exact .inr (paged_eq_error h3)
        · cases h3
    · exact fault_foldlM_copyVma vmas r₁ h

theorem length_copyVmas (p : Pools) (h : p.copyVmas ppml4 cpml4 vmas = .ok (l, p')) :
    p'.freeVmas.length + vmas.length = p.freeVmas.length := (length_foldlM_copyVma vmas _ h).1

/-- The frames and VMAs that `fork_process` takes: the page for the `mm_struct`, the PML4, the VMAs of
the child, and the pools after it. -/
def fork (p : Pools) (ppml4 : Word) (vmas : List ℕ) : Except Fault (Word × Word × List ℕ × Pools) := do
  let (procMm, mm) ← paged p.mm.pageAlloc
  let (pml, mm) ← paged mm.createNewPmlTable
  let (l, p) ← copyVmas { p with mm := mm } ppml4 (pml - kernBase + kernBase) vmas
  pure (procMm, pml, l, p)

/-- The faults of `fork_process`. -/
theorem fault_fork (h : p.fork ppml4 vmas = .error e) : e = .nullPointer ∨ e = .outOfPages := by
  rcases bind_eq_error h with h1 | ⟨⟨procMm, mm₁⟩, -, h⟩
  · exact .inr (paged_eq_error h1)
  rcases bind_eq_error h with h1 | ⟨⟨pml, mm₂⟩, -, h⟩
  · exact .inr (paged_eq_error h1)
  rcases bind_eq_error h with h1 | ⟨r, -, h⟩
  · exact fault_foldlM_copyVma vmas _ h1
  · cases h

/-- A loop that runs out of VMAs stops with a fault. -/
theorem fork_error (hlen : p.freeVmas.length < vmas.length) :
    p.fork ppml4 vmas = .error .nullPointer ∨ p.fork ppml4 vmas = .error .outOfPages := by
  cases hfork : p.fork ppml4 vmas with
  | error e => exact (fault_fork hfork).imp (congrArg _) (congrArg _)
  | ok r =>
    obtain ⟨⟨procMm, mm⟩, -, hfork⟩ := bind_eq_ok hfork
    obtain ⟨⟨pml, mm⟩, -, hfork⟩ := bind_eq_ok hfork
    obtain ⟨⟨l, p'⟩, hcopy, -⟩ := bind_eq_ok hfork
    have hlen' := length_copyVmas _ hcopy
    have hle : p.freeVmas.length < p'.freeVmas.length + vmas.length := by omega
    exact absurd hlen' hle.ne'

end Pools

/-! ## The result -/

namespace Kernel

variable {s t : Kernel} {c : ℕ} {rest : List ℕ} {curRsp above : Word} {k : ℤ}

/-- `fork_process` without a free PCB follows the null pointer. -/
theorem forkProcess_of_nil (hfree : s.freePcbs = []) :
    s.forkProcess curRsp above = .error .nullPointer := by
  have hfetch : s.fetchFreePcb = .ok (none, s) := by rw [fetchFreePcb, hfree]
  rw [forkProcess, hfetch]
  rfl

/-- A task that is ready is appended to the list. -/
theorem addToTaskList_of_ready {i : ℕ} (hready : (s.pcb i).taskState = .ready) :
    s.addToTaskList i = { s with taskList := s.taskList ++ [i] } := by
  simp only [addToTaskList, hready, reduceCtorEq, if_false]

/-- `fork_process` after its call of `fetch_free_pcb` is what it does to the pools, and one PCB. -/
theorem forkInto_eq {q : ℕ} (hne : q ≠ c) (hready : (s.pcb c).taskState = .ready) :
    s.forkInto q c curRsp above =
      (s.toPools.copyVmas (s.pcb q).pml4 (s.pcb c).pml4 (s.pcb q).mm.vmas).map fun r =>
        ((s.pcb c).pid, { (s.setPools r.2).setPcb c (((s.pcb c).inherit q (s.pcb q)).settle (s.pcb q)
            r.1 above (kstackAddr s.pcbArr c 509 - (kstackAddr s.pcbArr q 509 - curRsp))) with
          taskList := s.taskList ++ [c] }) := by
  have hpml4 : ((s.pcb c).inherit q (s.pcb q)).pml4 = (s.pcb c).pml4 := rfl
  rw [forkInto]
  simp only [setPcb_pcb_self, setPcb_pcb_of_ne hne, hpml4, setPcb_toPools]
  cases s.toPools.copyVmas (s.pcb q).pml4 (s.pcb c).pml4 (s.pcb q).mm.vmas with
  | error e => rfl
  | ok r =>
    simp only [bind, Except.bind, Except.map, pure, Except.pure, setPcb_setPools, setPcb_pcb_self,
      setPcb_pcb_of_ne hne, setPools_pcb, setPcb_setPcb, setPcb_pcbArr, setPools_pcbArr]
    -- The child is ready, so `add_to_task_list` leaves its state and appends it.
    rw [addToTaskList_of_ready]
    · rfl
    · rw [setPcb_pcb_self]
      exact hready

/-- The PCB of the child, from the PCB that was free. -/
def childPcb (s : Kernel) (c : ℕ) (curRsp above : Word) (r : Word × Word × List ℕ × Pools) : Pcb :=
  (((s.pcb c).fetch s.pcbArr c r.1 r.2.1).inherit s.runningTask (s.pcb s.runningTask)).settle
    (s.pcb s.runningTask) r.2.2.1 above
    (kstackAddr s.pcbArr c 509 - (kstackAddr s.pcbArr s.runningTask 509 - curRsp))

/-- The kernel after `fork_process`. -/
def forked (s : Kernel) (c : ℕ) (rest : List ℕ) (curRsp above : Word)
    (r : Word × Word × List ℕ × Pools) : Kernel :=
  { ((s.setPools r.2.2.2).setFreePcbs rest).setPcb c (s.childPcb c curRsp above r) with
    taskList := s.taskList ++ [c] }

/-- `fork_process` with a free PCB is what it does to the pools, and one PCB. -/
theorem forkProcess_eq (hfree : s.freePcbs = c :: rest) (hne : s.runningTask ≠ c) :
    s.forkProcess curRsp above =
      (s.toPools.fork (s.pcb s.runningTask).pml4 (s.pcb s.runningTask).mm.vmas).map
        fun r => ((c : ℤ), s.forked c rest curRsp above r) := by
  rw [forkProcess, fetchFreePcb, hfree, Pools.fork]
  cases s.mm.pageAlloc with
  | none => rfl
  | some a =>
    obtain ⟨procMm, mm₁⟩ := a
    simp only [paged, bind, Except.bind]
    cases mm₁.createNewPmlTable with
    | none => rfl
    | some b =>
      obtain ⟨pml, mm₂⟩ := b
      simp only [pure, Except.pure, deref]
      rw [forkInto_eq hne (congrArg Pcb.taskState setPcb_pcb_self)]
      simp only [setPcb_pcb_self, setPcb_pcb_of_ne hne, setFreePcbs_pcb, setMm_pcb, setPcb_toPools]
      have hpml4 : ((s.pcb c).fetch s.pcbArr c procMm pml).pml4 = pml - kernBase + kernBase := rfl
      have hpools : ((s.setMm mm₂).setFreePcbs rest).toPools = { s.toPools with mm := mm₂ } := rfl
      rw [hpml4, hpools]
      cases Pools.copyVmas { s.toPools with mm := mm₂ } (s.pcb s.runningTask).pml4
        (pml - kernBase + kernBase) (s.pcb s.runningTask).mm.vmas with
      | error e => rfl
      | ok r =>
        simp only [Except.map, forked, childPcb, setPcb_setPools, setPcb_setPcb]
        rfl

/-! ## Empty pools -/

/-- The call has returned an error code, and has left the memory and the lists as they were. -/
def FailsCleanly (s : Kernel) (result : Except Fault (ℤ × Kernel)) : Prop :=
  ∃ code t, result = .ok (code, t) ∧ code < 0 ∧ t.mm = s.mm ∧ t.taskList = s.taskList ∧
    t.freePcbs = s.freePcbs ∧ t.freeVmas = s.freeVmas

/-- A pool does not suffice: there is no PCB, or there are fewer VMAs than the parent has. -/
def Exhausted (s : Kernel) : Prop :=
  s.freePcbs = [] ∨ s.freeVmas.length < (s.pcb s.runningTask).mm.vmas.length

/-- `fork_process` returns the number of a PCB. -/
theorem forkProcess_nonneg (hfork : s.forkProcess curRsp above = .ok (k, t)) : 0 ≤ k := by
  obtain ⟨⟨child, s₁⟩, hfetch, hrest⟩ := bind_eq_ok hfork
  obtain ⟨c, hc, hinto⟩ := bind_eq_ok hrest
  obtain rfl := deref_eq_ok hc
  -- The number is the one that `fetch_free_pcb` has set.
  have hpid : (s₁.pcb c).pid = c := by
    unfold fetchFreePcb at hfetch
    split at hfetch
    · cases hfetch
    · obtain ⟨⟨procMm, mm₁⟩, -, hfetch⟩ := bind_eq_ok hfetch
      obtain ⟨⟨pml, mm₂⟩, -, hfetch⟩ := bind_eq_ok hfetch
      obtain ⟨hc, rfl⟩ := Prod.mk.inj (Except.ok.inj hfetch)
      obtain rfl := Option.some.inj hc
      rw [setPcb_pcb_self]
      rfl
  obtain ⟨⟨vmas, pools⟩, -, hlast⟩ := bind_eq_ok hinto
  obtain ⟨hk, -⟩ := Prod.mk.inj (Except.ok.inj hlast)
  rw [← hk, setPcb_pcb_self, setPools_pcb, setPcb_pcb_self]
  change 0 ≤ (s₁.pcb c).pid
  rw [hpid]
  exact Int.natCast_nonneg c

/-- In no state in which a pool does not suffice does `fork_process` fail cleanly. Where the running
task is not on the list of free PCBs, it follows a null pointer, unless the frames have run out
before. -/
theorem fork_not_clean (s : Kernel) (curRsp above : Word) (hpools : s.Exhausted) :
    ¬ s.FailsCleanly (s.forkProcess curRsp above) ∧
      (s.runningTask ∉ s.freePcbs →
        s.forkProcess curRsp above = .error .nullPointer ∨
          s.forkProcess curRsp above = .error .outOfPages) := by
  constructor
  · rintro ⟨code, t, hok, hneg, -⟩
    exact absurd (forkProcess_nonneg hok) (not_le.mpr hneg)
  · intro hrunning
    cases hfree : s.freePcbs with
    | nil => exact .inl (forkProcess_of_nil hfree)
    | cons c rest =>
      have hne : s.runningTask ≠ c := by
        rintro rfl
        exact hrunning (hfree ▸ List.mem_cons_self ..)
      have hlen := hpools.resolve_left (by rw [hfree]; exact List.cons_ne_nil c rest)
      rw [forkProcess_eq hfree hne]
      exact (Pools.fork_error hlen).imp (fun h => by rw [h]; rfl) fun h => by rw [h]; rfl

/-- A kernel with four free frames, whose running task has two VMAs. -/
def smallKernel (freeVmas freePcbs : List ℕ) : Kernel where
  mm := Mm.blank
  vmaArr := fun _ => ⟨0, 0, 0, .anon, 0, 0⟩
  freeVmas := freeVmas
  pcbArr := 0
  pcb := fun i => if i = 2 then { Pcb.blank with mm := { MmStruct.clean with vmas := [0, 1] } } else .blank
  freePcbs := freePcbs
  taskList := []
  runningTask := 2
  isFirstProc := false

/-- The second of two VMAs cannot be copied. -/
theorem fork_not_clean_second : (smallKernel [5] [3]).Exhausted ∧
    ¬ (smallKernel [5] [3]).FailsCleanly ((smallKernel [5] [3]).forkProcess 0 0) := by
  have hpools : (smallKernel [5] [3]).Exhausted := .inr (by decide)
  exact ⟨hpools, (fork_not_clean _ 0 0 hpools).1⟩

/-- With one VMA for two, `fork_process` does not return. -/
theorem fork_null : ¬ ∀ (s : Kernel) (curRsp above : Word), s.Exhausted →
    s.FailsCleanly (s.forkProcess curRsp above) := by
  intro hall
  obtain ⟨code, t, hok, -⟩ := hall (smallKernel [5] [3]) 0 0 (.inr (by decide))
  have hnone : ((smallKernel [5] [3]).forkProcess 0 0).toOption.isNone := by decide +kernel
  rw [hok] at hnone
  cases hnone

/-! ## A PCB that was used before -/

end Kernel

/-- What the child of `fork_process` starts with: its kernel stack, its descriptors, its `mm_struct`, its
strings, its state, and the registers that `contextswitch` loads. -/
structure SameStart (p q : Pcb) : Prop where
  /-- The kernel stack. -/
  kstack : ∀ i < kstackSize, p.kstack i = q.kstack i
  /-- The descriptors. -/
  fdArray : ∀ i < Tarfs.maxFds, p.fdArray i = q.fdArray i
  /-- The `mm_struct`. -/
  mm : p.mm = q.mm
  /-- The current directory. -/
  cwd : p.cwd = q.cwd
  /-- The file name. -/
  filename : p.filename = q.filename
  /-- The time to sleep. -/
  sleepSec : p.sleepSec = q.sleepSec
  /-- The state. -/
  taskState : p.taskState = q.taskState
  /-- The registers that `fork_process` does not set. -/
  kept : p.regs.rax = q.regs.rax ∧ p.regs.rbx = q.regs.rbx ∧ p.regs.rcx = q.regs.rcx ∧
    p.regs.rdx = q.regs.rdx ∧ p.regs.rbp = q.regs.rbp ∧ p.regs.flags = q.regs.flags
  /-- The registers that it sets. -/
  set : p.regs.rip = q.regs.rip ∧ p.regs.krsp = q.regs.krsp ∧ p.regs.cr3 = q.regs.cr3

/-- The registers that the process before has left in its PCB are those of a PCB that was never used. -/
def Registers.LikeUnused (r : Registers) : Prop :=
  r.rax = 0 ∧ r.rbx = 0 ∧ r.rcx = 0 ∧ r.rdx = 0 ∧ r.rbp = 0 ∧ r.flags = 0

namespace Kernel

variable {s t : Kernel} {c : ℕ} {rest : List ℕ} {curRsp above : Word} {k : ℤ}

/-- The kernel stack of the child is that of the parent, with the mark. -/
theorem settle_kstack {p q : Pcb} {vmas : List ℕ} {rip krsp : Word} {i : ℕ} (hi : i < kstackSize) :
    (p.settle q vmas rip krsp).kstack i = if i = 511 then 10101 else q.kstack i := by
  rw [Pcb.settle]
  change Function.update (memcpyUint q.kstack p.kstack kstackSize) 511 10101 i = _
  rw [Function.update_apply, memcpyUint, if_pos hi]

/-- What the child starts with depends on the PCB that was free by its registers and its time to sleep
only. -/
theorem sameStart_childPcb_iff {r : Word × Word × List ℕ × Pools} {p q : Pcb}
    (hsleep : p.sleepSec = q.sleepSec) (hne : s.runningTask ≠ c) :
    SameStart ((s.setPcb c p).childPcb c curRsp above r) ((s.setPcb c q).childPcb c curRsp above r) ↔
      p.regs.rax = q.regs.rax ∧ p.regs.rbx = q.regs.rbx ∧ p.regs.rcx = q.regs.rcx ∧
        p.regs.rdx = q.regs.rdx ∧ p.regs.rbp = q.regs.rbp ∧ p.regs.flags = q.regs.flags := by
  have hparent : ∀ x, (s.setPcb c x).pcb (s.setPcb c x).runningTask = s.pcb s.runningTask :=
    fun x => setPcb_pcb_of_ne hne
  rw [childPcb, childPcb, hparent, hparent, setPcb_pcb_self, setPcb_pcb_self]
  constructor
  · exact fun h => h.kept
  · intro h
    refine ⟨fun i hi => ?_, fun i hi => ?_, rfl, rfl, rfl, hsleep, rfl, h, rfl, rfl, rfl⟩
    · rw [settle_kstack hi, settle_kstack hi]
    · exact (if_pos hi).trans (if_pos hi).symm

/-- The child in a PCB that was used before and the child in a PCB that was never used start with the
same, in two states that differ in nothing else, exactly if the process before has left zeros in the
registers that `fork_process` does not set. -/
theorem recycled_iff (s t : Kernel) (c : ℕ) (rest : List ℕ) (old : Pcb) (curRsp above : Word) (k : ℤ)
    (hfree : s.freePcbs = c :: rest) (hne : s.runningTask ≠ c)
    (hfork : (s.setPcb c .blank).forkProcess curRsp above = .ok (k, t)) :
    ∃ t', (s.setPcb c old.clear).forkProcess curRsp above = .ok (k, t') ∧
      (SameStart (t.pcb c) (t'.pcb c) ↔ old.regs.LikeUnused) := by
  -- The pools give the same in both states.
  have heq : ∀ p, (s.setPcb c p).forkProcess curRsp above =
      (s.toPools.fork (s.pcb s.runningTask).pml4 (s.pcb s.runningTask).mm.vmas).map
        fun r => ((c : ℤ), (s.setPcb c p).forked c rest curRsp above r) := by
    intro p
    have hp : (s.setPcb c p).pcb (s.setPcb c p).runningTask = s.pcb s.runningTask :=
      setPcb_pcb_of_ne hne
    have hfree' : (s.setPcb c p).freePcbs = c :: rest := hfree
    rw [forkProcess_eq hfree' hne, hp]
    rfl
  rw [heq] at hfork
  rw [heq]
  cases hpools : s.toPools.fork (s.pcb s.runningTask).pml4 (s.pcb s.runningTask).mm.vmas with
  | error e =>
    rw [hpools] at hfork
    cases hfork
  | ok r =>
    rw [hpools] at hfork
    obtain ⟨rfl, rfl⟩ := Prod.mk.inj (Except.ok.inj hfork)
    refine ⟨_, rfl, ?_⟩
    have hchild : ∀ p, ((s.setPcb c p).forked c rest curRsp above r).pcb c =
        (s.setPcb c p).childPcb c curRsp above r := fun p => setPcb_pcb_self
    rw [hchild, hchild, sameStart_childPcb_iff (by exact rfl) hne, Registers.LikeUnused]
    exact and_congr eq_comm (and_congr eq_comm (and_congr eq_comm (and_congr eq_comm
      (and_congr eq_comm eq_comm))))

/-- A PCB whose process has left a 1 in `rbx`. -/
def usedPcb : Pcb := { Pcb.blank with regs := { Pcb.blank.regs with rbx := 1 } }

/-- A child in the small kernel, in a PCB that was never used. -/
theorem small_forks : ∃ k t,
    ((smallKernel [5, 6] [3]).setPcb 3 .blank).forkProcess 0 0 = .ok (k, t) := by
  have hsome : (((smallKernel [5, 6] [3]).setPcb 3 .blank).forkProcess 0 0).toOption.isSome := by
    decide +kernel
  cases hfork : ((smallKernel [5, 6] [3]).setPcb 3 .blank).forkProcess 0 0 with
  | error e =>
    rw [hfork] at hsome
    cases hsome
  | ok r => exact ⟨r.1, r.2, rfl⟩

theorem recycled_iff_small : ∃ k t t',
    ((smallKernel [5, 6] [3]).setPcb 3 .blank).forkProcess 0 0 = .ok (k, t) ∧
    ((smallKernel [5, 6] [3]).setPcb 3 usedPcb.clear).forkProcess 0 0 = .ok (k, t') ∧
    (SameStart (t.pcb 3) (t'.pcb 3) ↔ usedPcb.regs.LikeUnused) := by
  obtain ⟨k, t, hfork⟩ := small_forks
  obtain ⟨t', hfork', hiff⟩ := recycled_iff (smallKernel [5, 6] [3]) t 3 [] usedPcb 0 0 k rfl
    (by decide) hfork
  exact ⟨k, t, t', hfork, hfork', hiff⟩

/-- The child in a PCB that was used finds the `rbx` of the process before. -/
theorem rbx_of_process_before : ¬ ∀ (s t : Kernel) (c : ℕ) (rest : List ℕ) (old : Pcb)
    (curRsp above : Word) (k : ℤ), s.freePcbs = c :: rest → s.runningTask ≠ c →
    (s.setPcb c .blank).forkProcess curRsp above = .ok (k, t) →
    ∃ t', (s.setPcb c old.clear).forkProcess curRsp above = .ok (k, t') ∧
      SameStart (t.pcb c) (t'.pcb c) := by
  intro hall
  obtain ⟨k, t, hfork⟩ := small_forks
  obtain ⟨t', hfork', hsame⟩ := hall (smallKernel [5, 6] [3]) t 3 [] usedPcb 0 0 k rfl (by decide) hfork
  have hrbx : (((smallKernel [5, 6] [3]).setPcb 3 .blank).forkProcess 0 0).toOption.map
      (fun r => (r.2.pcb 3).regs.rbx) = some 0 := by decide +kernel
  have hrbx' : (((smallKernel [5, 6] [3]).setPcb 3 usedPcb.clear).forkProcess 0 0).toOption.map
      (fun r => (r.2.pcb 3).regs.rbx) = some 1 := by decide +kernel
  rw [hfork] at hrbx
  rw [hfork'] at hrbx'
  have h0 : (t.pcb 3).regs.rbx = 0 := Option.some.inj hrbx
  have h1 : (t'.pcb 3).regs.rbx = 1 := Option.some.inj hrbx'
  have heq := hsame.kept.2.1
  rw [h0, h1] at heq
  exact absurd heq (by decide)

end Kernel

end Nascent.Proc
