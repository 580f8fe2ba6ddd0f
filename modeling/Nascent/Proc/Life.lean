import Mathlib.Data.Set.Card
import Nascent.Cow.Overmap
import Nascent.Exec.Model
import Nascent.Proc.Fork
import Nascent.Virmem.Mapping
import Nascent.Virmem.Release
import Nascent.Virmem.Teardown

/-!
# What a process leaves behind

The life of a process from the point of view of the three pools: `fork_process`, any number of calls of
`sys_execvpe`, `sys_exit`, and the `clear_pcb` of `wait_for_child`. The PCB goes back to its list, and
`clear_mapping` releases the pages and the tables. But the VMAs never go back, and neither do the PML4 and
the page of the `mm_struct`. So the pools are in no case what they were before (`Kernel.life_leaks`): if
the parent has a VMA, or a new program was loaded, there are fewer VMAs, and otherwise there are two
frames less.
-/

namespace Nascent

/-! ## The two frames of a process -/

namespace Mm

variable {s s₁ : Mm} {roots : Finset ℕ} {held : ℕ → ℕ} {f g g' r : ℕ} {e : Word}

/-- The frames that are not in use. -/
def unused (s : Mm) : Finset ℕ := (Finset.range s.pageCount).filter fun f => s.refCount f = 0

/-- The tables of an address space in the second state that were not its tables in the first. -/
noncomputable def acquired (s s₁ : Mm) (r : ℕ) : ℕ :=
  {f | s₁.IsTable (User {r}) f ∧ ¬ s.IsTable (User {r}) f}.ncard

theorem mem_unused : f ∈ s.unused ↔ f < s.pageCount ∧ s.refCount f = 0 := by
  rw [unused, Finset.mem_filter, Finset.mem_range]

/-- Fewer frames are unused where all that was in use is still in use, and two frames more. -/
theorem card_unused_add_two (hcount : s₁.pageCount = s.pageCount)
    (hused : ∀ f < s.pageCount, s.refCount f ≠ 0 → s₁.refCount f ≠ 0)
    (hg : g ∈ s.unused) (hg₁ : s₁.refCount g ≠ 0) (hg' : g' ∈ s.unused) (hg'₁ : s₁.refCount g' ≠ 0)
    (hne : g ≠ g') : s₁.unused.card + 2 ≤ s.unused.card := by
  have hsub : s₁.unused ⊆ (s.unused.erase g).erase g' := by
    intro x hx
    obtain ⟨hlt, h0⟩ := mem_unused.mp hx
    rw [hcount] at hlt
    refine Finset.mem_erase.mpr ⟨fun h => hg'₁ (h ▸ h0), Finset.mem_erase.mpr
      ⟨fun h => hg₁ (h ▸ h0), mem_unused.mpr ⟨hlt, ?_⟩⟩⟩
    by_contra h0'
    exact hused x hlt h0' h0
  have hcard := Finset.card_le_card hsub
  have hmem : g' ∈ s.unused.erase g := Finset.mem_erase.mpr ⟨hne.symm, hg'⟩
  have h1 := Finset.card_erase_add_one hg
  have h2 := Finset.card_erase_add_one hmem
  omega

/-- A frame that is in use is in use where all below a PML4 is pruned that has nothing below it. -/
theorem Pruned.used (hp : s.Pruned roots held r (fun p => p ≠ []) s₁) (h : s.Accounted roots held)
    (hblank : ∀ v : VPage, v.InUser → s.leaf r v = none)
    (htable : ∀ q, q ≠ [] → User roots r q → s.table r q = none) (hf : f < s.pageCount)
    (h0 : s.refCount f ≠ 0) : s₁.refCount f ≠ 0 := by
  obtain ⟨held', h', hheld⟩ := hp.account
  have hleaf : ∀ n ∈ roots, ∀ v : VPage, v.InUser → s₁.leaf n v = s.leaf n v := by
    intro n hn v hv
    by_cases hD : n = r ∧ v.path ≠ []
    · obtain ⟨rfl, hne⟩ := hD
      rw [hp.leaf_gone v hv hne, hblank v hv]
    · exact hp.leaf_kept n hn v hv hD
  by_cases ht : s.IsTable (User roots) f
  · obtain ⟨n, p, hn, hw⟩ := ht
    -- The tables below the PML4 are none, so the table is kept.
    have hD : ¬ (n = r ∧ p ≠ []) := by
      rintro ⟨rfl, hne⟩
      rw [htable p hne hn] at hw
      cases hw
    have ht' : s₁.IsTable (User roots) f := ⟨n, p, hn, by rw [hp.table_kept n p hn hD, hw]⟩
    rw [(h'.table f ht').2.1]
    exact one_ne_zero
  · have hc := h.count f hf
    have hc' := h'.count f (hp.consts.1 ▸ hf)
    rw [leafCount_congr hleaf, hheld f ht] at hc'
    omega

/-- The page of the `mm_struct` and the PML4 of a process without pages stay in use when its memory is
torn down, and no other address space gets a table. -/
theorem Accounted.two_frames (h : s.Accounted roots held) (hg : s.freePageHead = some g)
    (hg' : (s.takeHead g (convertVA g)).freePageHead = some g')
    (hs₁ : ((s.takeHead g (convertVA g)).newPml g' e).clearMapping (convertVA g') = s₁) :
    s₁.unused.card + 2 ≤ s.unused.card ∧
      ∀ r ∈ roots, ∀ f, s₁.IsTable (User {r}) f → s.IsTable (User {r}) f := by
  obtain ⟨hlt, h0, -⟩ := h.head hg
  have h₁ := h.alloc hg
  obtain ⟨hlt', h0', -⟩ := h₁.head hg'
  have hb' := h₁.lt_two_pow hlt'
  have h₂ := h₁.newPml (e := e) hg'
  have hp := h₂.clearMapping (Finset.mem_insert_self g' roots)
  rw [hs₁] at hp
  have href : ((s.takeHead g (convertVA g)).newPml g' e).refCount =
      Function.update (Function.update s.refCount g 1) g' 1 := by
    rw [refCount_newPml hb', takeHead_eq (h.lt_two_pow hlt)]
  have hne : g' ≠ g := by
    rintro rfl
    rw [takeHead_eq (h.lt_two_pow hlt)] at h0'
    exact one_ne_zero ((Function.update_self ..).symm.trans h0')
  have h0g' : s.refCount g' = 0 := by
    rw [takeHead_eq (h.lt_two_pow hlt)] at h0'
    exact (Function.update_of_ne hne ..).symm.trans h0'
  -- All that was in use after the two allocations is in use.
  have hused := fun f => hp.used (f := f) h₂ (fun v hv => leaf_newPml_self hb' hv)
    fun q hq hn => table_newPml_self hb' hn.2.2 hq
  refine ⟨card_unused_add_two hp.consts.1 (fun f hf hf0 => hused f hf ?_)
    (mem_unused.mpr ⟨hlt, h0⟩) (hused g hlt ?_) (mem_unused.mpr ⟨hlt', h0g'⟩) (hused g' hlt' ?_)
    hne.symm, fun r hr f hf => ?_⟩
  · rw [href, Function.update_apply, Function.update_apply]
    split_ifs
    · exact one_ne_zero
    · exact one_ne_zero
    · exact hf0
  · rw [href, Function.update_of_ne hne.symm, Function.update_self]
    exact one_ne_zero
  · rw [href, Function.update_self]
    exact one_ne_zero
  · obtain ⟨n, p, hn, hw⟩ := hf
    obtain rfl := Finset.mem_singleton.mp hn.1
    have hng : n ≠ g' := fun hng => h₁.notMem_roots hg' (hng ▸ hr)
    have hu : User roots n p := ⟨hr, hn.2⟩
    have hu' : User (insert g' roots) n p := ⟨Finset.mem_insert_of_mem hr, hn.2⟩
    refine ⟨n, p, hn, ?_⟩
    rw [hp.table_kept n p hu' fun hD => hng hD.1, table_frame (positions_user roots)
      (h₁.tbl_newPml hg') hu, table_frame (positions_user roots) (h.tbl_takeHead hg) hu] at hw
    exact hw

end Mm

namespace Proc

open Tarfs (Tar)

/-! ## The life of a process -/

/-- The state in which `sys_execvpe` ends. -/
def ExecResult.state : ExecResult → Kernel
  | returned _ s => s
  | entered s => s

namespace Kernel

variable (s : Kernel)

/-- `schedule`, where `fetch_ready_task` finds the task `i`. -/
def scheduleTo (i : ℕ) : Kernel :=
  let t := s.setPcb i { s.pcb i with taskState := .running }
  { t with runningTask := i, taskList := t.taskList.erase i }.addToTaskList s.runningTask

/-- The start of `sys_exit`: the task becomes a zombie, and its parent is woken up. -/
def wake (target : ℕ) : Kernel :=
  let s := s.setPcb target { s.pcb target with taskState := .zombie }
  match (s.pcb target).parentTask with
  | none => s
  | some parent =>
    if (s.pcb parent).taskState = .suspended then
      s.setPcb parent { s.pcb parent with taskState := .ready }
    else s

/-- The loop of `sys_exit` over the children. -/
def adopt (target : ℕ) : Kernel :=
  { s with pcb := fun i =>
      if i < numPcb ∧ (s.pcb i).ppid = (s.pcb target).pid ∧ (s.pcb i).taskState ≠ .ready then
        { s.pcb i with ppid := (s.pcb initTask).pid }
      else s.pcb i }

/-- `sys_exit`, where `schedule` goes on with the task `i`. -/
def sysExit (target i : ℕ) : Kernel := ((s.wake target).adopt target).scheduleTo i

/-- The calls of `sys_execvpe` of a process. -/
def execs (tar : Tar) (calls : List ExecArgs) : Except Fault Kernel :=
  calls.foldlM (fun t a => (t.sysExecvpe tar a).map ExecResult.state) s

/-- A process from its `fork_process` to the `wait_for_child` that reaps it. -/
def life (curRsp above : Word) (tar : Tar) (calls : List ExecArgs) : Except Fault Kernel := do
  let (child, t) ← s.forkProcess curRsp above
  let t ← (t.scheduleTo child.toNat).execs tar calls
  pure ((t.sysExit child.toNat s.runningTask).reap child.toNat)

/-- The pools are what they were, but for the tables that the address space of the parent has got. -/
def Restored (s t : Kernel) (r : ℕ) : Prop :=
  t.mm.unused.card + s.mm.acquired t.mm r = s.mm.unused.card ∧
    t.freeVmas.length = s.freeVmas.length ∧ t.freePcbs.length = s.freePcbs.length

/-! ## Steps that leave the pools -/

/-- Two states with the same memory of the kernel and of the tasks. -/
structure SameMemory (s t : Kernel) : Prop where
  /-- The frames. -/
  mm : t.mm = s.mm
  /-- The VMAs. -/
  freeVmas : t.freeVmas = s.freeVmas
  /-- The list of free PCBs. -/
  freePcbs : t.freePcbs = s.freePcbs
  /-- The `mm_struct` of each task. -/
  pcbMm : ∀ i, (t.pcb i).mm = (s.pcb i).mm
  /-- The registers of each task. -/
  regs : ∀ i, (t.pcb i).regs = (s.pcb i).regs

variable {s} {t u : Kernel} {i target c : ℕ} {p : Pcb} {tar : Tar} {a : ExecArgs}

namespace SameMemory

theorem refl (s : Kernel) : s.SameMemory s := ⟨rfl, rfl, rfl, fun _ => rfl, fun _ => rfl⟩

theorem trans (h : s.SameMemory t) (h' : t.SameMemory u) : s.SameMemory u :=
  ⟨h'.mm.trans h.mm, h'.freeVmas.trans h.freeVmas, h'.freePcbs.trans h.freePcbs,
    fun i => (h'.pcbMm i).trans (h.pcbMm i), fun i => (h'.regs i).trans (h.regs i)⟩

end SameMemory

/-- A change of a PCB that keeps its `mm_struct` and its registers. -/
theorem sameMemory_setPcb (hmm : p.mm = (s.pcb i).mm) (hregs : p.regs = (s.pcb i).regs) :
    s.SameMemory (s.setPcb i p) := by
  refine ⟨rfl, rfl, rfl, fun j => ?_, fun j => ?_⟩
  · by_cases hj : j = i
    · rw [hj, setPcb_pcb_self, hmm]
    · rw [setPcb_pcb_of_ne hj]
  · by_cases hj : j = i
    · rw [hj, setPcb_pcb_self, hregs]
    · rw [setPcb_pcb_of_ne hj]

theorem sameMemory_addToTaskList : s.SameMemory (s.addToTaskList i) := by
  have hstate : s.SameMemory (if (s.pcb i).taskState = .running then
      s.setPcb i { s.pcb i with taskState := .ready } else s) := by
    split_ifs
    · exact sameMemory_setPcb rfl rfl
    · exact .refl s
  rw [addToTaskList]
  split
  · exact hstate
  · exact ⟨hstate.mm, hstate.freeVmas, hstate.freePcbs, hstate.pcbMm, hstate.regs⟩

theorem sameMemory_scheduleTo : s.SameMemory (s.scheduleTo i) := by
  have hset : s.SameMemory (s.setPcb i { s.pcb i with taskState := .running }) :=
    sameMemory_setPcb rfl rfl
  refine SameMemory.trans ?_ sameMemory_addToTaskList
  exact ⟨hset.mm, hset.freeVmas, hset.freePcbs, hset.pcbMm, hset.regs⟩

theorem sameMemory_sysExit : s.SameMemory (s.sysExit target i) := by
  have hzombie : s.SameMemory (s.setPcb target { s.pcb target with taskState := .zombie }) :=
    sameMemory_setPcb rfl rfl
  have hwake : s.SameMemory (s.wake target) := by
    rw [wake]
    split
    · exact hzombie
    · split
      · exact hzombie.trans (sameMemory_setPcb rfl rfl)
      · exact hzombie
  have hadopt : (s.wake target).SameMemory ((s.wake target).adopt target) := by
    refine ⟨rfl, rfl, rfl, fun j => ?_, fun j => ?_⟩
    · rw [adopt]
      dsimp only
      split <;> rfl
    · rw [adopt]
      dsimp only
      split <;> rfl
  exact (hwake.trans hadopt).trans sameMemory_scheduleTo

/-! ## What `sys_execvpe` takes -/

end Kernel

namespace Pools

variable {p : Pools} {v : Vma}

/-- A VMA leaves the list of free VMAs, or there is none. -/
theorem length_fetchFreeVma (p : Pools) (v : Vma) :
    (p.fetchFreeVma v).1.toList.length + (p.fetchFreeVma v).2.freeVmas.length = p.freeVmas.length := by
  unfold fetchFreeVma
  split
  · exact Nat.zero_add _
  · rename_i hfree
    rw [hfree, List.length_cons]
    exact Nat.add_comm ..

end Pools

/-- The number of VMAs that a task and the list of free VMAs have. -/
def Load.vmaCount (l : Load) : ℕ := l.mm.vmas.length + l.pools.freeVmas.length

/-- A VMA of a program header goes from the list of free VMAs to the task. -/
theorem vmaCount_loadSegment {m : Memory.Mem} {elf pml : Word} {l l' : Load} {x : Phdr × Word × Word}
    (h : loadSegment m elf pml l x = .ok l') :
    l'.vmaCount = l.vmaCount ∧ l'.pools.freeVmas.length ≤ l.pools.freeVmas.length := by
  obtain ⟨ph, junk⟩ := x
  rw [loadSegment] at h
  split at h
  · have hlen := l.pools.length_fetchFreeVma
      ⟨ph.vaddr, ph.endAddr, ph.type.setWidth 64, ph.vmType, junk.1, junk.2⟩
    generalize l.pools.fetchFreeVma _ = fetched at h hlen
    obtain ⟨mm, -, h⟩ := bind_eq_ok h
    obtain ⟨mm', -, h⟩ := bind_eq_ok h
    obtain rfl := Except.ok.inj h
    simp only [Load.vmaCount, MmStruct.append, List.length_append]
    omega
  · obtain rfl := Except.ok.inj h
    exact ⟨rfl, le_rfl⟩

theorem vmaCount_loadSegments {m : Memory.Mem} {elf pml : Word} {l' : Load} :
    ∀ (xs : List (Phdr × Word × Word)) (l : Load), xs.foldlM (loadSegment m elf pml) l = .ok l' →
      l'.vmaCount = l.vmaCount ∧ l'.pools.freeVmas.length ≤ l.pools.freeVmas.length
  | [], l, h => by
    obtain rfl := Except.ok.inj h
    exact ⟨rfl, le_rfl⟩
  | x :: xs, l, h => by
    rw [List.foldlM_cons] at h
    obtain ⟨l₁, h1, h⟩ := bind_eq_ok h
    obtain ⟨hcount₁, hle₁⟩ := vmaCount_loadSegment h1
    obtain ⟨hcount, hle⟩ := vmaCount_loadSegments xs l₁ h
    exact ⟨hcount.trans hcount₁, hle.trans hle₁⟩

/-- The VMAs that `elf_read` gives to a task come from the list of free VMAs. -/
theorem elfRead_vmas {m : Memory.Mem} {elf pml : Word} {junk : ℕ → Word × Word} {r r' : MmStruct}
    {p p' : Pools} (h : elfRead m elf pml junk r p = .ok (r', p')) :
    r'.vmas.length + p'.freeVmas.length = r.vmas.length + p.freeVmas.length ∧
      p'.freeVmas.length ≤ p.freeVmas.length := by
  obtain ⟨l, hl, h⟩ := bind_eq_ok h
  obtain ⟨last, hlast, h⟩ := bind_eq_ok h
  obtain ⟨hcount, hle⟩ := vmaCount_loadSegments _ _ hl
  have hlen := l.pools.length_fetchFreeVma
    ⟨heapAddr l.maxAddr, heapAddr l.maxAddr, 6, .heap, (junk (phdrs m elf).length).1,
      (junk (phdrs m elf).length).2⟩
  dsimp only at h
  generalize l.pools.fetchFreeVma _ = fetched at h hlen
  obtain ⟨rfl, rfl⟩ := Prod.mk.inj (Except.ok.inj h)
  simp only [Load.vmaCount, MmStruct.append, List.length_append] at hcount hle ⊢
  omega

namespace Kernel

variable {s t u : Kernel} {i target c : ℕ} {p : Pcb} {tar : Tar} {a : ExecArgs} {r : ExecResult}

/-- The number of VMAs that the running task and the list of free VMAs have. -/
def vmaCount (s : Kernel) : ℕ := s.current.mm.vmas.length + s.freeVmas.length

theorem current_modifyCurrent (f : Pcb → Pcb) : (s.modifyCurrent f).current = f s.current :=
  setPcb_pcb_self

/-- What `load_elf` gives to the running task comes from the list of free VMAs. -/
theorem vmaCount_loadElf {binaryName : List Bytes.Byte} {junk : ℕ → Word × Word} {rip : Word}
    (h : s.loadElf tar binaryName junk = .ok (rip, t)) :
    t.vmaCount = s.vmaCount ∧ t.freeVmas.length ≤ s.freeVmas.length := by
  obtain ⟨buff, -, h⟩ := bind_eq_ok h
  obtain ⟨found, -, h⟩ := bind_eq_ok h
  cases found with
  | none =>
    obtain ⟨-, rfl⟩ := Prod.mk.inj (Except.ok.inj h)
    exact ⟨rfl, le_rfl⟩
  | some it =>
    dsimp only at h
    split at h
    · obtain ⟨-, -, h⟩ := bind_eq_ok h
      obtain ⟨⟨r', pools⟩, hread, h⟩ := bind_eq_ok h
      obtain ⟨-, rfl⟩ := Prod.mk.inj (Except.ok.inj h)
      rw [vmaCount, current_modifyCurrent]
      exact elfRead_vmas hread
    · obtain ⟨-, rfl⟩ := Prod.mk.inj (Except.ok.inj h)
      exact ⟨rfl, le_rfl⟩

theorem cleanTaskForExec_freeVmas : (s.cleanTaskForExec i).freeVmas = s.freeVmas := by
  have hfields : ∀ mm p, ((s.setMm mm).setPcb i p).freeVmas = s.freeVmas := fun _ _ => rfl
  rw [cleanTaskForExec, hfields]

theorem current_cleanTaskForExec :
    (s.cleanTaskForExec s.runningTask).current = s.current.cleanForExec := by
  have hfields : ∀ mm p, ((s.setMm mm).setPcb s.runningTask p).current = p := fun _ _ => setPcb_pcb_self
  rw [cleanTaskForExec, hfields, current]

/-- A task without VMAs takes some when it loads a program, and no task gives any back. -/
theorem length_loadProgram {stackBase : Word} (h : s.loadProgram tar a stackBase = .ok t) :
    t.freeVmas.length ≤ s.freeVmas.length ∧
      (s.current.mm.vmas = [] → t.freeVmas.length < s.freeVmas.length) := by
  obtain ⟨s₁, hs₁⟩ : ∃ s₁, s₁ = if s.isFirstProc then { s with isFirstProc := false }
    else s.cleanTaskForExec s.runningTask := ⟨_, rfl⟩
  have hfree : s₁.freeVmas = s.freeVmas := by
    rw [hs₁]
    split
    · rfl
    · exact cleanTaskForExec_freeVmas
  have hnil : s.current.mm.vmas = [] → s₁.current.mm.vmas = [] := by
    intro hnil
    rw [hs₁]
    split
    · exact hnil
    · rw [current_cleanTaskForExec]
      rfl
  rw [loadProgram, ← hs₁] at h
  obtain ⟨⟨rip, s₂⟩, hload, h⟩ := bind_eq_ok h
  obtain ⟨last, hlast, h⟩ := bind_eq_ok h
  obtain ⟨mm, -, h⟩ := bind_eq_ok h
  have ht : t.freeVmas =
      (s₂.toPools.fetchFreeVma ⟨ustack - ustackSize, ustack, 6, .stack, 0, 0⟩).2.freeVmas := by
    rw [← Except.ok.inj h]
    rfl
  obtain ⟨hcount, hle⟩ := vmaCount_loadElf hload
  have hlen := s₂.toPools.length_fetchFreeVma ⟨ustack - ustackSize, ustack, 6, .stack, 0, 0⟩
  rw [← ht] at hlen
  rw [← hfree]
  refine ⟨by omega, fun h0 => ?_⟩
  -- `vma_head` is followed, so there is a VMA now.
  have hne : s₂.current.mm.vmas ≠ [] := fun h0 => by
    rw [lastVma, h0] at hlast
    cases hlast
  have hpos := List.length_pos_of_ne_nil hne
  simp only [vmaCount, hnil h0, List.length_nil] at hcount
  omega

/-- The first lines of `sys_execvpe` change the current directory at most. -/
theorem resetCwd_same : s.SameMemory s.resetCwd ∧ s.resetCwd.runningTask = s.runningTask := by
  rw [resetCwd]
  split
  · exact ⟨sameMemory_setPcb rfl rfl, rfl⟩
  · exact ⟨.refl s, rfl⟩

/-- `sys_execvpe` gives no VMA back. A task without VMAs takes some, or the call fails and leaves the
memory. -/
theorem length_sysExecvpe (h : s.sysExecvpe tar a = .ok r) :
    r.state.freeVmas.length ≤ s.freeVmas.length ∧
      (s.current.mm.vmas = [] → r.state.freeVmas.length < s.freeVmas.length ∨
        s.SameMemory r.state ∧ r.state.runningTask = s.runningTask) := by
  obtain ⟨hsame, hrun⟩ := resetCwd_same (s := s)
  have hfree := congrArg List.length hsame.freeVmas
  rw [sysExecvpe] at h
  generalize s.resetCwd = s₁ at h hsame hrun hfree
  obtain ⟨buff, -, h⟩ := bind_eq_ok h
  obtain ⟨res, -, h⟩ := bind_eq_ok h
  split at h
  · obtain rfl := Except.ok.inj h
    exact ⟨hfree.le, fun _ => .inr ⟨hsame, hrun⟩⟩
  · obtain ⟨⟨stackBase, mm⟩, -, h⟩ := bind_eq_ok h
    obtain ⟨-, -, h⟩ := bind_eq_ok h
    obtain ⟨s₂, hload, h⟩ := bind_eq_ok h
    obtain rfl := Except.ok.inj h
    obtain ⟨hle, hlt⟩ := length_loadProgram hload
    refine ⟨hle.trans hfree.le, fun h0 => .inl ((hlt ?_).trans_le hfree.le)⟩
    change (s₁.pcb s₁.runningTask).mm.vmas = []
    rw [hrun, hsame.pcbMm]
    exact h0

/-- The calls of `sys_execvpe` give no VMA back, and a process without VMAs takes some or has the memory
it had. -/
theorem length_execs : ∀ (calls : List ExecArgs) (s : Kernel), s.execs tar calls = .ok t →
    t.freeVmas.length ≤ s.freeVmas.length ∧
      (s.current.mm.vmas = [] → t.freeVmas.length < s.freeVmas.length ∨
        s.SameMemory t ∧ t.runningTask = s.runningTask)
  | [], s, h => by
    obtain rfl := Except.ok.inj h
    exact ⟨le_rfl, fun _ => .inr ⟨.refl s, rfl⟩⟩
  | a :: calls, s, h => by
    rw [execs, List.foldlM_cons] at h
    obtain ⟨s₁, h1, h⟩ := bind_eq_ok h
    cases hexec : s.sysExecvpe tar a with
    | error e =>
      rw [hexec] at h1
      cases h1
    | ok r =>
      rw [hexec] at h1
      obtain rfl := Except.ok.inj h1
      obtain ⟨hle₁, hnil₁⟩ := length_sysExecvpe hexec
      obtain ⟨hle, hnil⟩ := length_execs calls r.state h
      refine ⟨hle.trans hle₁, fun h0 => ?_⟩
      rcases hnil₁ h0 with hlt | ⟨hsame, hrun⟩
      · exact .inl (hle.trans_lt hlt)
      have h0' : r.state.current.mm.vmas = [] := by
        rw [current, hrun, hsame.pcbMm]
        exact h0
      rcases hnil h0' with hlt | ⟨hsame', hrun'⟩
      · exact .inl (hlt.trans_le hle₁)
      · exact .inr ⟨hsame.trans hsame', hrun'.trans hrun⟩

/-! ## The leak -/

/-- The memory after `clear_pcb` and `append_in_free_list`. -/
theorem reap_pools : (s.reap i).mm = s.mm.clearMapping (s.pcb i).pml4 ∧
    (s.reap i).freeVmas = s.freeVmas := by
  have hfields : ∀ mm p l, (((s.setMm mm).setPcb i p).setFreePcbs l).mm = mm ∧
      (((s.setMm mm).setPcb i p).setFreePcbs l).freeVmas = s.freeVmas := fun _ _ _ => ⟨rfl, rfl⟩
  rw [reap, clearPcb]
  exact hfields ..

/-- What `fork_process` takes from the pools where it returns. -/
theorem forkProcess_cases {curRsp above : Word} {k : ℤ} (hrunning : s.runningTask ∉ s.freePcbs)
    (hfork : s.forkProcess curRsp above = .ok (k, t)) : ∃ c rest r,
    s.freePcbs = c :: rest ∧ s.toPools.fork s.current.pml4 s.current.mm.vmas = .ok r ∧
      k.toNat = c ∧ t = s.forked c rest curRsp above r := by
  cases hfree : s.freePcbs with
  | nil =>
    rw [forkProcess_of_nil hfree] at hfork
    cases hfork
  | cons c rest =>
    have hne : s.runningTask ≠ c := by
      rintro rfl
      exact hrunning (hfree ▸ List.mem_cons_self ..)
    rw [forkProcess_eq hfree hne] at hfork
    cases hpools : s.toPools.fork (s.pcb s.runningTask).pml4 (s.pcb s.runningTask).mm.vmas with
    | error e =>
      rw [hpools] at hfork
      cases hfork
    | ok r =>
      rw [hpools] at hfork
      obtain ⟨hk, ht⟩ := Prod.mk.inj (Except.ok.inj hfork)
      exact ⟨c, rest, r, rfl, hpools, by rw [← hk, Int.toNat_natCast], ht.symm⟩

/-- A parent with VMAs has its child take as many, and they stay taken. -/
theorem length_life {curRsp above : Word} {calls : List ExecArgs}
    (hrunning : s.runningTask ∉ s.freePcbs) (hne : s.current.mm.vmas ≠ [])
    (hlife : s.life curRsp above tar calls = .ok t) : t.freeVmas.length < s.freeVmas.length := by
  obtain ⟨⟨k, t₁⟩, hfork, hlife⟩ := bind_eq_ok hlife
  obtain ⟨t₂, hexecs, hlife⟩ := bind_eq_ok hlife
  obtain rfl := Except.ok.inj hlife
  obtain ⟨c, rest, r, -, hpools, -, rfl⟩ := forkProcess_cases hrunning hfork
  obtain ⟨⟨procMm, mm₁⟩, -, hpools⟩ := bind_eq_ok hpools
  obtain ⟨⟨pml, mm₂⟩, -, hpools⟩ := bind_eq_ok hpools
  obtain ⟨⟨l, p'⟩, hcopy, hpools⟩ := bind_eq_ok hpools
  obtain rfl := Except.ok.inj hpools
  have hlen := Pools.length_copyVmas _ hcopy
  have hpos := List.length_pos_of_ne_nil hne
  have hle := (length_execs calls _ hexecs).1
  rw [sameMemory_scheduleTo.freeVmas] at hle
  rw [reap_pools.2, sameMemory_sysExit.freeVmas]
  change p'.freeVmas.length + s.current.mm.vmas.length = s.freeVmas.length at hlen
  change t₂.freeVmas.length ≤ p'.freeVmas.length at hle
  omega

/-- What a fork of a parent without VMAs takes: the page of the `mm_struct` and the PML4. -/
theorem fork_of_nil {p : Pools} {ppml4 : Word} {r : Word × Word × List ℕ × Pools}
    {roots : Finset ℕ} {held : ℕ → ℕ} (h : p.mm.Accounted roots held)
    (hfork : p.fork ppml4 [] = .ok r) :
    ∃ g g' e, p.mm.freePageHead = some g ∧
      (p.mm.takeHead g (convertVA g)).freePageHead = some g' ∧
      r = (convertVA g, convertVA g', [],
        { p with mm := (p.mm.takeHead g (convertVA g)).newPml g' e }) := by
  obtain ⟨⟨procMm, mm₁⟩, halloc, hfork⟩ := bind_eq_ok hfork
  obtain ⟨⟨pml, mm₂⟩, hpml, hfork⟩ := bind_eq_ok hfork
  obtain rfl := Except.ok.inj hfork
  cases hg : p.mm.freePageHead with
  | none =>
    rw [Mm.pageAlloc, hg] at halloc
    cases halloc
  | some g =>
    rw [Mm.pageAlloc, hg] at halloc
    obtain ⟨rfl, rfl⟩ := Prod.mk.inj (Except.ok.inj halloc)
    cases hg' : (p.mm.takeHead g (convertVA g)).freePageHead with
    | none =>
      rw [Mm.createNewPmlTable, Mm.pageAlloc, hg'] at hpml
      cases hpml
    | some g' =>
      have h₁ := h.alloc hg
      rw [Mm.createNewPmlTable_eq hg' (h₁.lt_two_pow (h₁.head hg').1)] at hpml
      obtain ⟨rfl, rfl⟩ := Prod.mk.inj (Except.ok.inj hpml)
      exact ⟨g, g', _, rfl, hg', rfl⟩

theorem forked_pcb_self {rest : List ℕ} {curRsp above : Word} {r : Word × Word × List ℕ × Pools} :
    (s.forked c rest curRsp above r).pcb c = s.childPcb c curRsp above r := setPcb_pcb_self

/-- A parent without VMAs loses VMAs to its child, or two frames. -/
theorem life_of_nil {curRsp above : Word} {calls : List ExecArgs} {roots : Finset ℕ} {held : ℕ → ℕ}
    (h : s.mm.Accounted roots held) (hrunning : s.runningTask ∉ s.freePcbs)
    (h0 : s.current.mm.vmas = []) (hlife : s.life curRsp above tar calls = .ok t) :
    t.freeVmas.length < s.freeVmas.length ∨
      t.mm.unused.card + 2 ≤ s.mm.unused.card ∧
        ∀ r ∈ roots, ∀ f, t.mm.IsTable (User {r}) f → s.mm.IsTable (User {r}) f := by
  obtain ⟨⟨k, t₁⟩, hfork, hlife⟩ := bind_eq_ok hlife
  obtain ⟨t₂, hexecs, hlife⟩ := bind_eq_ok hlife
  obtain rfl := Except.ok.inj hlife
  obtain ⟨c, rest, r, -, hpools, hk, rfl⟩ := forkProcess_cases hrunning hfork
  rw [h0] at hpools
  obtain ⟨g, g', e, hg, hg', rfl⟩ := fork_of_nil h hpools
  rw [hk] at hexecs ⊢
  generalize ht₁ : s.forked c rest curRsp above _ = t₁ at hexecs
  have hchild : (t₁.pcb c).mm.vmas = [] ∧ (t₁.pcb c).regs.cr3 = convertVA g' - kernBase := by
    rw [← ht₁, forked_pcb_self]
    exact ⟨rfl, rfl⟩
  have hfree : t₁.freeVmas = s.freeVmas := by rw [← ht₁]; rfl
  have hmm : t₁.mm = (s.mm.takeHead g (convertVA g)).newPml g' e := by rw [← ht₁]; rfl
  have hswitch := sameMemory_scheduleTo (s := t₁) (i := c)
  have hrun : (t₁.scheduleTo c).runningTask = c := by
    rw [scheduleTo, addToTaskList]
    split
    · split <;> rfl
    · split <;> rfl
  have hnil : (t₁.scheduleTo c).current.mm.vmas = [] := by
    rw [current, hrun, hswitch.pcbMm]
    exact hchild.1
  rcases (length_execs calls _ hexecs).2 hnil with hlt | ⟨hsame, -⟩
  · refine .inl ?_
    rw [reap_pools.2, sameMemory_sysExit.freeVmas, ← hfree, ← hswitch.freeVmas]
    exact hlt
  · refine .inr ?_
    have hexit : t₂.SameMemory (t₂.sysExit c s.runningTask) := sameMemory_sysExit
    -- The child has the PML4 that it was given, and `clear_pcb` works on it.
    have hpml4 : ((t₂.sysExit c s.runningTask).pcb c).pml4 = convertVA g' := by
      rw [Pcb.pml4, hexit.regs, hsame.regs, hswitch.regs, hchild.2]
      exact BitVec.sub_add_cancel ..
    have hpools' := (reap_pools (s := t₂.sysExit c s.runningTask) (i := c)).1
    rw [hpml4, hexit.mm, hsame.mm, hswitch.mm, hmm] at hpools'
    exact h.two_frames hg hg' hpools'.symm

/-- In no life of a process are the pools what they were before, whatever the parent has mapped and
whatever programs the child loads: there are fewer VMAs, or the frames of the PML4 and of the `mm_struct`
are lost. -/
theorem life_leaks (s t : Kernel) (roots : Finset ℕ) (held : ℕ → ℕ) (r : ℕ) (curRsp above : Word)
    (tar : Tar) (calls : List ExecArgs) (h : s.mm.Accounted roots held) (hr : r ∈ roots)
    (hrunning : s.runningTask ∉ s.freePcbs) (hlife : s.life curRsp above tar calls = .ok t) :
    ¬ s.Restored t r := by
  rintro ⟨hframes, hvmas, -⟩
  have hleak : t.freeVmas.length < s.freeVmas.length ∨ t.mm.unused.card + 2 ≤ s.mm.unused.card ∧
      ∀ r ∈ roots, ∀ f, t.mm.IsTable (User {r}) f → s.mm.IsTable (User {r}) f := by
    by_cases h0 : s.current.mm.vmas = []
    · exact life_of_nil h hrunning h0 hlife
    · exact .inl (length_life hrunning h0 hlife)
  rcases hleak with hlt | ⟨hlost, htables⟩
  · exact absurd hvmas hlt.ne
  · -- The parent has got no table that could make up for the two frames.
    have hnone : s.mm.acquired t.mm r = 0 := by
      rw [Mm.acquired, Set.ncard_eq_zero (Set.Finite.subset (Set.finite_empty) ?_)]
      · exact Set.eq_empty_of_forall_notMem fun f hf => hf.2 (htables r hr f hf.1)
      · exact fun f hf => hf.2 (htables r hr f hf.1)
    omega

/-- A memory with an empty PML4 in frame 0 and thirty free frames. -/
def spaciousMm : Mm :=
  { Mm.roomy with
    next := fun f => if f < 30 then some (f + 1) else none
    freePageEnd := some 30
    pageCount := 31 }

/-- A kernel whose running task has two VMAs, the first of them one page of its stack. It has not loaded a program. -/
def parentKernel (mm : Mm) : Kernel :=
  { smallKernel [5, 6, 7, 8] [3] with
    mm := mm
    vmaArr := fun i => if i = 0 then ⟨0x400000, 0x401000, 6, .stack, 0, 0⟩ else ⟨0, 0, 0, .anon, 0, 0⟩
    pcb := fun i => if i = 2 then
        { Pcb.blank with
          mm := { MmStruct.clean with vmas := [0, 1] }
          regs := { Pcb.blank.regs with cr3 := getPA 0 }
          cwd := [47] }
      else .blank
    isFirstProc := true }

theorem parentKernel_running (mm : Mm) : (parentKernel mm).runningTask ∉ (parentKernel mm).freePcbs :=
  (by decide : (2 : ℕ) ∉ [3])

/-- The page of the stack is mapped, and a child of the task loads a program and exits. -/
theorem exists_parentKernel_life : ∃ mm held t,
    spaciousMm.mapFresh (convertVA 0) 0x400000 (fun _ => 9) = some mm ∧ mm.Accounted {0} held ∧
      (parentKernel mm).life 0 0 (elfTar 1) [loadArgs] = .ok t := by
  have hsome : ((spaciousMm.mapFresh (convertVA 0) 0x400000 fun _ => 9).bind fun mm =>
      ((parentKernel mm).life 0 0 (elfTar 1) [loadArgs]).toOption).isSome := by decide +kernel
  obtain ⟨t, ht⟩ := Option.isSome_iff_exists.mp hsome
  obtain ⟨mm, hmm, hlife⟩ := Option.bind_eq_some_iff.mp ht
  have hchain : spaciousMm.FreeChain (List.range' 1 30) := ⟨by decide, by decide, by decide, by decide⟩
  obtain ⟨g, held, h, -⟩ := (Mm.accounted_of_zero rfl hchain (by decide)).mapFresh (Finset.mem_singleton_self 0)
    (by decide) hmm
  refine ⟨mm, held, t, hmm, h, ?_⟩
  cases hres : (parentKernel mm).life 0 0 (elfTar 1) [loadArgs] with
  | error e =>
    rw [hres] at hlife
    cases hlife
  | ok u =>
    rw [hres] at hlife
    rw [Option.some.inj hlife]

theorem life_leaks_parent : ∃ mm t, spaciousMm.mapFresh (convertVA 0) 0x400000 (fun _ => 9) = some mm ∧
    (parentKernel mm).life 0 0 (elfTar 1) [loadArgs] = .ok t ∧ ¬ (parentKernel mm).Restored t 0 := by
  obtain ⟨mm, held, t, hmm, h, hlife⟩ := exists_parentKernel_life
  exact ⟨mm, t, hmm, hlife, life_leaks (parentKernel mm) t {0} held 0 0 0 (elfTar 1) [loadArgs] h
    (Finset.mem_singleton_self 0) (parentKernel_running mm) hlife⟩

/-- There are fewer VMAs after such a life. -/
theorem child_keeps_vmas : ¬ ∀ (s t : Kernel) (roots : Finset ℕ) (held : ℕ → ℕ) (r : ℕ)
    (curRsp above : Word) (tar : Tar) (calls : List ExecArgs), s.mm.Accounted roots held → r ∈ roots →
    s.runningTask ∉ s.freePcbs → s.life curRsp above tar calls = .ok t → s.Restored t r := by
  intro hall
  obtain ⟨mm, held, t, -, h, hlife⟩ := exists_parentKernel_life
  have hvmas : (parentKernel mm).current.mm.vmas ≠ [] := List.cons_ne_nil 0 [1]
  have hlt := length_life (s := parentKernel mm) (parentKernel_running mm) hvmas hlife
  exact hlt.ne (hall (parentKernel mm) t {0} held 0 0 0 (elfTar 1) [loadArgs] h (Finset.mem_singleton_self 0)
    (parentKernel_running mm) hlife).2.1

end Kernel

end Proc

end Nascent
