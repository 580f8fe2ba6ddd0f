import Nascent.Cow.Model
import Nascent.Sched.Model
import Nascent.Tarfs.Files

/-!
# Process control blocks

What `fetch_free_pcb`, `fork_process`, `clean_task_for_exec`, and `clear_pcb` do to the PCBs and to the
three pools of the kernel: the frames, the VMAs of `vma_arr`, and the PCBs of `pcb_arr`
(`src/sys/process.c`, `src/sys/proc_mngr.c`). The lists that are threaded through the pools are lists
here, and what the lists do to the field `next` is the subject of the scheduler's model. A string in a
PCB is the list of its bytes before the zero byte.

The functions do not check what they get. Where a null pointer is followed, or where `page_alloc`
prints its message and goes on without a page, the result is a `Fault`.
-/

namespace Nascent.Proc

open Bytes (Byte)
open Tarfs (CInt maxFds)

/-- What the kernel does not go on from. -/
inductive Fault
  /-- A null pointer is followed. -/
  | nullPointer
  /-- The list of free frames is empty. -/
  | outOfPages
  /-- A path does not fit its buffer. -/
  | outOfBounds
  /-- A user address is written that is not mapped. -/
  | notMapped
  /-- A walk through the archive does not end. -/
  | endless
deriving DecidableEq

/-- A pointer is followed. -/
def deref {α : Type} : Option α → Except Fault α
  | none => .error .nullPointer
  | some a => .ok a

/-- A function that takes frames. -/
def paged {α : Type} : Option α → Except Fault α
  | none => .error .outOfPages
  | some a => .ok a

/-! ## The records -/

/-- `Registers`: the registers that a PCB saves. -/
structure Registers where
  (rax rbx rcx rdx rsi rdi rsp rbp rip flags cr3 r12 r13 r14 r15 krsp : Word)

/-- `FD_TYPE`. -/
inductive FdType
  | stdFd
  | other
  /-- The value 0, which a descriptor has that was cleared. -/
  | unset
deriving DecidableEq

/-- `struct fd`. -/
structure Fd extends Tarfs.Fd where
  /-- `is_dir`. -/
  isDir : CInt
  /-- `fdtype`. -/
  fdtype : FdType

/-- `struct mm_struct`. -/
structure MmStruct where
  /-- The list from `vma_head`, by the positions in `vma_arr`. -/
  vmas : List ℕ
  /-- `count`. -/
  count : CInt
  /-- `begin_stack`. -/
  beginStack : Word
  /-- `argv_start`. -/
  argvStart : Word
  /-- `argv_end`. -/
  argvEnd : Word

/-- `struct Task`, without its links. -/
structure Pcb where
  /-- `regs`. -/
  regs : Registers
  /-- `filename`. -/
  filename : List Byte
  /-- `task_mm`. -/
  taskMm : Word
  /-- What `task_mm` points to. -/
  mm : MmStruct
  /-- `kstack`. -/
  kstack : ℕ → Word
  /-- `fd_array`. -/
  fdArray : ℕ → Fd
  /-- `pid`. -/
  pid : ℤ
  /-- `ppid`. -/
  ppid : ℤ
  /-- `parent_task`. -/
  parentTask : Option ℕ
  /-- `sleep_sec`. -/
  sleepSec : CInt
  /-- `task_state`. -/
  taskState : TaskState
  /-- `cwd`. -/
  cwd : List Byte

/-- `KSTACK_SIZE`. -/
def kstackSize : ℕ := 512

/-- `memcpy_uint`, which counts words. -/
def memcpyUint (source destination : ℕ → Word) (size : ℕ) : ℕ → Word :=
  fun i => if i < size then source i else destination i

/-- `memset(p, 0, length)` of an array of words, which counts bytes. -/
def memsetWords (p : ℕ → Word) (length : ℕ) : ℕ → Word := fun i => if i < length / 8 then 0 else p i

/-- The descriptors that `fetch_free_pcb` and `clean_task_for_exec` set up. -/
def initFds : ℕ → Fd := fun i =>
  if i < 3 then ⟨⟨1, 0, 0, 0, 0⟩, 0, .stdFd⟩ else ⟨⟨0, 0, 0, 0, 0⟩, 0, .other⟩

/-- The descriptors that `memset` has cleared. -/
def zeroFds : ℕ → Fd := fun _ => ⟨⟨0, 0, 0, 0, 0⟩, 0, .unset⟩

/-- The assignments to `task_mm` in `clean_task_for_exec` and `clear_pcb`. -/
def MmStruct.clean : MmStruct := ⟨[], 0, 0, 0, 0⟩

/-- The address of a word of the kernel stack of a PCB: a PCB has 4832 bytes, and the stack starts
behind the 216 bytes of its registers, its name, and `task_mm`. -/
def kstackAddr (pcbArr : Word) (i k : ℕ) : Word :=
  pcbArr + BitVec.ofNat 64 (4832 * i + 216 + 8 * k)

namespace Pcb

/-- The kernel's address of the PML4. -/
def pml4 (p : Pcb) : Word := p.regs.cr3 + kernBase

/-- A PCB that was never used: all its bytes are 0. -/
def blank : Pcb where
  regs := ⟨0, 0, 0, 0, 0, 0, 0, 0, 0, 0, 0, 0, 0, 0, 0, 0⟩
  filename := []
  taskMm := 0
  mm := .clean
  kstack := fun _ => 0
  fdArray := zeroFds
  pid := 0
  ppid := 0
  parentTask := none
  sleepSec := 0
  taskState := .running
  cwd := []

/-- The assignments of `fetch_free_pcb`, with the page for the `mm_struct`, which is cleared, and the
PML4. -/
def fetch (p : Pcb) (pcbArr : Word) (i : ℕ) (procMm pml : Word) : Pcb :=
  { p with
    taskMm := procMm
    mm := .clean
    regs := { p.regs with cr3 := pml - kernBase, krsp := kstackAddr pcbArr i 509 }
    parentTask := none
    pid := i
    ppid := -1
    taskState := .ready
    cwd := [32]
    fdArray := fun k => if k < maxFds then initFds k else p.fdArray k }

/-- What `fork_process` copies from the parent before the VMAs. -/
def inherit (p : Pcb) (parent : ℕ) (q : Pcb) : Pcb :=
  { p with
    filename := q.filename
    parentTask := some parent
    ppid := q.pid
    cwd := q.cwd
    fdArray := fun k => if k < maxFds then q.fdArray k else p.fdArray k
    mm := { q.mm with vmas := [] } }

/-- What `fork_process` writes to the child after the VMAs: the kernel stack with its mark, and the two
registers. -/
def settle (p : Pcb) (q : Pcb) (vmas : List ℕ) (rip krsp : Word) : Pcb :=
  { p with
    mm := { p.mm with vmas := vmas }
    kstack := Function.update (memcpyUint q.kstack p.kstack kstackSize) 511 10101
    regs := { p.regs with rip := rip, krsp := krsp } }

/-- The assignments of `clear_pcb`. Its `memset` of the kernel stack gives the number of words as a
number of bytes. -/
def clear (p : Pcb) : Pcb :=
  { p with
    parentTask := none
    sleepSec := 0
    taskState := .ready
    ppid := -1
    filename := []
    mm := .clean
    fdArray := zeroFds
    kstack := memsetWords p.kstack kstackSize }

/-- The assignments of `clean_task_for_exec`. -/
def cleanForExec (p : Pcb) : Pcb :=
  { p with
    sleepSec := 0
    filename := []
    mm := .clean
    fdArray := fun k => if k < maxFds then initFds k else p.fdArray k
    kstack := memsetWords p.kstack kstackSize }

end Pcb

/-! ## The pools -/

/-- The frames and the VMAs. -/
structure Pools where
  /-- The memory. -/
  mm : Mm
  /-- `vma_arr`. -/
  vmaArr : ℕ → Vma
  /-- The list from `free_vma_head`. -/
  freeVmas : List ℕ

namespace Pools

/-- `get_free_vma`: a VMA of the list, or the null pointer. -/
def getFreeVma (p : Pools) : Option ℕ × Pools :=
  match p.freeVmas with
  | [] => (none, p)
  | v :: vs => (some v, { p with
      freeVmas := vs, vmaArr := Function.update p.vmaArr v ⟨0, 0, 0, .anon, 0, 0⟩ })

/-- `fetch_free_vma`. -/
def fetchFreeVma (p : Pools) (vma : Vma) : Option ℕ × Pools :=
  match p.freeVmas with
  | [] => (none, p)
  | v :: vs => (some v, { p with freeVmas := vs, vmaArr := Function.update p.vmaArr v vma })

/-- One VMA of `fork_process`: a copy of the parent's VMA at the end of the child's list, and the
pages. -/
def copyVma (ppml4 cpml4 : Word) (r : List ℕ × Pools) (parentVma : ℕ) :
    Except Fault (List ℕ × Pools) := do
  let (vma, p) := r.2.getFreeVma
  let vma ← deref vma
  let p := { p with vmaArr := Function.update p.vmaArr vma (p.vmaArr parentVma) }
  let mm ← paged ((p.vmaArr parentVma).pages.foldlM (Mm.forkPage ppml4 cpml4) p.mm)
  pure (r.1 ++ [vma], { p with mm := mm })

/-- The loop of `fork_process` over the VMAs of the parent. -/
def copyVmas (p : Pools) (ppml4 cpml4 : Word) (vmas : List ℕ) : Except Fault (List ℕ × Pools) :=
  vmas.foldlM (copyVma ppml4 cpml4) ([], p)

end Pools

/-- The kernel. -/
structure Kernel extends Pools where
  /-- `&pcb_arr[0]`. -/
  pcbArr : Word
  /-- `pcb_arr`. -/
  pcb : ℕ → Pcb
  /-- The list from `free_pcb_head`. -/
  freePcbs : List ℕ
  /-- The list from `overall_task_list`. -/
  taskList : List ℕ
  /-- `RunningTask`. -/
  runningTask : ℕ
  /-- `is_first_proc`. -/
  isFirstProc : Bool

namespace Kernel

variable (s : Kernel)

/-- The kernel with a PCB changed. -/
def setPcb (i : ℕ) (p : Pcb) : Kernel := { s with pcb := Function.update s.pcb i p }

/-- The kernel with other pools. -/
def setPools (p : Pools) : Kernel := { s with toPools := p }

/-- The kernel with another memory. -/
def setMm (mm : Mm) : Kernel := { s with mm := mm }

/-- The kernel with another list of free PCBs. -/
def setFreePcbs (l : List ℕ) : Kernel := { s with freePcbs := l }

section Fields

variable {s} {i j : ℕ} {p q : Pcb} {r : Pools} {mm : Mm} {l : List ℕ}

@[simp] theorem setPcb_pcb_self : (s.setPcb i p).pcb i = p := Function.update_self ..

theorem setPcb_pcb_of_ne (hne : j ≠ i) : (s.setPcb i p).pcb j = s.pcb j := Function.update_of_ne hne ..

@[simp] theorem setPcb_toPools : (s.setPcb i p).toPools = s.toPools := rfl

@[simp] theorem setPcb_pcbArr : (s.setPcb i p).pcbArr = s.pcbArr := rfl

@[simp] theorem setPools_pcb : (s.setPools r).pcb = s.pcb := rfl

@[simp] theorem setPools_pcbArr : (s.setPools r).pcbArr = s.pcbArr := rfl

@[simp] theorem setMm_pcb : (s.setMm mm).pcb = s.pcb := rfl

@[simp] theorem setFreePcbs_pcb : (s.setFreePcbs l).pcb = s.pcb := rfl

@[simp] theorem setPcb_setPcb : (s.setPcb i p).setPcb i q = s.setPcb i q := by
  rw [setPcb, setPcb, setPcb, Function.update_idem]

@[simp] theorem setPcb_setPools : (s.setPcb i p).setPools r = (s.setPools r).setPcb i p := rfl

end Fields

/-- `fetch_free_pcb`: a PCB of the list, or the null pointer. -/
def fetchFreePcb : Except Fault (Option ℕ × Kernel) :=
  match s.freePcbs with
  | [] => .ok (none, s)
  | i :: rest => do
    let (procMm, mm) ← paged s.mm.pageAlloc
    let (pml, mm) ← paged mm.createNewPmlTable
    pure (some i,
      ((s.setMm mm).setFreePcbs rest).setPcb i ((s.pcb i).fetch s.pcbArr i procMm pml))

/-- `add_to_task_list`. -/
def addToTaskList (i : ℕ) : Kernel :=
  let p := s.pcb i
  let s := if p.taskState = .running then s.setPcb i { p with taskState := .ready } else s
  if p.taskState = .zombie then s else { s with taskList := s.taskList ++ [i] }

/-- `fork_process` after its call of `fetch_free_pcb`. -/
def forkInto (parent child : ℕ) (curRsp above : Word) : Except Fault (ℤ × Kernel) := do
  let s := s.setPcb child ((s.pcb child).inherit parent (s.pcb parent))
  let (vmas, pools) ← s.toPools.copyVmas (s.pcb parent).pml4 (s.pcb child).pml4 (s.pcb parent).mm.vmas
  let s := s.setPools pools
  let krsp := kstackAddr s.pcbArr child 509 - (kstackAddr s.pcbArr parent 509 - curRsp)
  let s := s.setPcb child ((s.pcb child).settle (s.pcb parent) vmas above krsp)
  pure ((s.pcb child).pid, s.addToTaskList child)

/-- `fork_process`, with the stack pointer that it reads and the word that it finds 17 words above. -/
def forkProcess (curRsp above : Word) : Except Fault (ℤ × Kernel) := do
  let (child, s') ← s.fetchFreePcb
  let child ← deref child
  s'.forkInto s.runningTask child curRsp above

/-- `clear_pcb`. -/
def clearPcb (i : ℕ) : Kernel :=
  (s.setMm (s.mm.clearMapping (s.pcb i).pml4)).setPcb i (s.pcb i).clear

/-- `clean_task_for_exec`. -/
def cleanTaskForExec (i : ℕ) : Kernel :=
  (s.setMm (s.mm.clearMapping (s.pcb i).pml4)).setPcb i (s.pcb i).cleanForExec

/-- What `wait_for_child` does with the zombie it finds: `clear_pcb` and `append_in_free_list`. -/
def reap (i : ℕ) : Kernel :=
  let s := s.clearPcb i
  s.setFreePcbs (s.freePcbs ++ [i])

end Kernel

end Nascent.Proc
