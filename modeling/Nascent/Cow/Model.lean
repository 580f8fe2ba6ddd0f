import Nascent.Virmem.Account

/-!
# Address spaces that share their pages

The model of the memory part of `fork_process`, of `page_fault_handler`, and of the accesses of user
programs that lead to it. A process is its `cr3` and its list of VMAs. `CowSys.step` puts these
together with the creation of processes, the mapping of fresh frames, and `clear_mapping`.

An access goes by the entry of its page: a load needs the present bit, a store the write bit too.
The entries above it always have both, since `create_dir_table` writes them with the flags 7. The
handler's copy of file contents, a copy in kernel mode to user addresses, is followed as long as it
writes to present, writable pages of the user half. What it does elsewhere depends on nested faults
and on `CR0.WP`, which the source does not set, and the model gives no result there.
-/

namespace Nascent

open Bytes (Byte Block)

/-- `enum vmatype`. -/
inductive VmType
  | text
  | data
  | heap
  | stack
  | anon
deriving DecidableEq

/-- `struct vma`, without the links of its list. -/
structure Vma where
  /-- `start_addr`. -/
  startAddr : Word
  /-- `end_addr`. -/
  endAddr : Word
  /-- `vm_flags`. -/
  vmFlags : Word
  /-- `vmtype`. -/
  vmtype : VmType
  /-- `p_filesz`. -/
  pFilesz : Word
  /-- `tarfs_base`. -/
  tarfsBase : Word

/-- The memory of a process. -/
structure Space where
  /-- `regs.cr3`, the physical address of the PML4. -/
  cr3 : Word
  /-- The list from `task_mm->vma_head`. -/
  vmas : List Vma

/-- The kernel's address of the PML4, `regs.cr3 + KERNBASE`. -/
def Space.pml4 (sp : Space) : Word := sp.cr3 + kernBase

/-- The number of pages that the loop of `fork_process` visits for a VMA: an `int`. -/
def Vma.cnt (v : Vma) : ℕ :=
  (((scaleUp v.endAddr - scaleDown v.startAddr) / pageSize).setWidth 32).toInt.toNat

/-- The addresses of the pages that the loop visits. -/
def Vma.pages (v : Vma) : List Word :=
  (List.range v.cnt).map fun i => scaleDown v.startAddr + pageOffset i

/-- `UNSET_WRITE`. -/
def unsetWrite (entry : Word) : Word := entry &&& 0xFFFFFFFFFFFFFFFD

/-- `SET_WRITE`. -/
def setWrite (entry : Word) : Word := entry ||| 0x2

/-- `SET_COW`. -/
def setCow (entry : Word) : Word := entry ||| 0x100

/-- `UNSET_COW`. -/
def unsetCow (entry : Word) : Word := entry &&& 0xFFFFFFFFFFFFFEFF

/-- The entry has its write bit. -/
def writable (entry : Word) : Bool := entry &&& 2 != 0

/-- The offset of an address in its page. -/
def pageOff (va : Word) : ℕ := (va &&& 0xFFF).toNat

/-- `check_vma`: the first VMA around an address, its end included. -/
def checkVma (vmas : List Vma) (addr : Word) : Option Vma :=
  vmas.find? fun v => decide (v.startAddr ≤ addr) && decide (addr ≤ v.endAddr)

namespace Mm

/-! ## `fork_process` -/

/-- The memory part of `fetch_free_pcb`: a page for the `mm_struct`, and a new PML4. -/
def fetchFreePcb (s : Mm) : Option (Word × Mm) := do
  let (_, s) ← s.pageAlloc
  s.createNewPmlTable

/-- One page of `fork_process`. -/
def forkPage (ppml4 cpml4 : Word) (s : Mm) (va : Word) : Option Mm :=
  match s.getPteEntry ppml4 va with
  | none => some s
  | some pagePhyaddr => do
    let pageAddr := getPageFromPA pagePhyaddr
    let pagePhyaddr := setCow (unsetWrite pagePhyaddr)
    let s ← s.setMapping ppml4 va pagePhyaddr 0
    let s ← s.setMapping cpml4 va pagePhyaddr 0
    some (s.setRef pageAddr (s.refCount pageAddr + 1))

/-- `fork_process`: the child's memory. The child's list of VMAs is a copy of the parent's. -/
def forkProcess (s : Mm) (parent : Space) : Option (Space × Mm) := do
  let (pml, s) ← s.fetchFreePcb
  let child : Space := ⟨pml - kernBase, parent.vmas⟩
  let s ← parent.vmas.foldlM (fun s v => v.pages.foldlM (forkPage parent.pml4 child.pml4) s) s
  some (child, s)

/-! ## User memory -/

/-- The byte at a user address, where its page is present. -/
def readByte (s : Mm) (pml4 va : Word) : Option Byte :=
  (s.getPteEntry pml4 va).map fun e => s.mem (frameOf e) (pageOff va)

/-- A frame with one byte set. -/
def setByte (s : Mm) (f o : ℕ) (b : Byte) : Mm := s.setBlock f (Function.update (s.mem f) o b)

/-- A write to an address of the user half, where its page is present and writable. -/
def writeByte (s : Mm) (pml4 va : Word) (b : Byte) : Option Mm :=
  match s.getPteEntry pml4 va with
  | none => none
  | some e =>
    if writable e ∧ (vpage va).InUser then some (s.setByte (frameOf e) (pageOff va) b) else none

/-- `memcopy` of `n` bytes from the archive to user addresses. -/
def memcopyUser (tar : Word → Byte) (pml4 source destination : Word) (n : ℕ) (s : Mm) : Option Mm :=
  (List.range n).foldlM (fun s i =>
    s.writeByte pml4 (destination + BitVec.ofNat 64 i) (tar (source + BitVec.ofNat 64 i))) s

/-- A frame from `kmalloc` with the contents `data`, mapped with the flags 7. -/
def mapFresh (s : Mm) (pml4 va : Word) (data : Block) : Option Mm := do
  let (physAddr, s) ← s.kmalloc
  (s.setBlock (frameOf physAddr) data).setMapping pml4 va physAddr 7

/-! ## `page_fault_handler` -/

/-- The branch for a write to a present page, error code 7. -/
def cowFault (s : Mm) (pmlAddr faultingAddr : Word) : Option Mm :=
  match s.getPteEntry pmlAddr faultingAddr with
  | none => some s
  | some pagePhyaddr =>
    let pageAddr := getPageFromPA pagePhyaddr
    if s.refCount pageAddr = 1 then
      s.setMapping pmlAddr faultingAddr (setWrite (unsetCow pagePhyaddr)) 1
    else if s.refCount pageAddr > 1 then do
      let (buffPage, s) ← s.pageAlloc
      let s := s.setBlock (kframe buffPage) (s.mem (frameOf pagePhyaddr))
      let s ← s.setMapping pmlAddr faultingAddr (buffPage - kernBase) 7
      some (s.setRef pageAddr (s.refCount pageAddr - 1))
    else some s

/-- The branches of a file's pages: the part of the file that lies on the page is copied to it. -/
def fileFault (tar : Word → Byte) (s : Mm) (pmlAddr faultingAddr : Word) (vma : Vma) :
    Option Mm := do
  let vmaStart := vma.startAddr
  let bssAddr := vmaStart + vma.pFilesz
  let sda := scaleDown faultingAddr
  let offset := sda - vmaStart
  let s ← s.mapFresh pmlAddr sda Bytes.zero
  if sda < vmaStart ∧ sda + 4096 > bssAddr then
    s.memcopyUser tar pmlAddr vma.tarfsBase vmaStart vma.pFilesz.toNat
  else if sda ≤ vmaStart then
    let n := if vma.pFilesz < 4096 - vmaStart then vma.pFilesz else 4096 - vmaStart
    s.memcopyUser tar pmlAddr vma.tarfsBase vmaStart n.toNat
  else if sda + 4096 > bssAddr then
    s.memcopyUser tar pmlAddr (vma.tarfsBase + offset) sda (bssAddr - sda).toNat
  else
    s.memcopyUser tar pmlAddr (vma.tarfsBase + offset) sda 4096

/-- `page_fault_handler`. A fault outside the VMAs ends the process, which is not modelled here. -/
def pageFaultHandler (tar : Word → Byte) (s : Mm) (sp : Space) (errorCode faultingAddr : Word) :
    Option Mm :=
  match checkVma sp.vmas faultingAddr with
  | none => none
  | some vma =>
    if errorCode = 7 then s.cowFault sp.pml4 faultingAddr
    else if vma.vmtype = .text ∨ vma.vmtype = .data then
      if faultingAddr < vma.startAddr + vma.pFilesz then s.fileFault tar sp.pml4 faultingAddr vma
      else s.mapFresh sp.pml4 (scaleDown faultingAddr) Bytes.zero
    else if vma.vmtype = .stack then s.mapFresh sp.pml4 (scaleDown faultingAddr) Bytes.zero
    else some s

/-- A user's load: the access, and once more after a fault. -/
def load (tar : Word → Byte) (s : Mm) (sp : Space) (va : Word) : Option (Byte × Mm) :=
  match s.readByte sp.pml4 va with
  | some b => some (b, s)
  | none => do
    let s ← s.pageFaultHandler tar sp 4 va
    let b ← s.readByte sp.pml4 va
    some (b, s)

/-- A user's store: the access, and once more after a fault. The error code tells whether the page
was present. -/
def store (tar : Word → Byte) (s : Mm) (sp : Space) (va : Word) (b : Byte) : Option Mm :=
  match s.writeByte sp.pml4 va b with
  | some s => some s
  | none => do
    let errorCode := if (s.getPteEntry sp.pml4 va).isSome then 7 else 6
    let s ← s.pageFaultHandler tar sp errorCode va
    s.writeByte sp.pml4 va b

end Mm

/-! ## The system -/

/-- The pages of a list of VMAs. -/
def vmaPages (vmas : List Vma) : List VPage := (vmas.flatMap Vma.pages).map vpage

/-- The number of pages that a VMA lies on. -/
def Vma.span (v : Vma) : ℕ := (v.endAddr.toNat + 4095) / 4096 - v.startAddr.toNat / 4096

/-- The VMAs cover pairwise distinct pages of the user half. A VMA has at most `2^19` pages, since
`elf_read` maps a frame at each of them. -/
def Distinct (vmas : List Vma) : Prop :=
  (∀ v ∈ vmas, v.startAddr ≤ v.endAddr ∧ v.span ≤ 2^19) ∧
  (∀ w ∈ vmaPages vmas, w.InUser) ∧ (vmaPages vmas).Nodup

instance (vmas : List Vma) : Decidable (Distinct vmas) :=
  -- The search would find the instance for finite types, which goes through all pages.
  have : Decidable (∀ w ∈ vmaPages vmas, w.InUser) := List.decidableBAll _ _
  inferInstanceAs (Decidable (_ ∧ _ ∧ _))

/-- The address lies in one of the VMAs. -/
def Covers (vmas : List Vma) (va : Word) : Prop := ∃ v ∈ vmas, v.startAddr ≤ va ∧ va < v.endAddr

instance (vmas : List Vma) (va : Word) : Decidable (Covers vmas va) :=
  inferInstanceAs (Decidable (∃ v ∈ vmas, _))

/-- The actions. A process is named by its position in the list of processes. -/
inductive CowOp
  /-- A new process with an empty memory. -/
  | spawn
  /-- A new VMA at the end of the list, as `elf_read` and `sys_execvpe` add them. -/
  | addVma (p : ℕ) (v : Vma)
  /-- `vma_head = NULL`. -/
  | dropVmas (p : ℕ)
  /-- A fresh frame at a page that is not mapped. -/
  | mapFresh (p : ℕ) (va : Word) (data : Block)
  /-- `fork_process`. -/
  | fork (p : ℕ)
  /-- `page_fault_handler` with error code 7 for a present page. -/
  | fault (p : ℕ) (va : Word)
  /-- A load in user mode. -/
  | load (p : ℕ) (va : Word)
  /-- A store in user mode. -/
  | store (p : ℕ) (va : Word) (b : Byte)
  /-- `clear_mapping`. -/
  | clear (p : ℕ)

/-- The memory and the processes. -/
structure CowSys where
  /-- The memory. -/
  mm : Mm
  /-- The processes, in the order of their creation. -/
  procs : List Space

namespace CowSys

/-- An operation on the memory of a process. -/
def onSpace (s : CowSys) (p : ℕ) (k : Space → Option Mm) : Option CowSys :=
  s.procs[p]?.bind fun sp => (k sp).map fun mm => ⟨mm, s.procs⟩

/-- One action. -/
def step (tar : Word → Byte) (s : CowSys) : CowOp → Option CowSys
  | .spawn => s.mm.fetchFreePcb.map fun r => ⟨r.2, s.procs ++ [⟨r.1 - kernBase, []⟩]⟩
  | .addVma p v => s.procs[p]?.bind fun sp =>
    if Distinct (sp.vmas ++ [v]) then
      some ⟨s.mm, s.procs.set p { sp with vmas := sp.vmas ++ [v] }⟩
    else none
  | .dropVmas p => s.procs[p]?.map fun sp => ⟨s.mm, s.procs.set p { sp with vmas := [] }⟩
  | .mapFresh p va data => s.onSpace p fun sp =>
    if (s.mm.getPteEntry sp.pml4 va).isNone ∧ (vpage va).InUser then
      s.mm.mapFresh sp.pml4 va data
    else none
  | .fork p => s.procs[p]?.bind fun sp =>
    (s.mm.forkProcess sp).map fun r => ⟨r.2, s.procs ++ [r.1]⟩
  | .fault p va => s.onSpace p fun sp =>
    if (vpage va).InUser ∧ (s.mm.getPteEntry sp.pml4 va).isSome then
      s.mm.pageFaultHandler tar sp 7 va
    else none
  | .load p va => s.onSpace p fun sp =>
    if Covers sp.vmas va then (s.mm.load tar sp va).map Prod.snd else none
  | .store p va b => s.onSpace p fun sp =>
    if Covers sp.vmas va then s.mm.store tar sp va b else none
  | .clear p => s.onSpace p fun sp => some (s.mm.clearMapping sp.pml4)

end CowSys

end Nascent
