import Nascent.Exec.Args

/-!
# Loading a program

`sys_execvpe` of `src/sys/process.c`, with `validate_binary`, `load_elf`, and `load_elf1` of
`src/sys/tarfs.c` and `elf_read` of `src/sys/elf.c`. The path is looked up twice: `validate_binary` looks
at the first bytes of the file, and after the old program is torn down `load_elf1` finds the file once
more and `elf_read` loads it.

The prototype of `fetch_free_vma` has no parameters, and `elf_read` calls it with four arguments, so the
last two parameters have what was in their registers (`junk`). The copies of `elf_read` to user
addresses are followed where they go to pages that are mapped. Where a path, a name, or an argument leaves the
array that it is copied to, the call is not followed.
-/

namespace Nascent.Proc

open Bytes (Byte Block)
open Memory (Mem)
open Strings (strOf)
open Tarfs (CInt Tar lookup strCompare strCompare1 pathSanitize)

/-- A copy to user addresses. -/
def mapped {α : Type} : Option α → Except Fault α
  | none => .error .notMapped
  | some a => .ok a

/-- A path in its buffer. -/
def bounded {α : Type} : Option α → Except Fault α
  | none => .error .outOfBounds
  | some a => .ok a

/-- A walk through the archive. -/
def ended {α : Type} : Option α → Except Fault α
  | none => .error .endless
  | some a => .ok a

/-! ## Headers -/

/-- `is_elf_format`. -/
def isElfFormat (m : Mem) (elf : Word) : Bool :=
  m elf == 127 && m (elf + 1) == 69 && m (elf + 2) == 76 && m (elf + 3) == 70

/-- `e_entry`. -/
def entry (m : Mem) (elf : Word) : Word := Memory.read m (elf + 24)

/-- `Elf64_Phdr`, the fields that `elf_read` uses. -/
structure Phdr where
  /-- `p_type`. -/
  type : CInt
  /-- `p_flags`. -/
  flags : CInt
  /-- `p_offset`. -/
  offset : Word
  /-- `p_vaddr`. -/
  vaddr : Word
  /-- `p_filesz`. -/
  filesz : Word
  /-- `p_memsz`. -/
  memsz : Word

/-- The program header at an address. -/
def phdrAt (m : Mem) (a : Word) : Phdr where
  type := (Memory.read m a).setWidth 32
  flags := (Memory.read m (a + 4)).setWidth 32
  offset := Memory.read m (a + 8)
  vaddr := Memory.read m (a + 16)
  filesz := Memory.read m (a + 32)
  memsz := Memory.read m (a + 40)

/-- The program headers of a file, `e_phnum` of them from `e_phoff` on, each of 56 bytes. -/
def phdrs (m : Mem) (elf : Word) : List Phdr :=
  (List.range ((Memory.read m (elf + 56)).setWidth 16).toNat).map fun i =>
    phdrAt m (elf + Memory.read m (elf + 32) + BitVec.ofNat 64 (56 * i))

/-- The segment is to be loaded, `PT_LOAD`. -/
def Phdr.isLoad (ph : Phdr) : Bool := ph.type == 1

/-- The end of a segment in memory. -/
def Phdr.endAddr (ph : Phdr) : Word := ph.vaddr + ph.memsz

/-- The type of the VMA of a segment. The value `NONE` is that of `TEXT`. -/
def Phdr.vmType (ph : Phdr) : VmType :=
  if ph.flags = 5 then .text else if ph.flags = 6 then .data else .text

/-- The number of bytes behind the contents of the file that are cleared: an `int`. -/
def Phdr.bssSize (ph : Phdr) : ℕ := ((ph.memsz - ph.filesz).setWidth 32).toInt.toNat

/-! ## `elf_read` -/

/-- The loop of `elf_read` that maps a frame at each page of a segment. Each repetition takes a frame, so
there are at most as many as there are frames. -/
def mapSegment (pml stop : Word) : ℕ → Word → Mm → Option Mm
  | 0, _, _ => none
  | fuel + 1, pres, s =>
    if pres < stop then do
      let (physAddr, s) ← s.kmalloc
      let s ← s.setMapping pml (scaleDown pres) physAddr 7
      mapSegment pml stop fuel (pres + 4096) s
    else some s

/-- The two copies of `elf_read` for a segment: the contents of the file, and zeros. -/
def fillSegment (m : Mem) (elf pml : Word) (ph : Phdr) (s : Mm) : Option Mm := do
  let s ← s.memcopyUser m pml (elf + ph.offset) ph.vaddr ph.filesz.toNat
  s.memcopyUser (fun _ => 0) pml 0 (ph.vaddr + ph.filesz) ph.bssSize

/-- A VMA at the end of the list of a task. The null pointer leaves the list as it is. -/
def MmStruct.append (r : MmStruct) (vma : Option ℕ) : MmStruct :=
  { r with vmas := r.vmas ++ vma.toList, count := r.count + 1 }

/-- What `elf_read` has done so far: the `mm_struct`, the pools, and `max_addr`. -/
structure Load where
  /-- The `mm_struct`. -/
  mm : MmStruct
  /-- The pools. -/
  pools : Pools
  /-- `max_addr`. -/
  maxAddr : Word

/-- One program header of `elf_read`. -/
def loadSegment (m : Mem) (elf pml : Word) (l : Load) (x : Phdr × Word × Word) : Except Fault Load :=
  let (ph, junk) := x
  if ph.isLoad then do
    let (prgVma, pools) := l.pools.fetchFreeVma
      ⟨ph.vaddr, ph.endAddr, ph.type.setWidth 64, ph.vmType, junk.1, junk.2⟩
    let mm ← paged (mapSegment pml ph.endAddr (pools.mm.pageCount + 1) ph.vaddr pools.mm)
    let mm ← mapped (fillSegment m elf pml ph mm)
    pure ⟨l.mm.append prgVma, { pools with mm := mm },
      if l.maxAddr < ph.endAddr then ph.endAddr else l.maxAddr⟩
  else pure l

/-- The first step of both walks to the end of the list of VMAs: `vma_head` is followed. -/
def lastVma (r : MmStruct) : Except Fault ℕ := deref r.vmas.getLast?

/-- The address of the VMA of the heap. -/
def heapAddr (maxAddr : Word) : Word := (((maxAddr - 1) >>> 12) + 10) <<< 12

/-- `elf_read` of a file of the right format: the program headers, and the VMA of the heap. -/
def elfRead (m : Mem) (elf pml : Word) (junk : ℕ → Word × Word) (r : MmStruct) (p : Pools) :
    Except Fault (MmStruct × Pools) := do
  let l ← ((phdrs m elf).zip ((List.range (phdrs m elf).length).map junk)).foldlM
    (loadSegment m elf pml) ⟨r, p, 0⟩
  let _ ← lastVma l.mm
  let heap := heapAddr l.maxAddr
  let (vma, p) := l.pools.fetchFreeVma
    ⟨heap, heap, 6, .heap, (junk (phdrs m elf).length).1, (junk (phdrs m elf).length).2⟩
  pure (l.mm.append vma, p)

/-! ## `sys_execvpe` -/

/-- `USTACK`. -/
def ustack : Word := 0xfffffe0000000000

/-- `USTACK_SIZE`. -/
def ustackSize : Word := 0x10000

/-- `validate_binary`, or nothing where the walk through the archive does not end. -/
def validateBinary (tar : Tar) (fName : List Byte) : Option CInt :=
  (lookup (strCompare1 · (strOf fName)) tar.mem tar.stop tar.fuel tar.start).map fun
    | some it => if isElfFormat tar.mem (it + 512) then 1 else -1
    | none => -1

/-- The size of the field `filename` of a PCB. -/
def filenameSize : ℕ := 75

/-- The size of the variable `filename` of `process.c`. -/
def pathnameSize : ℕ := 300

/-- What `sys_execvpe` is called with, and what its parts find. -/
structure ExecArgs where
  /-- The path. -/
  fileName : List Byte
  /-- The arguments, or the null pointer. -/
  argv : Option (List (List Byte))
  /-- The environment, or the null pointer. -/
  envp : Option (List (List Byte))
  /-- What the registers of the missing arguments have. -/
  junk : ℕ → Word × Word

namespace ExecArgs

variable (a : ExecArgs)

/-- The arguments and the environment, in a page that `page_alloc` has cleared. -/
def build (stackBase : Word) : Build := buildStack (fun _ => 0) stackBase a.argv a.envp

/-- What `copy_arg_to_stack` leaves in the page of the stack. -/
def stack (stackBase : Word) : Block := fun i => (a.build stackBase).mem (stackBase + BitVec.ofNat 64 i)

/-- The path, the arguments, and the environment fit in their arrays, and in the page. -/
def Fits : Prop := a.fileName.length < pathnameSize ∧ Passable (a.argv.getD []) (a.envp.getD [])

instance : Decidable a.Fits := inferInstanceAs (Decidable (_ ∧ _))

end ExecArgs

/-- The ways in which `sys_execvpe` ends. -/
inductive ExecResult
  /-- It returns to its caller. -/
  | returned (code : CInt) (s : Kernel)
  /-- It enters the new program. -/
  | entered (s : Kernel)

namespace Kernel

variable (s : Kernel)

/-- The PCB of the running task. -/
def current : Pcb := s.pcb s.runningTask

/-- A change of the PCB of the running task. -/
def modifyCurrent (f : Pcb → Pcb) : Kernel := s.setPcb s.runningTask (f s.current)

/-- The first lines of `sys_execvpe`: the kernel's tasks and the first shell start at the root. -/
def resetCwd : Kernel :=
  if s.current.pid < 3 then s.modifyCurrent fun p => { p with cwd := [47] } else s

/-- `load_elf` and `load_elf1`: the entry point, or -1. -/
def loadElf (tar : Tar) (binaryName : List Byte) (junk : ℕ → Word × Word) :
    Except Fault (Word × Kernel) := do
  let buff ← bounded (pathSanitize s.current.cwd binaryName)
  let found ← ended (lookup (strCompare · (strOf buff.tail)) tar.mem tar.stop tar.fuel tar.start)
  match found with
  | none => pure (-1, s)
  | some it =>
    if isElfFormat tar.mem (it + 512) then do
      let _ ← bounded (guard (buff.tail.length < filenameSize))
      let (r, pools) ← elfRead tar.mem (it + 512) s.current.pml4 junk s.current.mm s.toPools
      pure (entry tar.mem (it + 512),
        (s.setPools pools).modifyCurrent fun p => { p with filename := buff.tail, mm := r })
    else pure (-1, s)

/-- The part of `sys_execvpe` behind the check, with the frame of the stack. -/
def loadProgram (tar : Tar) (a : ExecArgs) (stackBase : Word) : Except Fault Kernel := do
  let s := if s.isFirstProc then { s with isFirstProc := false } else s.cleanTaskForExec s.runningTask
  let (rip, s) ← s.loadElf tar a.fileName a.junk
  let _ ← lastVma s.current.mm
  let (vma, pools) := s.toPools.fetchFreeVma ⟨ustack - ustackSize, ustack, 6, .stack, 0, 0⟩
  let mm ← paged (pools.mm.setMapping s.current.pml4 (ustack - pageSize) (stackBase - kernBase) 7)
  pure (((s.setPools pools).setMm mm).modifyCurrent fun p => { p with
    mm := p.mm.append vma
    regs := { p.regs with
      rip := rip
      rsp := ustack - (pageSize - ((a.build stackBase).userStack - stackBase))
      krsp := kstackAddr s.pcbArr s.runningTask 509 } })

/-- `sys_execvpe`. -/
def sysExecvpe (tar : Tar) (a : ExecArgs) : Except Fault ExecResult := do
  let s := s.resetCwd
  let buff ← bounded (pathSanitize s.current.cwd a.fileName)
  let res ← ended (validateBinary tar buff.tail)
  if res = -1 then pure (.returned res s)
  else do
    let (stackBase, mm) ← paged s.mm.pageAlloc
    let _ ← bounded (guard a.Fits)
    let s := s.setMm (mm.setBlock (Mm.kframe stackBase) (a.stack stackBase))
    let s ← s.loadProgram tar a stackBase
    pure (.entered s)

end Kernel

/-! ## A small file -/

/-- An archive with one file, which has the name `a`, the magic number, and `phnum` program headers. The first
one is that of a segment of one byte at 0x400000. -/
def elfMem (phnum : Byte) : Mem := fun x =>
  match x.toNat with
  | 0 => 97
  | 512 => 127
  | 513 => 69
  | 514 => 76
  | 515 => 70
  | 538 => 64
  | 544 => 64
  | 568 => phnum
  | 576 => 1
  | 580 => 6
  | 594 => 64
  | 608 => 1
  | 616 => 1
  | _ => 0

/-- The archive. -/
def elfTar (phnum : Byte) : Tar := ⟨elfMem phnum, 0, 1024, 1⟩

/-- A call for the file. -/
def loadArgs : ExecArgs := ⟨[97], some [[97]], none, fun _ => (0, 0)⟩

end Nascent.Proc
