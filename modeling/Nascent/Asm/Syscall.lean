import Mathlib.Data.List.GetD
import Nascent.Asm.Stubs

/-!
# System calls

`sys_int` of `syscall.s`, the switch of `syscall_handler`, and the stubs of `src/libc/syscalls.c`, which load
the number of a call and its arguments into registers and execute `int $0x80`.

`sys_int` pushes twelve registers and gives the handler a pointer to them, as `Registers1`. The fields of this
structure are those of the registers as far as `rdi`; behind it they are off by one. After the handler,
`sys_int` pops what it has pushed, with the slot of `rax` into `rbx`, so that `rax` is the result of the
handler. It neither saves nor restores `r8`, `r9`, and `r10` (`sysInt_keeps_iff`).

A call in the library arrives as the call of the kernel function that it is meant for, with its own arguments,
and gives back the result (`syscall_arrives`). `read` and `write` take a `size_t` there and an `int` here, so
the number of bytes has to be an `int`. The results of `exit`, `ps`, `sleep_s`, `kill_s`, `chdir_s`,
`getcwd_s`, and `sys_yield` are the number of the call, since the handler leaves `rax` as it is. How the
child of `fork_process` returns is in `Asm.Twice`.
-/

namespace Nascent.Asm

open Memory

/-! ## `sys_int` -/

/-- The registers that `sys_int` pushes, in this order. -/
def sysIntSaved : List Reg := [.r15, .r14, .r13, .r12, .r11, .rbp, .rdi, .rsi, .rdx, .rcx, .rbx, .rax]

/-- `sys_int` behind `pushq $128`. -/
def sysIntCode : List Instr :=
  [.push .r15, .push .r14, .push .r13, .push .r12, .push .r11, .push .rbp, .push .rdi, .push .rsi, .push .rdx,
    .push .rcx, .push .rbx, .push .rax,
    .mov .rsp .rdi, .call,
    .pop .rbx, .pop .rbx, .pop .rcx, .pop .rdx, .pop .rsi, .pop .rdi, .pop .rbp, .pop .r11, .pop .r12,
    .pop .r13, .pop .r14, .pop .r15,
    .add 8 .rsp, .iretq]

/-- `sys_int`, with the handler `f`. -/
def sysInt (f : Callee) (c : Cpu) : Cpu := run f sysIntCode ((exec f c .cli).push 128)

/-- `int $0x80`, with the kernel stack at `base`. -/
def int80 (f : Callee) (c : Cpu) (base : Word64) : Cpu := sysInt f (interrupt c base none)

/-- A handler of system calls keeps to the calling convention, but where its `Registers1` are at the stack pointer, it
may write the field `rax` of them. -/
structure Callee.SysAbi (f : Callee) (base : Word64) : Prop where
  /-- The registers that a function keeps. -/
  reg : ∀ c, ∀ r ∈ calleeSaved, (f c).reg r = c.reg r
  /-- The stack of the callers. -/
  mem : ∀ c, c.reg .rdi = c.rsp → ∀ x, 8 ≤ (x - c.rsp).toNat → (x - c.rsp).toNat < (base - c.rsp).toNat →
    (f c).mem x = c.mem x

/-- `Registers1`. -/
structure Registers1 where
  (rax rbx rcx rdx rsi rdi rsp rbp rip r12 r13 r14 r15 : Word64)

/-- The `Registers1` at an address. -/
def Registers1.load (m : Mem) (a : Word64) : Registers1 where
  rax := read m a
  rbx := read m (a + 8)
  rcx := read m (a + 16)
  rdx := read m (a + 24)
  rsi := read m (a + 32)
  rdi := read m (a + 40)
  rsp := read m (a + 48)
  rbp := read m (a + 56)
  rip := read m (a + 64)
  r12 := read m (a + 72)
  r13 := read m (a + 80)
  r14 := read m (a + 88)
  r15 := read m (a + 96)

variable {c k : Cpu} {f : Callee} {base v : Word64} {reg : Reg → Word64} {ws : List Word64} {r : Reg}

namespace At

/-- The call of the handler keeps the stack but for its first word. -/
theorem call_sys (h : At k base reg (v :: ws)) (hrdi : k.reg .rdi = k.rsp) (hf : f.SysAbi base)
    (hlen : ws.length < 900) :
    ∃ v', At (exec f k .call) base (f k).reg (v' :: ws) := by
  have hsp : (f k).rsp = k.rsp := hf.reg k .rsp (by decide)
  have hdist : (base - k.rsp).toNat = 8 * (ws.length + 1) := by
    rw [h.rsp, List.length_cons]
    bv_omega
  refine ⟨read (f k).mem k.rsp, hsp.trans h.rsp, ?_, fun _ _ => rfl⟩
  show Holds (f k).mem (f k).rsp _
  rw [hsp]
  refine ⟨rfl, h.holds.2.congr (by omega) fun x hx => hf.mem k hrdi x ?_ ?_⟩
  · bv_omega
  · bv_omega

end At

/-- The registers that `sys_int` pops, behind the slot of `rax`. -/
def sysIntPopped : List Reg := [.rbx, .rcx, .rdx, .rsi, .rdi, .rbp, .r11, .r12, .r13, .r14, .r15]

/-- The registers that `sys_int` does not restore. -/
def sysIntLost : List Reg := [.rax, .r8, .r9, .r10]

/-- The words from the pointer of the handler on are the first fields of its `Registers1`. -/
theorem load_of_holds {rax rbx rcx rdx rsi rdi : Word64} {m : Mem} {a : Word64}
    (h : Holds m a (rax :: rbx :: rcx :: rdx :: rsi :: rdi :: ws)) :
    (Registers1.load m a).rax = rax ∧ (Registers1.load m a).rdx = rdx ∧ (Registers1.load m a).rsi = rsi ∧
      (Registers1.load m a).rdi = rdi := by
  obtain ⟨h0, -, -, h3, h4, h5, -⟩ := h
  refine ⟨h0, ?_, ?_, ?_⟩
  · rw [← h3]
    exact congrArg (read m) (by bv_omega)
  · rw [← h4]
    exact congrArg (read m) (by bv_omega)
  · rw [← h5]
    exact congrArg (read m) (by bv_omega)

/-- What the handler finds at its call: a pointer to the registers, which has the values `reg` in front of the frame
of the processor. -/
structure Called (c k : Cpu) (base : Word64) : Prop where
  /-- The registers and the stack. -/
  holds : At k base (Function.update c.reg .rdi k.rsp) ((sysIntSaved.map c.reg).reverse ++ 128 :: frame c)
  /-- The pointer. -/
  rdi : k.reg .rdi = k.rsp

/-- `sys_int` behind the call of the handler. -/
def sysIntEnd : List Instr := .pop .rbx :: (sysIntPopped.map .pop ++ [.add 8 .rsp, .iretq])

/-- `sys_int` up to the call of the handler. -/
def atHandler (c : Cpu) (base : Word64) : Cpu :=
  let p := run id (sysIntSaved.map .push) ((exec id (interrupt c base none) .cli).push 128)
  p.set .rdi p.rsp

theorem int80_eq (f : Callee) (c : Cpu) (base : Word64) : int80 f c base = run f sysIntEnd (f (atHandler c base)) := rfl

/-- What the handler finds. -/
theorem called_atHandler (c : Cpu) (base : Word64) : Called c (atHandler c base) base := by
  have hstart := ((at_interrupt c base none).cli (f := id)).pushWord (v := 128) (by simp [frame])
  have hpushed := hstart.pushes (f := id) sysIntSaved (by decide) (by simp [frame, sysIntSaved])
  unfold atHandler
  set p := run id (sysIntSaved.map .push) ((exec id (interrupt c base none) .cli).push 128) with hp
  have hset := hpushed.set (r := .rdi) (v := p.rsp) (by decide)
  have hsp : (p.set .rdi p.rsp).rsp = p.rsp := Cpu.set_reg_of_ne (by decide)
  refine ⟨?_, ?_⟩
  · rw [hsp]
    exact hset
  · rw [hsp]
    exact Cpu.set_reg_self

/-- The handler finds the number and the arguments of the call. -/
theorem Called.load (h : Called c k base) : (Registers1.load k.mem (k.reg .rdi)).rax = c.reg .rax ∧
    (Registers1.load k.mem (k.reg .rdi)).rdx = c.reg .rdx ∧
    (Registers1.load k.mem (k.reg .rdi)).rsi = c.reg .rsi ∧
    (Registers1.load k.mem (k.reg .rdi)).rdi = c.reg .rdi := by
  rw [h.rdi]
  exact load_of_holds h.holds.holds

/-- The rest of `sys_int` on a stack with the registers of the caller: the caller goes on with them, but for those
that are not restored. -/
theorem At.sysIntEnd (h : At k base reg (v :: (sysIntPopped.map c.reg ++ 128 :: frame c))) :
    (run f sysIntEnd k).rip = c.rip ∧ (run f sysIntEnd k).rflags = c.rflags ∧
      (∀ r, r ∉ sysIntLost → (run f sysIntEnd k).reg r = c.reg r) ∧
      ∀ r ∈ sysIntLost, (run f sysIntEnd k).reg r = k.reg r := by
  have hpop := h.pop (f := f) (r := .rbx) (by decide)
  have hpops := hpop.pops (f := f) sysIntPopped (by decide) (by simp)
  obtain ⟨hrip, hflags, hsp, hregs⟩ := (hpops.add_rsp (f := f)).iretq (f := f)
  unfold Asm.sysIntEnd
  rw [run_cons, run_append]
  refine ⟨hrip, hflags, fun r hr => ?_, fun r hr => ?_⟩
  · by_cases hrsp : r = .rsp
    · rw [hrsp]
      exact hsp
    · refine (hregs r hrsp).trans (popped_map ?_)
      cases r <;> first | exact absurd rfl hrsp | exact absurd (by decide) hr | decide
  · have hne : r ≠ .rsp ∧ r ∉ sysIntPopped ∧ r ≠ .rbx := by
      cases r <;> first | exact absurd hr (by decide) | decide
    refine (hregs r hne.1).trans ?_
    rw [popped_of_notMem hne.2.1, Function.update_of_ne hne.2.2, h.reg r hne.1]

/-- What is behind the call of the handler. -/
theorem Called.returns (h : Called c k base) (hf : f.SysAbi base) :
    (run f sysIntEnd (f k)).rip = c.rip ∧ (run f sysIntEnd (f k)).rflags = c.rflags ∧
      (∀ r, r ∉ sysIntLost → (run f sysIntEnd (f k)).reg r = c.reg r) ∧
      ∀ r ∈ sysIntLost, (run f sysIntEnd (f k)).reg r = (f k).reg r := by
  obtain ⟨v', hcalled⟩ := At.call_sys h.holds h.rdi hf (by simp [frame])
  exact hcalled.sysIntEnd

/-- A handler that changes the registers that `sys_int` does not restore. -/
def clobberLost : Callee := fun c =>
  (((c.set .rax (c.reg .rax + 1)).set .r8 (c.reg .r8 + 1)).set .r9 (c.reg .r9 + 1)).set .r10 (c.reg .r10 + 1)

theorem clobberLost_reg (c : Cpu) (r : Reg) :
    (clobberLost c).reg r = if r ∈ sysIntLost then c.reg r + 1 else c.reg r := by
  cases r <;> rfl

theorem clobberLost_abi (base : Word64) : clobberLost.SysAbi base where
  reg c r hr := by
    rw [clobberLost_reg, if_neg]
    intro hlost
    cases r <;> first | exact absurd hr (by decide) | exact absurd hlost (by decide)
  mem _ _ _ _ _ := rfl

/-- Whatever the handler does within the calling convention, a system call goes on behind `int $0x80` with the flags
and the stack of the caller, and it keeps exactly the registers other than `rax`, `r8`, `r9`, and `r10`. -/
theorem sysInt_keeps_iff (c : Cpu) (base : Word64) (r : Reg) :
    (∀ f : Callee, f.SysAbi base → (int80 f c base).rip = c.rip ∧ (int80 f c base).rflags = c.rflags ∧
      (int80 f c base).rsp = c.rsp ∧ (int80 f c base).reg r = c.reg r) ↔ r ∉ sysIntLost := by
  constructor
  · intro hall hr
    have hk := called_atHandler c base
    obtain ⟨-, -, -, hlost⟩ := hk.returns (clobberLost_abi base)
    rw [← int80_eq] at hlost
    obtain ⟨-, -, -, hkept⟩ := hall clobberLost (clobberLost_abi base)
    have hne : r ≠ .rsp ∧ r ≠ .rdi := by
      cases r <;> first | exact absurd hr (by decide) | decide
    have hreg : (atHandler c base).reg r = c.reg r := (hk.holds.reg r hne.1).trans (Function.update_of_ne hne.2 ..)
    rw [hlost r hr, clobberLost_reg, if_pos hr, hreg] at hkept
    bv_omega
  · intro hr f hf
    obtain ⟨hrip, hflags, hkept, -⟩ := (called_atHandler c base).returns hf
    rw [int80_eq]
    exact ⟨hrip, hflags, hkept .rsp (by decide), hkept r hr⟩

/-! ## `syscall_handler` -/

/-- What `syscall_handler` does, with the arguments as the C functions take them. -/
inductive KernelCall
  /-- `write_to_console`. -/
  | writeToConsole (fd : Word64) (buffer : Word64) (count : ℤ)
  /-- `fork_process`. -/
  | forkProcess
  /-- `RunningTask->pid`. -/
  | pid
  /-- `RunningTask->ppid`. -/
  | ppid
  /-- `open_dir`. -/
  | openDir (name : Word64)
  /-- `read_dir`. -/
  | readDir (fd : ℤ) (name : Word64)
  /-- `close_dir`. -/
  | closeDir (fd : ℤ)
  /-- `open_s`. -/
  | openS (name : Word64) (flags : ℤ)
  /-- `read_s`. -/
  | readS (fd : ℤ) (buffer : Word64) (count : ℤ)
  /-- `close_s`. -/
  | closeS (fd : ℤ)
  /-- `wait_for_child` and `schedule`. -/
  | waitForChild
  /-- `sys_exit(RunningTask->pid)`. -/
  | exit
  /-- `sys_ps`. -/
  | sysPs
  /-- The running task is put to sleep. -/
  | sleep (sec : ℤ)
  /-- `sys_exit` of a pid. -/
  | sysExit (pid : ℤ)
  /-- `set_cwd`. -/
  | setCwd (path : Word64)
  /-- `fetch_cwd`. -/
  | fetchCwd (path : Word64)
  /-- `sys_execvpe`. -/
  | sysExecvpe (file argv envp : Word64)
  /-- `page_alloc`. -/
  | pageAlloc
  /-- `schedule`. -/
  | schedule
deriving DecidableEq

/-- A register as an `int`. -/
def toCInt (v : Word64) : ℤ := (v.setWidth 32).toInt

/-- The switch of `syscall_handler`. The count of `write` is an `int` that is converted back to a `uint64_t`. -/
def Registers1.switch (regs : Registers1) : Option KernelCall :=
  match regs.rax with
  | 1 => some (.writeToConsole regs.rdi regs.rsi ((regs.rdx.setWidth 32).signExtend 64).toNat)
  | 57 => some .forkProcess
  | 39 => some .pid
  | 110 => some .ppid
  | 70 => some (.openDir regs.rdi)
  | 71 => some (.readDir (toCInt regs.rdi) regs.rsi)
  | 72 => some (.closeDir (toCInt regs.rdi))
  | 2 => some (.openS regs.rdi (toCInt regs.rsi))
  | 0 => some (.readS (toCInt regs.rdi) regs.rsi (toCInt regs.rdx))
  | 3 => some (.closeS (toCInt regs.rdi))
  | 61 => some .waitForChild
  | 60 => some .exit
  | 75 => some .sysPs
  | 73 => some (.sleep (toCInt regs.rdi))
  | 76 => some (.sysExit (toCInt regs.rdi))
  | 50 => some (.setCwd regs.rdi)
  | 51 => some (.fetchCwd regs.rdi)
  | 59 => some (.sysExecvpe regs.rdi regs.rsi regs.rdx)
  | 100 => some .pageAlloc
  | 99 => some .schedule
  | _ => none

/-- The handler stores the result of the call in `rax`. -/
def KernelCall.stores : KernelCall → Bool
  | .exit | .sysPs | .sleep _ | .sysExit _ | .setCwd _ | .fetchCwd _ | .schedule => false
  | _ => true

section

variable {σ : Type*} (kernel : KernelCall → σ → σ × Word64)

/-- `syscall_handler`: the state of the kernel after the call, and what it returns. -/
def syscallHandler (regs : Registers1) (s : σ) : σ × Word64 :=
  match regs.switch with
  | none => (s, 0)
  | some call => ((kernel call s).1, if call.stores then (kernel call s).2 else regs.rax)

end

/-! ## The library -/

/-- The functions that the macros of `src/libc/syscalls.c` define. -/
inductive LibcCall
  | openDir (name : Word64)
  | readDir (fd : BitVec 32) (name : Word64)
  | closeDir (fd : BitVec 32)
  | read (fd : BitVec 32) (buf count : Word64)
  | exit (value : BitVec 32)
  | openFile (pathname : Word64) (flags : BitVec 32)
  | close (fd : BitVec 32)
  | pipe (filedes : Word64)
  | execve (fileName argv envp : Word64)
  | fork
  | getpid
  | getppid
  | dup2 (oldfd newfd : BitVec 32)
  | write (fd : BitVec 32) (buf count : Word64)
  | waitS (pid : BitVec 32)
  | ps
  | access (filename : Word64) (mode : BitVec 32)
  | sleepS (sec : BitVec 32)
  | killS (pid : BitVec 32)
  | chdirS (path : Word64)
  | getcwdS (buf size : Word64)
  | sysYield
  | sysSbrk (limit : BitVec 32)
deriving DecidableEq

namespace LibcCall

/-- `__NR_name`. -/
def number : LibcCall → Word64
  | .openDir _ => 70
  | .readDir .. => 71
  | .closeDir _ => 72
  | .read .. => 0
  | .exit _ => 60
  | .openFile .. => 2
  | .close _ => 3
  | .pipe _ => 22
  | .execve .. => 59
  | .fork => 57
  | .getpid => 39
  | .getppid => 110
  | .dup2 .. => 33
  | .write .. => 1
  | .waitS _ => 61
  | .ps => 75
  | .access .. => 21
  | .sleepS _ => 73
  | .killS _ => 76
  | .chdirS _ => 50
  | .getcwdS .. => 51
  | .sysYield => 99
  | .sysSbrk _ => 100

/-- The arguments, converted to `uint64_t`. A `pid_t` is unsigned. -/
def args : LibcCall → List Word64
  | .openDir name => [name]
  | .readDir fd name => [fd.signExtend 64, name]
  | .closeDir fd => [fd.signExtend 64]
  | .read fd buf count => [fd.signExtend 64, buf, count]
  | .exit value => [value.signExtend 64]
  | .openFile pathname flags => [pathname, flags.signExtend 64]
  | .close fd => [fd.signExtend 64]
  | .pipe filedes => [filedes]
  | .execve fileName argv envp => [fileName, argv, envp]
  | .fork | .getpid | .getppid | .ps | .sysYield => []
  | .dup2 oldfd newfd => [oldfd.signExtend 64, newfd.signExtend 64]
  | .write fd buf count => [fd.signExtend 64, buf, count]
  | .waitS pid => [pid.setWidth 64]
  | .access filename mode => [filename, mode.signExtend 64]
  | .sleepS sec => [sec.signExtend 64]
  | .killS pid => [pid.signExtend 64]
  | .chdirS path => [path]
  | .getcwdS buf size => [buf, size]
  | .sysSbrk limit => [limit.signExtend 64]

/-- The registers at `int $0x80`. -/
def enter (call : LibcCall) (c : Cpu) : Cpu :=
  ([Reg.rdi, .rsi, .rdx].zip call.args).foldl (fun c a => c.set a.1 a.2) (c.set .rax call.number)

/-- The call of the kernel that the function is meant for, with the arguments as they were given. There is none for
`pipe`, `dup2`, and `access`. -/
def meant : LibcCall → Option KernelCall
  | .openDir name => some (.openDir name)
  | .readDir fd name => some (.readDir fd.toInt name)
  | .closeDir fd => some (.closeDir fd.toInt)
  | .read fd buf count => some (.readS fd.toInt buf count.toNat)
  | .exit _ => some .exit
  | .openFile pathname flags => some (.openS pathname flags.toInt)
  | .close fd => some (.closeS fd.toInt)
  | .execve fileName argv envp => some (.sysExecvpe fileName argv envp)
  | .fork => some .forkProcess
  | .getpid => some .pid
  | .getppid => some .ppid
  | .write fd buf count => some (.writeToConsole (fd.signExtend 64) buf count.toNat)
  | .waitS _ => some .waitForChild
  | .ps => some .sysPs
  | .sleepS sec => some (.sleep sec.toInt)
  | .killS pid => some (.sysExit pid.toInt)
  | .chdirS path => some (.setCwd path)
  | .getcwdS buf _ => some (.fetchCwd buf)
  | .sysYield => some .schedule
  | .sysSbrk _ => some .pageAlloc
  | .pipe _ | .dup2 .. | .access .. => none

/-- The number of bytes of a `read` or a `write` is an `int`. -/
def CountFits : LibcCall → Prop
  | .read _ _ count | .write _ _ count => count.toNat < 2 ^ 31
  | _ => True

/-- What the call does and returns, as the library is meant to: the kernel function is called, and its result is
returned where it has one. -/
def effect {σ : Type*} (kernel : KernelCall → σ → σ × Word64) (call : LibcCall) (s : σ) : σ × Word64 :=
  match call.meant with
  | none => (s, 0)
  | some k => ((kernel k s).1, if k.stores then (kernel k s).2 else call.number)

end LibcCall

/-! ## The way of a call -/

/-- An `int` comes back from a register as it was. -/
theorem toCInt_signExtend (v : BitVec 32) : toCInt (v.signExtend 64) = v.toInt := by
  unfold toCInt
  rw [← BitVec.signExtend_eq_setWidth_of_le _ (by decide), BitVec.toInt_signExtend_eq_toInt_bmod_of_le _ (by decide),
    BitVec.toInt_signExtend_of_le (by decide), BitVec.toInt_bmod_cancel]

/-- So does a number of bytes that is an `int`. -/
theorem toCInt_of_lt {v : Word64} (h : v.toNat < 2 ^ 31) : toCInt v = v.toNat := by
  unfold toCInt
  rw [BitVec.toInt_setWidth]
  exact Int.bmod_eq_of_le (by omega) (by omega)

theorem signExtend_setWidth_of_lt {v : Word64} (h : v.toNat < 2 ^ 31) : (v.setWidth 32).signExtend 64 = v := by
  have hint : ((v.setWidth 32).signExtend 64).toInt = v.toInt := by
    rw [BitVec.toInt_signExtend_of_le (by decide)]
    refine (toCInt_of_lt h).trans ?_
    rw [BitVec.toInt_eq_toNat_of_lt (by omega)]
  exact BitVec.eq_of_toInt_eq hint

/-- The switch finds the call that is meant. -/
theorem switch_of_call {call : LibcCall} {regs : Registers1} (hfits : call.CountFits) (hrax : regs.rax = call.number)
    (hrdi : regs.rdi = call.args.getD 0 regs.rdi) (hrsi : regs.rsi = call.args.getD 1 regs.rsi)
    (hrdx : regs.rdx = call.args.getD 2 regs.rdx) : regs.switch = call.meant := by
  unfold Registers1.switch
  rw [hrax, hrdi, hrsi, hrdx]
  cases call with
  | read fd buf count =>
    have hcount : toCInt count = count.toNat := toCInt_of_lt hfits
    simp [LibcCall.number, LibcCall.args, LibcCall.meant, toCInt_signExtend, hcount]
  | write fd buf count =>
    have hcount : (count.setWidth 32).signExtend 64 = count := signExtend_setWidth_of_lt hfits
    simp [LibcCall.number, LibcCall.args, LibcCall.meant, hcount]
  | _ => simp [LibcCall.number, LibcCall.args, LibcCall.meant, toCInt_signExtend]

/-- The registers that the library loads. -/
def libcLoaded : List Reg := [.rax, .rdi, .rsi, .rdx]

/-- A call has at most three arguments. -/
theorem length_args_le (call : LibcCall) : call.args.length ≤ 3 := by
  cases call <;> simp [LibcCall.args]

/-- The registers at `int $0x80`: the number, the arguments as far as there are any, and the others as they were. -/
theorem enter_reg (call : LibcCall) (c : Cpu) : (call.enter c).rip = c.rip ∧ (call.enter c).rflags = c.rflags ∧
    (call.enter c).reg .rax = call.number ∧
    (call.enter c).reg .rdi = call.args.getD 0 (c.reg .rdi) ∧
    (call.enter c).reg .rsi = call.args.getD 1 (c.reg .rsi) ∧
    (call.enter c).reg .rdx = call.args.getD 2 (c.reg .rdx) ∧
    ∀ r, r ∉ libcLoaded → (call.enter c).reg r = c.reg r := by
  have hother : ∀ (c : Cpu) (v : Word64) (r r' : Reg), r' ∈ libcLoaded → r ∉ libcLoaded →
      (c.set r' v).reg r = c.reg r := fun c v r r' hr' hr => Cpu.set_reg_of_ne fun heq => hr (heq ▸ hr')
  have hlen := length_args_le call
  unfold LibcCall.enter
  match call.args, hlen with
  | [], _ => exact ⟨rfl, rfl, rfl, rfl, rfl, rfl, fun r hr => hother _ _ _ _ (by decide) hr⟩
  | [_], _ =>
    refine ⟨rfl, rfl, rfl, rfl, rfl, rfl, fun r hr => ?_⟩
    exact (hother _ _ _ .rdi (by decide) hr).trans (hother _ _ _ .rax (by decide) hr)
  | [_, _], _ =>
    refine ⟨rfl, rfl, rfl, rfl, rfl, rfl, fun r hr => ?_⟩
    calc _ = _ := hother _ _ _ .rsi (by decide) hr
      _ = _ := hother _ _ _ .rdi (by decide) hr
      _ = _ := hother _ _ _ .rax (by decide) hr
  | [_, _, _], _ =>
    refine ⟨rfl, rfl, rfl, rfl, rfl, rfl, fun r hr => ?_⟩
    calc _ = _ := hother _ _ _ .rdx (by decide) hr
      _ = _ := hother _ _ _ .rsi (by decide) hr
      _ = _ := hother _ _ _ .rdi (by decide) hr
      _ = _ := hother _ _ _ .rax (by decide) hr

/-- A function `f` is `syscall_handler` in the state `s` of the kernel, as far as its result goes. -/
def Callee.Handles {σ : Type*} (f : Callee) (kernel : KernelCall → σ → σ × Word64) (s : σ) : Prop :=
  ∀ k, (f k).reg .rax = (syscallHandler kernel (Registers1.load k.mem (k.reg .rdi)) s).2

/-- A function of the library, whose numbers of bytes are `int`s, has the effect of the function of the kernel that
it is meant for, with the arguments that it was given, and returns its result. It goes on behind `int $0x80` with the
flags and the stack, and with all registers but those that it has loaded and `r8`, `r9`, and `r10`. -/
theorem syscall_arrives {σ : Type*} (kernel : KernelCall → σ → σ × Word64) (s : σ) (call : LibcCall)
    (hfits : call.CountFits) (f : Callee) (base : Word64) (hf : f.SysAbi base) (hh : f.Handles kernel s) (c : Cpu) :
    (∃ k, Called (call.enter c) k base ∧
      syscallHandler kernel (Registers1.load k.mem (k.reg .rdi)) s = call.effect kernel s) ∧
    (int80 f (call.enter c) base).reg .rax = (call.effect kernel s).2 ∧
    (int80 f (call.enter c) base).rip = c.rip ∧ (int80 f (call.enter c) base).rflags = c.rflags ∧
    ∀ r, r ∉ sysIntLost → r ∉ libcLoaded → (int80 f (call.enter c) base).reg r = c.reg r := by
  obtain ⟨hrip, hflags, hrax, hrdi, hrsi, hrdx, hother⟩ := enter_reg call c
  have hk := called_atHandler (call.enter c) base
  obtain ⟨hrip', hflags', hkept, hlost⟩ := hk.returns hf
  rw [← int80_eq] at hrip' hflags' hkept hlost
  obtain ⟨hkrax, hkrdx, hkrsi, hkrdi⟩ := hk.load
  have hgetD : ∀ (l : List Word64) (i : ℕ) (x : Word64), l.getD i (l.getD i x) = l.getD i x := by
    intro l i x
    rcases Nat.lt_or_ge i l.length with hi | hi
    · rw [List.getD_eq_getElem _ _ hi, List.getD_eq_getElem _ _ hi]
    · rw [List.getD_eq_default _ _ hi]
  -- The handler finds the number and the arguments.
  set k := atHandler (call.enter c) base
  have hswitch : (Registers1.load k.mem (k.reg .rdi)).switch = call.meant := by
    refine switch_of_call hfits (hkrax.trans hrax) ?_ ?_ ?_
    · rw [hkrdi, hrdi, hgetD]
    · rw [hkrsi, hrsi, hgetD]
    · rw [hkrdx, hrdx, hgetD]
  have heffect : syscallHandler kernel (Registers1.load k.mem (k.reg .rdi)) s = call.effect kernel s := by
    unfold syscallHandler LibcCall.effect
    rw [hswitch, hkrax, hrax]
  refine ⟨⟨k, hk, heffect⟩, ?_, hrip'.trans hrip, hflags'.trans hflags, fun r hr hr' => ?_⟩
  · rw [hlost .rax (by decide), hh k, heffect]
  · exact (hkept r hr).trans (hother r hr')

/-- A handler that stores the result in its `Registers1` and returns it. -/
def storeResult {σ : Type*} (kernel : KernelCall → σ → σ × Word64) (s : σ) : Callee := fun k =>
  let v := (syscallHandler kernel (Registers1.load k.mem (k.reg .rdi)) s).2
  { k.set .rax v with mem := write k.mem (k.reg .rdi) v }

theorem storeResult_abi {σ : Type*} (kernel : KernelCall → σ → σ × Word64) (s : σ) (base : Word64) :
    (storeResult kernel s).SysAbi base where
  reg c r hr := by
    refine Cpu.set_reg_of_ne fun hc => ?_
    rw [hc] at hr
    exact absurd hr (by decide)
  mem c hrdi x hx _ := by
    refine write_of_le ?_
    rw [hrdi]
    exact hx

theorem storeResult_handles {σ : Type*} (kernel : KernelCall → σ → σ × Word64) (s : σ) :
    (storeResult kernel s).Handles kernel s := fun k => by
  unfold storeResult
  dsimp only
  rw [Cpu.set_reg_self]

/-- A kernel that counts the bytes that are read. -/
def countReads (call : KernelCall) (n : ℤ) : ℤ × Word64 :=
  match call with
  | .readS _ _ count => (n + count, BitVec.ofInt 64 count)
  | _ => (n, 0)

/-- `read(0, 4096, 80)` returns 80 in this kernel. -/
theorem syscall_arrives_read : ∃ c : Cpu, (80 : Word64).toNat < 2 ^ 31 ∧
    (int80 (storeResult countReads 0) ((LibcCall.read 0 4096 80).enter c) 0).reg .rax = 80 := by
  obtain ⟨-, hrax, -⟩ := syscall_arrives countReads 0 (.read 0 4096 80) (by decide : (80 : Word64).toNat < 2 ^ 31) _ 0
    (storeResult_abi countReads 0 0) (storeResult_handles countReads 0)
    ⟨fun _ => 0, 0, 0x200, 43, 35, 0, fun _ => 0⟩
  exact ⟨_, by decide, hrax⟩

end Nascent.Asm
