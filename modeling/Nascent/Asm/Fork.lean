import Nascent.Asm.Switch
import Nascent.Asm.Syscall

/-!
# `fork_process` and the kernel stack

`fork_process` copies the kernel stack of the parent to that of the child, writes 10101 to its last word, and gives
the record of the child the address behind the call of `fork_process`, which it takes 17 words above its own
stack pointer, and the stack pointer in the copy. When `contextswitch` loads this record, the child goes on in
`syscall_handler`, which takes 10101 for the sign that it is the child, clears it, pops the 18 words of the frame of
`fork_process` and of the return address, and returns 0. `sys_int` then pops the registers of the parent from the copy.

The compiler chooses the frames. What the source relies on is that the frame of `fork_process` has 17 words; that of
`syscall_handler` may have any number, and its end may set the other registers in any way (`Handler`). The parent
goes on with the pid (`Handler.forks`), and the child, where its stack is as it was made (`Fresh`), with 0
(`Handler.resume_child`).
-/

namespace Nascent.Asm

open Memory

/-! ## Pushes -/

/-- Words are pushed, the last one first. -/
def pushWords (c : Cpu) (ws : List Word64) : Cpu := ws.foldr (fun w c => c.push w) c

variable {c k : Cpu} {base t x : Word64} {reg : Reg → Word64} {ws vs : List Word64} {m m' : Mem}

theorem pushWords_rsp : (pushWords c ws).rsp = c.rsp - 8 * BitVec.ofNat 64 ws.length := by
  induction ws with
  | nil => simp [pushWords]
  | cons w ws ih =>
    have hcons : pushWords c (w :: ws) = (pushWords c ws).push w := rfl
    rw [hcons, Cpu.push_rsp, ih, List.length_cons]
    bv_omega

/-- The memory that is not pushed to stays. -/
theorem pushWords_mem (hlen : ws.length < 1000)
    (hx : 8 * ws.length ≤ (x - (c.rsp - 8 * BitVec.ofNat 64 ws.length)).toNat) :
    (pushWords c ws).mem x = c.mem x := by
  induction ws with
  | nil => rfl
  | cons w ws ih =>
    rw [List.length_cons] at hlen hx
    have hcons : pushWords c (w :: ws) = (pushWords c ws).push w := rfl
    have hword : 8 ≤ (x - ((pushWords c ws).rsp - 8)).toNat := by
      rw [pushWords_rsp]
      bv_omega
    rw [hcons, Cpu.push_mem, write_of_le hword]
    exact ih (by omega) (by bv_omega)

namespace At

/-- Words are pushed. -/
theorem pushWords (ws : List Word64) (h : At c base reg vs) (hlen : vs.length + ws.length < 1000) :
    At (pushWords c ws) base reg (ws ++ vs) := by
  induction ws with
  | nil => exact h
  | cons w ws ih =>
    rw [List.length_cons] at hlen
    exact (ih (by omega)).pushWord (by rw [List.length_append]; omega)

end At

theorem pushWords_append : pushWords c (ws ++ vs) = pushWords (pushWords c vs) ws := List.foldr_append

/-- A sequence of pushes of registers. -/
theorem run_push {f : Callee} (rs : List Reg) (hrs : .rsp ∉ rs) :
    run f (rs.map .push) c = pushWords c (rs.map c.reg).reverse := by
  induction rs generalizing c with
  | nil => rfl
  | cons r rs ih =>
    rw [List.mem_cons, not_or] at hrs
    have hregs : rs.map (c.push (c.reg r)).reg = rs.map c.reg :=
      List.map_congr_left fun r' hr' => Cpu.push_reg_of_ne fun heq => hrs.2 (heq ▸ hr')
    rw [List.map_cons, run_cons, exec, ih hrs.2, hregs, List.map_cons, List.reverse_cons, pushWords_append]
    rfl

/-- The words that `sys_int` and the processor push are all that is written before the handler. -/
theorem atHandler_mem (hx : 144 ≤ (x - (base - 144)).toNat) : (atHandler c base).mem x = c.mem x := by
  let start : Cpu := exec id { c.set .rsp base with rflags := c.rflags &&& ~~~interruptFlag, cs := 8 } .cli
  have hframe : (exec id (interrupt c base none) .cli).push 128 = pushWords start (128 :: frame c) := rfl
  have hwords : (atHandler c base).mem = (pushWords start
      ((sysIntSaved.map (pushWords start (128 :: frame c)).reg).reverse ++ 128 :: frame c)).mem := by
    unfold atHandler
    rw [hframe, run_push sysIntSaved (by decide), ← pushWords_append]
    rfl
  have hsp : start.rsp = base := Cpu.set_reg_self (c := c) (r := .rsp)
  rw [hwords, pushWords_mem (by simp [sysIntSaved, frame])]
  · rfl
  · rw [hsp]
    exact hx

/-! ## `fork_process` -/

/-- `&t->kstack[i]`, for the task at `t`. -/
def kstack (t : Word64) (i : ℕ) : Word64 := t + 216 + 8 * BitVec.ofNat 64 i

/-- `memcpy_uint`. -/
def memcpyUint (m : Mem) (source destination : Word64) (size : ℕ) : Mem := copyWords m source destination size

/-- `fetch_free_pcb`, for the registers. -/
def fetchFreePcb (m : Mem) (freePcb cr3 : Word64) : Mem :=
  write (write m (freePcb + 80) cr3) (freePcb + 120) (kstack freePcb 509)

/-- `fork_process`, for the registers and the kernel stack, with `cur_rsp`. -/
def forkProcess (m : Mem) (parent child cr3 curRsp : Word64) : Mem :=
  let m := fetchFreePcb m child cr3
  let m := memcpyUint m (kstack parent 0) (kstack child 0) 512
  let m := write m (kstack child 511) 10101
  let m := write m (child + 64) (read m (curRsp + 8 * 17))
  write m (child + 120) (kstack child 509 - (kstack parent 509 - curRsp))

/-- The bytes of the task at `t`, from its registers to the end of its kernel stack. -/
def InTask (t x : Word64) : Prop := (x - t).toNat < 4312

/-- Two tasks share no byte. -/
def Disjoint (t u : Word64) : Prop := ∀ x, InTask t x → ¬ InTask u x

variable {parent child cr3 curRsp : Word64}

/-- Only the child is written. -/
theorem forkProcess_of_not (hx : ¬ InTask child x) : forkProcess m parent child cr3 curRsp x = m x := by
  have hword : ∀ a : Word64, a.toNat + 8 ≤ 4312 → 8 ≤ (x - (child + a)).toNat := by
    intro a ha
    rw [InTask] at hx
    bv_omega
  have hlast : kstack child 511 = child + 4304 := by
    rw [kstack, BitVec.add_assoc]
    rfl
  have hstack : 8 * 512 ≤ (x - kstack child 0).toNat := by
    rw [InTask] at hx
    rw [kstack]
    bv_omega
  unfold forkProcess memcpyUint fetchFreePcb
  rw [write_of_le (hword 120 (by decide)), write_of_le (hword 64 (by decide)), hlast,
    write_of_le (hword 4304 (by decide)), copyWords_of_le hstack, write_of_le (hword 120 (by decide)),
    write_of_le (hword 80 (by decide))]

/-- What `fork_process` has put into the child at `t`, if it was called from `back` with the words `ws` on the stack
above its own frame. -/
structure Fresh (m : Mem) (t cr3 back : Word64) (ws : List Word64) : Prop where
  /-- The address to go on at. -/
  rip : read m (t + 64) = back
  /-- The page tables. -/
  cr3 : read m (t + 80) = cr3
  /-- The number by which the child is recognised. -/
  magic : read m (kstack t 511) = 10101
  /-- The stack, with the 17 words of a frame and the return address in front. -/
  stack : ∃ own : List Word64, own.length = 17 ∧
    read m (t + 120) = kstack t 509 - 8 * BitVec.ofNat 64 (18 + ws.length) ∧
    Holds m (kstack t 509 - 8 * BitVec.ofNat 64 (18 + ws.length)) (own ++ back :: ws)

variable {back : Word64}

/-- A word of the task at `t`, up to the end of its kernel stack, only depends on the bytes of the task. -/
theorem read_task {a : Word64} (ha : a.toNat + 8 ≤ 4312) (hsame : ∀ x, InTask t x → m' x = m x) :
    read m' (t + a) = read m (t + a) := by
  refine read_congr fun x hx => hsame x ?_
  rw [InTask]
  bv_omega

/-- The last words of the kernel stack. -/
theorem kstack_eq (t : Word64) : kstack t 511 = t + 4304 ∧ kstack t 509 = t + 4288 := by
  constructor <;> rw [kstack, BitVec.add_assoc] <;> rfl

/-- The child only depends on its own bytes. -/
theorem Fresh.congr (h : Fresh m t cr3 back ws) (hlen : ws.length ≤ 450) (hsame : ∀ x, InTask t x → m' x = m x) :
    Fresh m' t cr3 back ws := by
  obtain ⟨own, hown, hsp, hstack⟩ := h.stack
  refine ⟨(read_task (by decide) hsame).trans h.rip, (read_task (by decide) hsame).trans h.cr3, ?_, own, hown,
    (read_task (by decide) hsame).trans hsp, hstack.congr ?_ fun x hx => hsame x ?_⟩
  · rw [(kstack_eq t).1, read_task (by decide) hsame, ← (kstack_eq t).1]
    exact h.magic
  · rw [List.length_append, List.length_cons]
    omega
  · rw [List.length_append, List.length_cons, (kstack_eq t).2] at hx
    rw [InTask]
    bv_omega

/-- A word of the kernel stack, counted from the word at which the stack begins. -/
theorem kstack_sub {n : ℕ} (hn : n ≤ 509) (t : Word64) :
    kstack t 0 + 8 * BitVec.ofNat 64 (509 - n) = kstack t 509 - 8 * BitVec.ofNat 64 n := by
  rw [kstack, kstack]
  bv_omega

/-- `fork_process` makes the child, where its caller has called it from `back`. -/
theorem fresh_forkProcess (hdisj : Disjoint child parent) {own : List Word64} (hown : own.length = 17)
    (hlen : ws.length ≤ 450) (hsp : curRsp = kstack parent 509 - 8 * BitVec.ofNat 64 (18 + ws.length))
    (hstack : Holds m curRsp (own ++ back :: ws)) :
    Fresh (forkProcess m parent child cr3 curRsp) child cr3 back ws := by
  obtain ⟨h511, h509⟩ := kstack_eq child
  have hwords : (own ++ back :: ws).length = 18 + ws.length := by
    rw [List.length_append, List.length_cons, hown]
    omega
  -- The four memories in between.
  set m₁ := fetchFreePcb m child cr3 with hm₁
  set m₂ := memcpyUint m₁ (kstack parent 0) (kstack child 0) 512 with hm₂
  set m₃ := write m₂ (kstack child 511) 10101 with hm₃
  set m₄ := write m₃ (child + 64) (read m₃ (curRsp + 8 * 17)) with hm₄
  have hend : forkProcess m parent child cr3 curRsp =
      write m₄ (child + 120) (kstack child 509 - (kstack parent 509 - curRsp)) := rfl
  have hcopied : ∀ x, (x - kstack child 0).toNat < 8 * 512 → 8 * 512 ≤ (x - kstack parent 0).toNat := by
    intro x hx
    by_contra hlt
    refine hdisj x ?_ ?_
    · rw [kstack] at hx
      rw [InTask]
      bv_omega
    · rw [kstack] at hlt
      rw [InTask]
      bv_omega
  -- The stack of the parent is as it was.
  have hout : ∀ x, InTask parent x → ∀ a : Word64, a.toNat + 8 ≤ 4312 → 8 ≤ (x - (child + a)).toNat := by
    intro x hx a ha
    by_contra hlt
    refine hdisj x ?_ hx
    rw [InTask]
    bv_omega
  have hsame₁ : ∀ x, InTask parent x → m₁ x = m x := by
    intro x hx
    rw [hm₁, fetchFreePcb, write_of_le (hout x hx 120 (by decide)), write_of_le (hout x hx 80 (by decide))]
  have hsame₃ : ∀ x, InTask parent x → m₃ x = m₁ x := by
    intro x hx
    rw [hm₃, h511, write_of_le (hout x hx 4304 (by decide))]
    refine copyWords_of_le ?_
    by_contra hlt
    refine hdisj x ?_ hx
    rw [kstack] at hlt
    rw [InTask]
    bv_omega
  have hinside : ∀ x, (x - curRsp).toNat < 8 * (18 + ws.length) → InTask parent x := by
    intro x hx
    rw [hsp, (kstack_eq parent).2] at hx
    rw [InTask]
    bv_omega
  have hstack₁ : Holds m₁ curRsp (own ++ back :: ws) :=
    hstack.congr (by omega) fun x hx => hsame₁ x (hinside x (hwords ▸ hx))
  -- The return address of `fork_process`.
  have hstack₃ : Holds m₃ curRsp (own ++ back :: ws) :=
    hstack₁.congr (by omega) fun x hx => hsame₃ x (hinside x (hwords ▸ hx))
  have hback : read m₃ (curRsp + 8 * 17) = back := by
    have hget := hstack₃.get (i := 17) (by omega)
    rw [List.getElem_append_right (by omega)] at hget
    simpa [hown] using hget
  -- The copy.
  have hstack₂ : Holds m₂ (kstack child 509 - 8 * BitVec.ofNat 64 (18 + ws.length)) (own ++ back :: ws) := by
    rw [hsp, ← kstack_sub (by omega)] at hstack₁
    rw [← kstack_sub (by omega)]
    exact hstack₁.copyWords (by omega) (by omega) hcopied
  rw [hend]
  refine ⟨?_, ?_, ?_, own, hown, ?_, ?_⟩
  · rw [read_write_of_apart (apart_add (by decide)), hm₄, read_write_self, hback]
  · have hbelow : ∀ x, (x - (child + 80)).toNat < 8 → m₂ x = m₁ x := fun x hx => copyWords_of_le (by
      rw [kstack]
      bv_omega)
    rw [read_write_of_apart (apart_add (by decide)), hm₄, read_write_of_apart (apart_add (by decide)), hm₃, h511,
      read_write_of_apart (apart_add (by decide)), read_congr hbelow, hm₁, fetchFreePcb,
      read_write_of_apart (apart_add (by decide)), read_write_self]
  · rw [h511, read_write_of_apart (apart_add (by decide)), hm₄, read_write_of_apart (apart_add (by decide)), hm₃,
      h511, read_write_self]
  · rw [read_write_self, hsp]
    bv_omega
  · refine hstack₂.congr (by omega) fun x hx => ?_
    rw [hwords, h509] at hx
    rw [write_of_le, hm₄, write_of_le, hm₃, h511, write_of_le] <;> bv_omega

/-- A word of the parent stays. -/
theorem read_forkProcess (hdisj : Disjoint child parent) {a : Word64} (ha : a.toNat + 8 ≤ 4312) :
    read (forkProcess m parent child cr3 curRsp) (parent + a) = read m (parent + a) :=
  read_task ha fun x hx => forkProcess_of_not fun hchild => hdisj x hchild hx

/-- The stack of the parent stays. -/
theorem holds_forkProcess (hdisj : Disjoint child parent) {own : List Word64} (hown : own.length = 17)
    (hlen : ws.length ≤ 450) (hsp : curRsp = kstack parent 509 - 8 * BitVec.ofNat 64 (18 + ws.length))
    (hstack : Holds m curRsp (own ++ back :: ws)) :
    Holds (forkProcess m parent child cr3 curRsp) (curRsp + 8 * 18) ws := by
  have hsplit : own ++ back :: ws = (own ++ [back]) ++ ws := by simp
  have hlast : (own ++ [back]).length = 18 := by simp [hown]
  rw [hsplit] at hstack
  have hright := hstack.right
  rw [hlast] at hright
  have hinside : ∀ x, (x - (curRsp + 8 * 18)).toNat < 8 * ws.length → InTask parent x := by
    intro x hx
    rw [hsp, (kstack_eq parent).2] at hx
    rw [InTask]
    bv_omega
  exact hright.congr (by omega) fun x hx =>
    forkProcess_of_not fun hchild => hdisj x hchild (hinside x hx)

/-! ## `syscall_handler` behind `fork_process` -/

/-- Pops keep the memory and the page tables. -/
theorem run_pop {f : Callee} (rs : List Reg) :
    (run f (rs.map .pop) c).mem = c.mem ∧ (run f (rs.map .pop) c).cr3 = c.cr3 := by
  induction rs generalizing c with
  | nil => exact ⟨rfl, rfl⟩
  | cons r rs ih => exact ih

/-- So does the rest of `sys_int`. -/
theorem run_sysIntEnd {f : Callee} : (run f sysIntEnd c).mem = c.mem ∧ (run f sysIntEnd c).cr3 = c.cr3 := by
  have hcode : sysIntEnd = (.rbx :: sysIntPopped).map .pop ++ [.add 8 .rsp, .iretq] := rfl
  have hlast : ∀ k : Cpu, (run f [.add 8 .rsp, .iretq] k).mem = k.mem ∧
      (run f [.add 8 .rsp, .iretq] k).cr3 = k.cr3 := fun _ => ⟨rfl, rfl⟩
  obtain ⟨hmem, hcr3⟩ := run_pop (c := c) (f := f) (.rbx :: sysIntPopped)
  rw [hcode, run_append]
  exact ⟨(hlast _).1.trans hmem, (hlast _).2.trans hcr3⟩

/-- What the compiler has chosen for `syscall_handler`. -/
structure Handler where
  /-- The address behind its call in `sys_int`. -/
  ret : Word64
  /-- The address behind the call of `fork_process`. -/
  back : Word64
  /-- The number of words of its frame. -/
  size : ℕ
  /-- The frame fits. -/
  size_le : size ≤ 400
  /-- What it does to return. -/
  leave : Callee
  /-- It drops its frame and the return address. -/
  leave_rsp : ∀ c, (leave c).rsp = c.rsp + 8 * BitVec.ofNat 64 (size + 1)
  /-- It goes on at the return address. -/
  leave_rip : ∀ c, (leave c).rip = read c.mem (c.rsp + 8 * BitVec.ofNat 64 size)
  /-- It keeps the result. -/
  leave_rax : ∀ c, (leave c).reg .rax = c.reg .rax
  /-- It keeps the page tables. -/
  leave_cr3 : ∀ c, (leave c).cr3 = c.cr3
  /-- It keeps the memory. -/
  leave_mem : ∀ c, (leave c).mem = c.mem

namespace Handler

variable (h : Handler)

/-- `syscall_handler` behind the call of `fork_process`, in the task at `t`. -/
def afterFork (t regs : Word64) (c : Cpu) : Cpu :=
  if read c.mem (kstack t 511) = 10101 then
    -- The child, which has no `regs`.
    let c := { c with mem := write c.mem (kstack t 511) 0 }
    h.leave ((run id (List.replicate 18 (.pop .rax)) c).set .rax 0)
  else
    let childPid := ((c.reg .rax).setWidth 32).signExtend 64
    h.leave ({ c with mem := write c.mem regs childPid }.set .rax childPid)

/-- `syscall_handler` at `SYS_fork`, in the task at `parent`, with the words of its frame and of that of
`fork_process`. -/
def fork (parent child cr3 : Word64) (pid : BitVec 32) (locals own : List Word64) : Callee := fun k =>
  let c := pushWords k (own ++ h.back :: (locals ++ [h.ret]))
  let m := forkProcess c.mem parent child cr3 c.rsp
  h.afterFork parent (k.reg .rdi)
    { (c.set .rsp (c.rsp + 8 * 18)).set .rax (pid.setWidth 64) with rip := h.back, mem := m }

/-- What a task does that `contextswitch` has returned to: behind the call of `fork_process`, it goes on in
`syscall_handler` and in `sys_int`. -/
def resume (t regs : Word64) (c : Cpu) : Cpu :=
  if c.rip = h.back then
    let k := h.afterFork t regs c
    if k.rip = h.ret then run id sysIntEnd k else k
  else c

variable {h} {locals own : List Word64} {v regs : Word64}

/-- The return of the handler. -/
theorem at_leave (hc : At c base reg (locals ++ v :: ws)) (hlocals : locals.length = h.size) :
    At (h.leave c) base (h.leave c).reg ws ∧ (h.leave c).rip = v := by
  have hsize := h.size_le
  have hsp := hc.rsp
  rw [List.length_append, List.length_cons] at hsp
  have hright := hc.holds.right
  rw [hlocals] at hright
  refine ⟨⟨?_, ?_, fun _ _ => rfl⟩, ?_⟩
  · rw [h.leave_rsp, hsp, hlocals]
    bv_omega
  · have hnext : c.rsp + 8 * BitVec.ofNat 64 (h.size + 1) = c.rsp + 8 * BitVec.ofNat 64 h.size + 8 := by
      bv_omega
    rw [h.leave_rsp, h.leave_mem, hnext]
    exact hright.2
  · rw [h.leave_rip]
    exact hright.1

variable (h) in
/-- What the child finds on its stack behind `fork_process`, up to the interrupted program `u`. -/
def childStack (locals : List Word64) (v : Word64) (u : Cpu) : List Word64 :=
  locals ++ h.ret :: v :: (sysIntPopped.map u.reg ++ 128 :: frame u)

theorem length_childStack (u : Cpu) (hlocals : locals.length = h.size) :
    (h.childStack locals v u).length = 19 + h.size := by
  simp [childStack, sysIntPopped, frame, hlocals]
  omega

theorem length_childStack_le (u : Cpu) (hlocals : locals.length = h.size) :
    (h.childStack locals v u).length ≤ 450 := by
  have hsize := h.size_le
  rw [length_childStack u hlocals]
  omega

/-- A program that goes on behind `int $0x80` with the registers and the stack of `u`, and with a result. -/
structure Resumed (u c : Cpu) (result : Word64) : Prop where
  /-- The address. -/
  rip : c.rip = u.rip
  /-- The flags. -/
  rflags : c.rflags = u.rflags
  /-- The result. -/
  rax : c.reg .rax = result
  /-- The other registers. -/
  reg : ∀ r, r ∉ sysIntLost → c.reg r = u.reg r

/-- `sys_int` behind the handler, on the stack that the child has copied. -/
theorem resumed_sysIntEnd {f : Callee} {u : Cpu}
    (hk : At k base reg (v :: (sysIntPopped.map u.reg ++ 128 :: frame u))) :
    Resumed u (run f sysIntEnd k) (k.reg .rax) := by
  obtain ⟨hrip, hflags, hreg, hlost⟩ := hk.sysIntEnd (f := f)
  exact ⟨hrip, hflags, hlost .rax (by decide), hreg⟩

/-- The child returns 0. -/
theorem resume_child {u : Cpu} (regs : Word64) (hrip : c.rip = h.back) (hmagic : read c.mem (kstack t 511) = 10101)
    (hown : own.length = 17) (hlocals : locals.length = h.size)
    (hc : At c (kstack t 509) reg (own ++ h.back :: h.childStack locals v u)) :
    Resumed u (h.resume t regs c) 0 ∧ (h.resume t regs c).cr3 = c.cr3 ∧
      (h.resume t regs c).mem = write c.mem (kstack t 511) 0 := by
  have hsize := h.size_le
  have hlen := length_childStack (h := h) (v := v) u hlocals
  -- The sign is above the stack.
  set c₀ : Cpu := { c with mem := write c.mem (kstack t 511) 0 } with hc₀
  have hat₀ : At c₀ (kstack t 509) reg ((own ++ [h.back]) ++ h.childStack locals v u) := by
    rw [List.append_assoc, List.singleton_append]
    refine ⟨hc.rsp, hc.holds.congr ?_ fun x hx => write_of_le ?_, hc.reg⟩
    · rw [List.length_append, List.length_cons]
      omega
    · have hsp := hc.rsp
      rw [List.length_append, List.length_cons] at hx hsp
      rw [(kstack_eq t).2] at hsp
      rw [(kstack_eq t).1]
      bv_omega
  have hpops := hat₀.pops (f := id) (List.replicate 18 .rax) (by decide) (by simp [hown])
  rw [List.map_replicate] at hpops
  set k := run id (List.replicate 18 (.pop .rax)) c₀ with hk
  have hpopped : k.mem = c₀.mem ∧ k.cr3 = c.cr3 := by
    rw [hk, ← List.map_replicate]
    exact run_pop _
  obtain ⟨hleft, hret⟩ := at_leave (h := h) (hpops.set (r := .rax) (v := 0) (by decide)) hlocals
  have hafter : h.afterFork t regs c = h.leave (k.set .rax 0) := if_pos hmagic
  have hresume : h.resume t regs c = run id sysIntEnd (h.leave (k.set .rax 0)) := by
    unfold resume
    rw [if_pos hrip, hafter]
    exact if_pos hret
  have hresumed := resumed_sysIntEnd (f := id) hleft
  rw [h.leave_rax, Cpu.set_reg_self] at hresumed
  obtain ⟨hmem, hcr3⟩ := run_sysIntEnd (f := id) (c := h.leave (k.set .rax 0))
  rw [hresume]
  refine ⟨hresumed, ?_, ?_⟩
  · rw [hcr3, h.leave_cr3]
    exact hpopped.2
  · rw [hmem, h.leave_mem]
    exact hpopped.1

/-- What is on the stack when the handler is called, from the registers on. -/
theorem called_stack {u : Cpu} (hk : Called u k base) :
    At k base (Function.update u.reg .rdi k.rsp) (u.reg .rax :: (sysIntPopped.map u.reg ++ 128 :: frame u)) := hk.holds

/-- The stack at `cur_rsp`, which is that of the child up to the frame of `fork_process`. -/
theorem at_curRsp {u : Cpu} (hk : Called u k base) (hown : own.length = 17) (hlocals : locals.length = h.size) :
    At (pushWords k (own ++ h.back :: (locals ++ [h.ret]))) base (Function.update u.reg .rdi k.rsp)
      (own ++ h.back :: h.childStack locals (u.reg .rax) u) := by
  have hsize := h.size_le
  have hpushed := (called_stack hk).pushWords (own ++ h.back :: (locals ++ [h.ret])) (by
    simp [sysIntPopped, frame, hown, hlocals]
    omega)
  have hlist : (own ++ h.back :: (locals ++ [h.ret])) ++ (u.reg .rax :: (sysIntPopped.map u.reg ++ 128 :: frame u)) =
      own ++ h.back :: h.childStack locals (u.reg .rax) u := by
    simp [childStack]
  rw [hlist] at hpushed
  exact hpushed

/-- The stack pointer there. -/
theorem curRsp_eq {u : Cpu} (hk : Called u k base) (hown : own.length = 17) (hlocals : locals.length = h.size) :
    (pushWords k (own ++ h.back :: (locals ++ [h.ret]))).rsp =
      base - 8 * BitVec.ofNat 64 (18 + (h.childStack locals (u.reg .rax) u).length) := by
  have hwords : (own ++ h.back :: h.childStack locals (u.reg .rax) u).length =
      18 + (h.childStack locals (u.reg .rax) u).length := by
    rw [List.length_append, List.length_cons, hown]
    omega
  rw [(at_curRsp hk hown hlocals).rsp, hwords]

/-- What is written until then is in the stack. -/
theorem mem_curRsp {u : Cpu} (hk : Called u k base) (hown : own.length = 17) (hlocals : locals.length = h.size)
    (hx : 8 * (18 + (h.childStack locals (u.reg .rax) u).length) ≤
      (x - (base - 8 * BitVec.ofNat 64 (18 + (h.childStack locals (u.reg .rax) u).length))).toNat) :
    (pushWords k (own ++ h.back :: (locals ++ [h.ret]))).mem x = k.mem x := by
  have hsize := h.size_le
  have hpushed : (own ++ h.back :: (locals ++ [h.ret])).length = 19 + h.size := by
    simp [hown, hlocals]
    omega
  have hksp : k.rsp = base - 8 * BitVec.ofNat 64 18 := (called_stack hk).rsp
  rw [length_childStack u hlocals] at hx
  refine pushWords_mem (by omega) ?_
  rw [hpushed, hksp]
  bv_omega

/-- The return of the parent, whose `regs` point to the registers on the stack. -/
theorem leave_parent {u : Cpu} {f : Callee} (hk : Called u k base) (hlocals : locals.length = h.size) {c : Cpu}
    {w : Word64} (hsp : c.rsp = k.rsp - 8 * BitVec.ofNat 64 (h.size + 1))
    (hholds : Holds c.mem c.rsp (h.childStack locals v u)) :
    Resumed u (run f sysIntEnd (h.leave ({ c with mem := write c.mem (k.reg .rdi) w }.set .rax w))) w := by
  have hsize := h.size_le
  have hksp : k.rsp = base - 8 * BitVec.ofNat 64 18 := (called_stack hk).rsp
  let rest := sysIntPopped.map u.reg ++ 128 :: frame u
  have hrest : rest.length = 17 := rfl
  have hlist : ∀ v, h.childStack locals v u = (locals ++ [h.ret]) ++ v :: rest := by
    intro v
    simp [childStack, rest]
  have hfront : (locals ++ [h.ret]).length = h.size + 1 := by simp [hlocals]
  have hregs : k.reg .rdi = c.rsp + 8 * BitVec.ofNat 64 (locals ++ [h.ret]).length := by
    rw [hk.rdi, hsp, hfront]
    bv_omega
  rw [hlist] at hholds
  have hset := hholds.set (v := w) (by omega)
  rw [← hregs, ← hlist] at hset
  have hat : At { c with mem := write c.mem (k.reg .rdi) w } base c.reg (h.childStack locals w u) := by
    refine ⟨?_, hset, fun _ _ => rfl⟩
    show c.rsp = _
    rw [hsp, hksp, length_childStack u hlocals]
    bv_omega
  obtain ⟨hleft, -⟩ := at_leave (h := h) (hat.set (r := .rax) (v := w) (by decide)) hlocals
  have hresumed := resumed_sysIntEnd (f := f) hleft
  rw [h.leave_rax, Cpu.set_reg_self] at hresumed
  exact hresumed

/-- What `fork` does: the parent goes on with the pid, the child is made, and nothing else changes but the stack of
the parent. -/
structure Forks (h : Handler) (parent child cr3 : Word64) (pid : BitVec 32) (u k : Cpu) (f : Callee) : Prop where
  /-- The parent. -/
  resumed : Resumed u (run f sysIntEnd (f k)) (pid.signExtend 64)
  /-- The child. -/
  fresh : ∃ locals : List Word64, locals.length = h.size ∧
    Fresh (f k).mem child cr3 h.back (h.childStack locals (u.reg .rax) u)
  /-- The sign of the parent. -/
  magic : read (f k).mem (kstack parent 511) = read k.mem (kstack parent 511)
  /-- The rest of memory. -/
  mem : ∀ x, ¬ InTask parent x → ¬ InTask child x → (f k).mem x = k.mem x

/-- `fork` in a task without the sign. -/
theorem forks {u : Cpu} (cr3 : Word64) (pid : BitVec 32) (hdisj : Disjoint child parent)
    (hk : Called u k (kstack parent 509))
    (hmagic : read k.mem (kstack parent 511) ≠ 10101) (hown : own.length = 17) (hlocals : locals.length = h.size) :
    Forks h parent child cr3 pid u k (h.fork parent child cr3 pid locals own) := by
  have hsize := h.size_le
  obtain ⟨h511, h509⟩ := kstack_eq parent
  have hlen := length_childStack (h := h) (v := u.reg .rax) u hlocals
  have hksp : k.rsp = kstack parent 509 - 8 * BitVec.ofNat 64 18 := (called_stack hk).rsp
  have hat := at_curRsp hk hown hlocals
  have hsp := curRsp_eq hk hown hlocals
  have hcmem := fun x => mem_curRsp (x := x) hk hown hlocals
  obtain ⟨c, hc⟩ : ∃ c, c = pushWords k (own ++ h.back :: (locals ++ [h.ret])) := ⟨_, rfl⟩
  rw [← hc] at hat hsp hcmem
  obtain ⟨ws, hws⟩ : ∃ ws, ws = h.childStack locals (u.reg .rax) u := ⟨_, rfl⟩
  rw [← hws] at hat hsp hcmem hlen
  obtain ⟨m, hm⟩ : ∃ m, m = forkProcess c.mem parent child cr3 c.rsp := ⟨_, rfl⟩
  have hfresh : Fresh m child cr3 h.back ws := hm ▸ fresh_forkProcess hdisj hown (by omega) hsp hat.holds
  have hholds : Holds m (c.rsp + 8 * 18) ws := hm ▸ holds_forkProcess hdisj hown (by omega) hsp hat.holds
  have hmagic' : read m (kstack parent 511) = read k.mem (kstack parent 511) := by
    rw [hm, h511, read_forkProcess hdisj (by decide)]
    refine read_congr fun x hx => hcmem x ?_
    rw [h509]
    bv_omega
  -- The parent does not have the sign.
  have hpid : ((pid.setWidth 64).setWidth 32).signExtend 64 = pid.signExtend 64 := by
    rw [BitVec.setWidth_setWidth_of_le _ (by decide), BitVec.setWidth_eq]
  obtain ⟨c', hc'⟩ : ∃ c' : Cpu, c' =
      { (c.set .rsp (c.rsp + 8 * 18)).set .rax (pid.setWidth 64) with rip := h.back, mem := m } := ⟨_, rfl⟩
  have hrsp' : c'.rsp = c.rsp + 8 * 18 := hc' ▸ rfl
  have hmem' : c'.mem = m := hc' ▸ rfl
  have hrax' : c'.reg .rax = pid.setWidth 64 := hc' ▸ rfl
  have hfork : h.fork parent child cr3 pid locals own k =
      h.leave ({ c' with mem := write m (k.reg .rdi) (pid.signExtend 64) }.set .rax (pid.signExtend 64)) := by
    have hstart : h.fork parent child cr3 pid locals own k = h.afterFork parent (k.reg .rdi) c' := by
      rw [hc', hm, hc]
      rfl
    have hne : read c'.mem (kstack parent 511) ≠ 10101 := by
      rw [hmem', hmagic']
      exact hmagic
    rw [hstart, afterFork, if_neg hne]
    dsimp only
    rw [hrax', hpid, hmem']
  have hwrite : (h.fork parent child cr3 pid locals own k).mem = write m (k.reg .rdi) (pid.signExtend 64) := by
    rw [hfork, h.leave_mem]
    rfl
  have hslot : ∀ x, ¬ InTask parent x → 8 ≤ (x - k.reg .rdi).toNat := by
    intro x hx
    rw [hk.rdi, hksp, h509]
    rw [InTask] at hx
    bv_omega
  rw [← hmem'] at hfork
  refine ⟨?_, ⟨locals, hlocals, ?_⟩, ?_, fun x hx hx' => ?_⟩
  · rw [hfork]
    refine leave_parent hk hlocals (v := u.reg .rax) ?_ ?_
    · rw [hrsp', hsp, hksp, hlen]
      bv_omega
    · rw [hrsp', hmem', ← hws]
      exact hholds
  · rw [hwrite, ← hws]
    exact hfresh.congr (by omega) fun x hx => write_of_le (hslot x fun hp => hdisj x hx hp)
  · rw [hwrite, ← hmagic', h511, hk.rdi, hksp, h509]
    refine read_write_of_apart ⟨?_, ?_⟩ <;> bv_omega
  · rw [hwrite, write_of_le (hslot x hx), hm, forkProcess_of_not hx']
    refine hcmem x ?_
    rw [h509]
    rw [InTask] at hx
    bv_omega

end Handler

end Nascent.Asm
