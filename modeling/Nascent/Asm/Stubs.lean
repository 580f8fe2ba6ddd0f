import Nascent.Asm.Machine

/-!
# The interrupt stubs

The five stubs of `timer.s`, `keyboard.s`, and `idt.s`, with what the processor pushes before them.
A stub saves registers, calls its C handler, restores them, and returns with `iretq`. The handler may
be any function that keeps to the calling convention.

`timer`, `isr_handler`, and `pgfault` give back all registers as they were. `keyboard` pops the
registers in the order in which it pushed them, so `rax` and `rbp` change places, and so do `rbx` and
`rdi`, and `rcx` and `rsi`; it does not save `r8` to `r11` at all. `int13` leaves the error code on
the stack, so `iretq` takes it for the address to return to.
-/

namespace Nascent.Asm

open Memory

/-- The registers that a function keeps under the calling convention, with the stack pointer. -/
def calleeSaved : List Reg := [.rbx, .rsp, .rbp, .r12, .r13, .r14, .r15]

/-- A function that keeps to the calling convention: it keeps the registers that it has to, and the
stack of its callers, from the stack pointer at the call up to `base`. -/
structure Callee.Abi (f : Callee) (base : Word64) : Prop where
  /-- The registers that a function keeps. -/
  reg : ∀ c, ∀ r ∈ calleeSaved, (f c).reg r = c.reg r
  /-- The stack of the callers. -/
  mem : ∀ c x, (x - c.rsp).toNat < (base - c.rsp).toNat → (f c).mem x = c.mem x

/-- The words that the processor pushes at an interrupt, from the last to the first. -/
def frame (c : Cpu) : List Word64 :=
  [c.rip, c.cs.setWidth 64, c.rflags, c.rsp, c.ss.setWidth 64]

/-- An interrupt, or an exception with its error code, from the stack pointer `base`. The gates of
the kernel are interrupt gates of segment 8. -/
def interrupt (c : Cpu) (base : Word64) (error : Option Word64) : Cpu :=
  let k := { c.set .rsp base with rflags := c.rflags &&& ~~~interruptFlag, cs := 8 }
  let k := ((((k.push (c.ss.setWidth 64)).push c.rsp).push c.rflags).push (c.cs.setWidth 64)).push c.rip
  match error with
  | none => k
  | some error => k.push error

/-- The stubs. -/
inductive Stub
  | timer
  | keyboard
  | isrHandler
  | pgfault
  | int13
deriving DecidableEq

namespace Stub

/-- The registers that `timer`, `isr_handler`, `pgfault`, and `int13` push, in this order. -/
def saved : List Reg :=
  [.rdi, .rsi, .rax, .rbx, .rcx, .rdx, .rbp, .r8, .r9, .r10, .r11, .r12, .r13, .r14, .r15]

/-- The code of a stub. -/
def code : Stub → List Instr
  | .timer =>
    [.cli,
      .push .rdi, .push .rsi, .push .rax, .push .rbx, .push .rcx, .push .rdx, .push .rbp,
      .push .r8, .push .r9, .push .r10, .push .r11, .push .r12, .push .r13, .push .r14, .push .r15,
      .call,
      .pop .r15, .pop .r14, .pop .r13, .pop .r12, .pop .r11, .pop .r10, .pop .r9, .pop .r8,
      .pop .rbp, .pop .rdx, .pop .rcx, .pop .rbx, .pop .rax, .pop .rsi, .pop .rdi,
      .iretq]
  | .keyboard =>
    [.cli,
      .push .rax, .push .rbx, .push .rcx, .push .rdx, .push .rsi, .push .rdi, .push .rbp,
      .call,
      .pop .rax, .pop .rbx, .pop .rcx, .pop .rdx, .pop .rsi, .pop .rdi, .pop .rbp,
      .iretq]
  | .isrHandler =>
    [.cli,
      .push .rdi, .push .rsi, .push .rax, .push .rbx, .push .rcx, .push .rdx, .push .rbp,
      .push .r8, .push .r9, .push .r10, .push .r11, .push .r12, .push .r13, .push .r14, .push .r15,
      .push .rsp, .mov .rsp .rdi, .call, .pop .rsp,
      .pop .r15, .pop .r14, .pop .r13, .pop .r12, .pop .r11, .pop .r10, .pop .r9, .pop .r8,
      .pop .rbp, .pop .rdx, .pop .rcx, .pop .rbx, .pop .rax, .pop .rsi, .pop .rdi,
      .iretq]
  | .pgfault =>
    [.cli,
      .push .rdi, .push .rsi, .push .rax, .push .rbx, .push .rcx, .push .rdx, .push .rbp,
      .push .r8, .push .r9, .push .r10, .push .r11, .push .r12, .push .r13, .push .r14, .push .r15,
      .push .rsp, .load 0x80 .rsp .rdi, .call, .pop .rsp,
      .pop .r15, .pop .r14, .pop .r13, .pop .r12, .pop .r11, .pop .r10, .pop .r9, .pop .r8,
      .pop .rbp, .pop .rdx, .pop .rcx, .pop .rbx, .pop .rax, .pop .rsi, .pop .rdi,
      .add 8 .rsp, .iretq]
  | .int13 =>
    [.cli,
      .push .rdi, .push .rsi, .push .rax, .push .rbx, .push .rcx, .push .rdx, .push .rbp,
      .push .r8, .push .r9, .push .r10, .push .r11, .push .r12, .push .r13, .push .r14, .push .r15,
      .push .rsp, .mov .rsp .rdi, .call, .pop .rsp,
      .pop .r15, .pop .r14, .pop .r13, .pop .r12, .pop .r11, .pop .r10, .pop .r9, .pop .r8,
      .pop .rbp, .pop .rdx, .pop .rcx, .pop .rbx, .pop .rax, .pop .rsi, .pop .rdi,
      .iretq]

/-- The error code that is on the stack of a stub. -/
def error : Stub → Word64 → Option Word64
  | .pgfault, e => some e
  | .int13, e => some e
  | _, _ => none

/-- An interrupt from its start to the return. -/
def handle (stub : Stub) (f : Callee) (c : Cpu) (base e : Word64) : Cpu :=
  run f stub.code (interrupt c base (stub.error e))

end Stub

/-- The state after an interrupt is that before it, as far as a program sees it. -/
structure Restored (c c' : Cpu) : Prop where
  /-- The general registers. -/
  reg : ∀ r, c'.reg r = c.reg r
  /-- `rip`. -/
  rip : c'.rip = c.rip
  /-- `rflags`. -/
  rflags : c'.rflags = c.rflags

variable {c k : Cpu} {f : Callee} {base e v : Word64} {reg : Reg → Word64} {ws : List Word64}

/-! ## The parts of a stub -/

/-- What is on the stack at the start of a stub. -/
theorem at_interrupt (c : Cpu) (base : Word64) (error : Option Word64) :
    At (interrupt c base error) base c.reg (error.toList ++ frame c) := by
  have hstart : At { c.set .rsp base with rflags := c.rflags &&& ~~~interruptFlag, cs := 8 }
      base c.reg [] := by
    refine ⟨?_, trivial, fun r hr => Cpu.set_reg_of_ne hr⟩
    show (c.set .rsp base).reg .rsp = base - 8 * BitVec.ofNat 64 0
    rw [Cpu.set_reg_self]
    simp
  have hframe := ((((hstart.pushWord (v := c.ss.setWidth 64) (by simp)).pushWord
    (v := c.rsp) (by simp)).pushWord (v := c.rflags) (by simp)).pushWord
    (v := c.cs.setWidth 64) (by simp)).pushWord (v := c.rip) (by simp)
  cases error with
  | none => exact hframe
  | some e => exact hframe.pushWord (by simp)

namespace At

/-- `cli`. -/
theorem cli (h : At k base reg ws) : At (exec f k .cli) base reg ws := ⟨h.rsp, h.holds, h.reg⟩

/-- The call of the handler keeps the stack and the registers that a function keeps. -/
theorem call (h : At k base reg ws) (hf : f.Abi base) (hlen : ws.length < 1000) :
    ∃ reg', (∀ r ∈ calleeSaved, r ≠ .rsp → reg' r = reg r) ∧ At (exec f k .call) base reg' ws := by
  have hsp : (f k).rsp = k.rsp := hf.reg k .rsp (by decide)
  refine ⟨(f k).reg, fun r hr hne => (hf.reg k r hr).trans (h.reg r hne), hsp.trans h.rsp, ?_,
    fun _ _ => rfl⟩
  show Holds (f k).mem (f k).rsp ws
  rw [hsp]
  refine h.holds.congr (by omega) fun x hx => hf.mem k x ?_
  have hdist : (base - k.rsp).toNat = 8 * ws.length := by
    rw [h.rsp]
    bv_omega
  rw [hdist]
  exact hx

/-- `add $8, %rsp`. -/
theorem add_rsp (h : At k base reg (v :: ws)) : At (exec f k (.add 8 .rsp)) base reg ws := by
  have hsp : (exec f k (.add 8 .rsp)).rsp = k.rsp + 8 := Cpu.set_reg_self (c := k) (r := .rsp)
  refine ⟨?_, ?_, fun r hr => (Cpu.set_reg_of_ne hr).trans (h.reg r hr)⟩
  · rw [hsp, h.rsp, List.length_cons]
    bv_omega
  · rw [hsp]
    exact h.holds.2

/-- `iretq`. -/
theorem iretq {rip cs rflags rsp : Word64} (h : At k base reg (rip :: cs :: rflags :: rsp :: ws)) :
    (exec f k .iretq).rip = rip ∧ (exec f k .iretq).rflags = rflags ∧
      (exec f k .iretq).rsp = rsp ∧ ∀ r, r ≠ .rsp → (exec f k .iretq).reg r = reg r := by
  obtain ⟨h0, -, h2, h3, -⟩ := h.holds
  rw [show k.rsp + 8 + 8 = k.rsp + 16 by bv_omega] at h2 h3
  rw [show k.rsp + 16 + 8 = k.rsp + 24 by bv_omega] at h3
  exact ⟨h0, h2, (Cpu.set_reg_self (c := k) (r := .rsp)).trans h3, fun r hr =>
    (Cpu.set_reg_of_ne hr).trans (h.reg r hr)⟩

/-- A return with `iretq` to the interrupted program, with its registers. -/
theorem restored (ws : List Word64) (h : At k base reg (frame c ++ ws)) (hreg : ∀ r, r ≠ .rsp → reg r = c.reg r) :
    Restored c (exec f k .iretq) := by
  obtain ⟨hrip, hflags, hsp, hregs⟩ := h.iretq (f := f)
  refine ⟨fun r => ?_, hrip, hflags⟩
  by_cases hr : r = .rsp
  · rw [hr]
    exact hsp
  · exact (hregs r hr).trans (hreg r hr)

/-- The registers are popped that were pushed at the start. -/
theorem pop_saved {reg' : Reg → Word64} (h : At k base reg' ((Stub.saved.map reg).reverse ++ ws)) :
    ∃ reg'', (∀ r, r ≠ .rsp → reg'' r = reg r) ∧
      At (run f (Stub.saved.reverse.map .pop) k) base reg'' ws := by
  rw [← List.map_reverse] at h
  refine ⟨_, fun r hr => popped_map ?_, h.pops _ (by decide) (by simp)⟩
  cases r <;> first | exact absurd rfl hr | decide

/-- The part of `timer` between `cli` and `iretq`. -/
theorem save_call (h : At k base reg ws) (hf : f.Abi base) (hlen : ws.length < 100) :
    ∃ reg', (∀ r, r ≠ .rsp → reg' r = reg r) ∧
      At (run f (Stub.saved.map .push ++ .call :: Stub.saved.reverse.map .pop) k) base reg' ws := by
  have hpushed := h.pushes (f := f) Stub.saved (by decide) (by simp [Stub.saved]; omega)
  obtain ⟨reg', -, hcalled⟩ := hpushed.call hf (by simp [Stub.saved]; omega)
  rw [run_append, run_cons]
  exact hcalled.pop_saved

/-- The same part of the stubs that also push the stack pointer, and set `rdi` before the call. -/
theorem save_rsp_call {i : Instr} (h : At k base reg ws) (hf : f.Abi base) (hlen : ws.length < 100)
    (hi : ∀ k, ∃ v, exec f k i = k.set .rdi v) :
    ∃ reg', (∀ r, r ≠ .rsp → reg' r = reg r) ∧
      At (run f (Stub.saved.map .push ++
        .push .rsp :: i :: .call :: .pop .rsp :: Stub.saved.reverse.map .pop) k) base reg' ws := by
  have hpushed := h.pushes (f := f) Stub.saved (by decide) (by simp [Stub.saved]; omega)
  have hrsp := hpushed.push_rsp (f := f) (by simp [Stub.saved]; omega)
  obtain ⟨v, hv⟩ := hi (exec f (run f (Stub.saved.map .push) k) (.push .rsp))
  have hset := hrsp.set (r := .rdi) (v := v) (by decide)
  rw [← hv] at hset
  obtain ⟨reg', -, hcalled⟩ := hset.call hf (by simp [Stub.saved]; omega)
  have hpop := hcalled.pop_rsp (f := f)
  rw [run_append, run_cons, run_cons, run_cons, run_cons]
  exact hpop.pop_saved

end At

/-! ## The stubs -/

/-- `timer` restores the interrupted program. -/
theorem timer_restored (hf : f.Abi base) : Restored c (Stub.timer.handle f c base e) := by
  obtain ⟨reg', hreg, hend⟩ := (at_interrupt c base none).cli (f := f) |>.save_call hf (by simp [frame])
  have hcode : Stub.timer.code =
      .cli :: ((Stub.saved.map .push ++ .call :: Stub.saved.reverse.map .pop) ++ [.iretq]) := rfl
  rw [Stub.handle, hcode, run_cons, run_append]
  exact At.restored (f := f) [] hend hreg

/-- `isr_handler` restores the interrupted program. -/
theorem isrHandler_restored (hf : f.Abi base) :
    Restored c (Stub.isrHandler.handle f c base e) := by
  obtain ⟨reg', hreg, hend⟩ := ((at_interrupt c base none).cli (f := f)).save_rsp_call hf
    (by simp [frame]) (i := .mov .rsp .rdi) fun k => ⟨_, rfl⟩
  have hcode : Stub.isrHandler.code = .cli :: ((Stub.saved.map .push ++
      .push .rsp :: .mov .rsp .rdi :: .call :: .pop .rsp :: Stub.saved.reverse.map .pop) ++
      [.iretq]) := rfl
  rw [Stub.handle, hcode, run_cons, run_append]
  exact At.restored (f := f) [] hend hreg

/-- `pgfault` restores the interrupted program, past the error code. -/
theorem pgfault_restored (hf : f.Abi base) : Restored c (Stub.pgfault.handle f c base e) := by
  obtain ⟨reg', hreg, hend⟩ := ((at_interrupt c base (some e)).cli (f := f)).save_rsp_call hf
    (by simp [frame]) (i := .load 0x80 .rsp .rdi) fun k => ⟨_, rfl⟩
  have hcode : Stub.pgfault.code = .cli :: ((Stub.saved.map .push ++
      .push .rsp :: .load 0x80 .rsp .rdi :: .call :: .pop .rsp :: Stub.saved.reverse.map .pop) ++
      [.add 8 .rsp, .iretq]) := rfl
  rw [Stub.handle, hcode, run_cons, run_append]
  exact At.restored (f := f) [] (hend.add_rsp (f := f)) hreg

/-- `int13` returns to the error code, with the code segment for the flags and the flags for the
stack pointer. -/
theorem int13_returns (hf : f.Abi base) : (Stub.int13.handle f c base e).rip = e ∧
    (Stub.int13.handle f c base e).rflags = c.cs.setWidth 64 ∧
    (Stub.int13.handle f c base e).rsp = c.rflags ∧
    ∀ r, r ≠ .rsp → (Stub.int13.handle f c base e).reg r = c.reg r := by
  obtain ⟨reg', hreg, hend⟩ := ((at_interrupt c base (some e)).cli (f := f)).save_rsp_call hf
    (by simp [frame]) (i := .mov .rsp .rdi) fun k => ⟨_, rfl⟩
  have hcode : Stub.int13.code = .cli :: ((Stub.saved.map .push ++
      .push .rsp :: .mov .rsp .rdi :: .call :: .pop .rsp :: Stub.saved.reverse.map .pop) ++
      [.iretq]) := rfl
  rw [Stub.handle, hcode, run_cons, run_append]
  obtain ⟨hrip, hflags, hsp, hregs⟩ := hend.iretq (f := f)
  exact ⟨hrip, hflags, hsp, fun r hr => (hregs r hr).trans (hreg r hr)⟩

/-- The registers that `keyboard` pushes, and pops in the same order. -/
def keyboardSaved : List Reg := [.rax, .rbx, .rcx, .rdx, .rsi, .rdi, .rbp]

/-- The call of the handler and the pops of `keyboard`. -/
theorem keyboard_pops (h : At k base reg ((keyboardSaved.map reg).reverse ++ frame c))
    (hf : f.Abi base) {r : Reg} (hr : r ≠ .rsp) :
    (run f (.call :: (keyboardSaved.map .pop ++ [.iretq])) k).reg r =
      popped (f k).reg keyboardSaved (keyboardSaved.map reg).reverse r := by
  have hcalled : At (exec f k .call) base (f k).reg
      ((keyboardSaved.map reg).reverse ++ frame c) := by
    obtain ⟨reg', -, hsp, hholds, -⟩ := h.call hf (by simp [keyboardSaved, frame])
    exact ⟨hsp, hholds, fun _ _ => rfl⟩
  have hpopped := hcalled.pops (f := f) keyboardSaved (by decide) (by simp)
  rw [run_cons, run_append]
  exact (hpopped.iretq (f := f)).2.2.2 r hr

/-- `keyboard` gives the registers that it saved the values in the opposite order, and the others
those that the handler leaves. -/
theorem keyboard_returns (hf : f.Abi base) : ∃ k : Cpu,
    (∀ r, r ≠ .rsp → k.reg r = c.reg r) ∧ ∀ r, r ≠ .rsp →
      (Stub.keyboard.handle f c base e).reg r =
        popped (f k).reg keyboardSaved (keyboardSaved.map c.reg).reverse r := by
  have hpushed := ((at_interrupt c base none).cli (f := f)).pushes (f := f) keyboardSaved
    (by decide) (by simp [frame, keyboardSaved])
  have hcode : Stub.keyboard.code =
      .cli :: (keyboardSaved.map .push ++ .call :: (keyboardSaved.map .pop ++ [.iretq])) := rfl
  refine ⟨_, hpushed.reg, fun r hr => ?_⟩
  rw [Stub.handle, hcode, run_cons, run_append]
  exact keyboard_pops hpushed hf hr

/-- The stub restores the interrupted program. -/
def Stub.Transparent (stub : Stub) (c : Cpu) (e : Word64) : Prop :=
  match stub with
  | .keyboard => False
  | .int13 => e = c.rip ∧ c.cs.setWidth 64 = c.rflags ∧ c.rflags = c.rsp
  | _ => True

/-- A handler that changes `r8`, as it may. -/
def clobberR8 : Callee := fun c => c.set .r8 (c.reg .r8 + 1)

theorem clobberR8_abi (base : Word64) : clobberR8.Abi base where
  reg c r hr := by
    refine Cpu.set_reg_of_ne fun hc => ?_
    rw [hc] at hr
    exact absurd hr (by decide)
  mem _ _ _ := rfl

/-- Under every handler that keeps to the calling convention, a stub restores the interrupted program
if and only if it is `timer`, `isr_handler`, or `pgfault`, or it is `int13` and the words that it
returns with happen to be the right ones. -/
theorem stub_restores_iff (stub : Stub) (c : Cpu) (base e : Word64) :
    (∀ f : Callee, f.Abi base → Restored c (stub.handle f c base e)) ↔ stub.Transparent c e := by
  cases stub with
  | timer => exact ⟨fun _ => trivial, fun _ _ hf => timer_restored hf⟩
  | isrHandler => exact ⟨fun _ => trivial, fun _ _ hf => isrHandler_restored hf⟩
  | pgfault => exact ⟨fun _ => trivial, fun _ _ hf => pgfault_restored hf⟩
  | keyboard =>
    refine ⟨fun hall => ?_, False.elim⟩
    -- A handler that changes `r8` shows.
    obtain ⟨k, hk, hregs⟩ := keyboard_returns (c := c) (e := e) (clobberR8_abi base)
    have hr8 := hregs .r8 (by decide)
    rw [(hall clobberR8 (clobberR8_abi base)).reg, popped_of_notMem (by decide), clobberR8,
      Cpu.set_reg_self, hk .r8 (by decide)] at hr8
    bv_omega
  | int13 =>
    constructor
    · intro hall
      have hid : Callee.Abi id base := ⟨fun _ _ _ => rfl, fun _ _ _ => rfl⟩
      obtain ⟨hrip, hflags, hsp, -⟩ := int13_returns (c := c) (e := e) hid
      have hres := hall id hid
      exact ⟨hrip.symm.trans hres.rip, hflags.symm.trans hres.rflags,
        hsp.symm.trans (hres.reg .rsp)⟩
    · rintro ⟨hrip', hflags', hsp'⟩ f hf
      obtain ⟨hrip, hflags, hsp, hregs⟩ := int13_returns (c := c) (e := e) hf
      refine ⟨fun r => ?_, hrip.trans hrip', hflags.trans hflags'⟩
      by_cases hr : r = .rsp
      · rw [hr]
        exact hsp.trans hsp'
      · exact hregs r hr

/-- A key is pressed while `rax` is 1 and the other registers are 0, and the handler changes no
register: `rax` is 0 afterwards. -/
theorem keyboard_corrupts : ¬ ∀ (stub : Stub) (c : Cpu) (base e : Word64) (f : Callee),
    f.Abi base → Restored c (stub.handle f c base e) := by
  intro hall
  set c : Cpu := ⟨fun r => if r = .rax then 1 else 0, 0, 0x200, 43, 35, 0, fun _ => 0⟩ with hc
  have hid : Callee.Abi id 0 := ⟨fun _ _ _ => rfl, fun _ _ _ => rfl⟩
  obtain ⟨k, -, hregs⟩ := keyboard_returns (c := c) (e := 0) hid
  have hrax := hregs .rax (by decide)
  rw [(hall .keyboard c 0 0 id hid).reg] at hrax
  simp [hc, popped, keyboardSaved] at hrax

end Nascent.Asm
