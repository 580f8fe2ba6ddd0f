import Nascent.Lib.Memory

/-!
# The processor

The part of an x86-64 processor that the assembly files of the kernel use: the sixteen general
registers, the flags, the segment selectors, `cr3`, and a memory of bytes. An assembly routine is the
list of its instructions in the order of the source, and none of them jumps, so a routine is run from
its first instruction to its last. A `call` runs a C function, which is a parameter.

`At c base reg ws` describes a state of a routine that works on a stack: the words `ws` have been
pushed since the stack pointer was `base`, and the other registers have the values `reg`. Each
instruction is one lemma about it.
-/

namespace Nascent.Asm

open Memory

/-- The general registers. -/
inductive Reg
  | rax | rbx | rcx | rdx | rsi | rdi | rsp | rbp | r8 | r9 | r10 | r11 | r12 | r13 | r14 | r15
deriving DecidableEq

/-- The state of the processor. -/
structure Cpu where
  /-- The general registers. -/
  reg : Reg → Word64
  /-- `rip`. -/
  rip : Word64
  /-- `rflags`. -/
  rflags : Word64
  /-- The selector of the code segment. -/
  cs : BitVec 16
  /-- The selector of the stack segment. -/
  ss : BitVec 16
  /-- `cr3`. -/
  cr3 : Word64
  /-- The memory. -/
  mem : Mem

/-- A C function that is called, from the state at the call to the state after its return. -/
abbrev Callee := Cpu → Cpu

/-- The instructions. -/
inductive Instr
  /-- `cli`. -/
  | cli
  /-- `pushq %r`. -/
  | push (r : Reg)
  /-- `popq %r`. -/
  | pop (r : Reg)
  /-- `pushfq`. -/
  | pushfq
  /-- `popfq`. -/
  | popfq
  /-- `movq %src, %dst`. -/
  | mov (src dst : Reg)
  /-- `movq %src, disp(%base)`. -/
  | store (src : Reg) (disp : Word64) (base : Reg)
  /-- `movq disp(%base), %dst`. -/
  | load (disp : Word64) (base dst : Reg)
  /-- `movq %cr3, %dst`. -/
  | readCr3 (dst : Reg)
  /-- `movq %src, %cr3`. -/
  | writeCr3 (src : Reg)
  /-- `add $n, %dst`. -/
  | add (n : Word64) (dst : Reg)
  /-- `call`. -/
  | call
  /-- `ret`. -/
  | ret
  /-- `iretq`. -/
  | iretq

namespace Cpu

/-- The stack pointer. -/
def rsp (c : Cpu) : Word64 := c.reg .rsp

/-- A register is set. -/
def set (c : Cpu) (r : Reg) (v : Word64) : Cpu := { c with reg := Function.update c.reg r v }

/-- A word is pushed. -/
def push (c : Cpu) (v : Word64) : Cpu :=
  { c.set .rsp (c.rsp - 8) with mem := write c.mem (c.rsp - 8) v }

/-- A word is popped into a register, after the stack pointer was moved. -/
def pop (c : Cpu) (r : Reg) : Cpu := (c.set .rsp (c.rsp + 8)).set r (read c.mem c.rsp)

end Cpu

/-- The interrupt flag. -/
def interruptFlag : Word64 := 0x200

/-- The flags that an addition sets, in their places: `CF`, `PF`, `AF`, `ZF`, `SF`, and `OF`. -/
def addFlags (flags a b : Word64) : Word64 :=
  let sum := a + b
  let parity := (sum.setWidth 8).cpop.toNat % 2 = 0
  let bit (n : ℕ) (p : Bool) : Word64 := if p then 1 <<< n else 0
  (flags &&& ~~~0x8d5) ||| bit 0 (sum < a) ||| bit 2 parity |||
    bit 4 ((a &&& 15).toNat + (b &&& 15).toNat ≥ 16) ||| bit 6 (sum = 0) ||| bit 7 sum.msb |||
    bit 11 (a.msb = b.msb && sum.msb ≠ a.msb)

/-- One instruction. -/
def exec (f : Callee) (c : Cpu) : Instr → Cpu
  | .cli => { c with rflags := c.rflags &&& ~~~interruptFlag }
  | .push r => c.push (c.reg r)
  | .pop r => c.pop r
  -- Two of the flags are cleared in the copy on the stack.
  | .pushfq => c.push (c.rflags &&& 0xfcffff)
  | .popfq => { c.set .rsp (c.rsp + 8) with rflags := read c.mem c.rsp }
  | .mov src dst => c.set dst (c.reg src)
  | .store src disp base => { c with mem := write c.mem (c.reg base + disp) (c.reg src) }
  | .load disp base dst => c.set dst (read c.mem (c.reg base + disp))
  | .readCr3 dst => c.set dst c.cr3
  | .writeCr3 src => { c with cr3 := c.reg src }
  | .add n dst => { c.set dst (c.reg dst + n) with rflags := addFlags c.rflags (c.reg dst) n }
  | .call => f c
  | .ret => { c.set .rsp (c.rsp + 8) with rip := read c.mem c.rsp }
  | .iretq =>
    { c.set .rsp (read c.mem (c.rsp + 24)) with
      rip := read c.mem c.rsp
      cs := (read c.mem (c.rsp + 8)).setWidth 16
      rflags := read c.mem (c.rsp + 16)
      ss := (read c.mem (c.rsp + 32)).setWidth 16 }

/-- A routine. -/
def run (f : Callee) (is : List Instr) (c : Cpu) : Cpu := is.foldl (exec f) c

@[simp] theorem run_nil {f : Callee} {c : Cpu} : run f [] c = c := rfl

@[simp] theorem run_cons {f : Callee} {c : Cpu} {i : Instr} {is : List Instr} :
    run f (i :: is) c = run f is (exec f c i) := rfl

theorem run_append {f : Callee} {c : Cpu} {is js : List Instr} :
    run f (is ++ js) c = run f js (run f is c) := List.foldl_append ..

namespace Cpu

variable {c : Cpu} {r r' : Reg} {v : Word64}

@[simp] theorem set_reg_self : (c.set r v).reg r = v := Function.update_self ..

theorem set_reg_of_ne (h : r' ≠ r) : (c.set r v).reg r' = c.reg r' := Function.update_of_ne h ..

@[simp] theorem push_rsp : (c.push v).rsp = c.rsp - 8 := set_reg_self (c := c) (r := .rsp)

theorem push_reg_of_ne (h : r ≠ .rsp) : (c.push v).reg r = c.reg r := Function.update_of_ne h ..

@[simp] theorem push_mem : (c.push v).mem = write c.mem (c.rsp - 8) v := rfl

@[simp] theorem pop_mem : (c.pop r).mem = c.mem := rfl

@[simp] theorem pop_reg_self : (c.pop r).reg r = read c.mem c.rsp := Function.update_self ..

theorem pop_rsp (h : r ≠ .rsp) : (c.pop r).rsp = c.rsp + 8 := by
  rw [pop, rsp, set_reg_of_ne h.symm, set_reg_self]

theorem pop_reg_of_ne (h : r' ≠ r) (hr : r' ≠ .rsp) : (c.pop r).reg r' = c.reg r' := by
  rw [pop, set_reg_of_ne h, set_reg_of_ne hr]

end Cpu

/-! ## Routines that work on a stack -/

/-- The words `ws` are on the stack, below `base`, and the other registers have the values `reg`. -/
structure At (c : Cpu) (base : Word64) (reg : Reg → Word64) (ws : List Word64) : Prop where
  /-- The stack pointer. -/
  rsp : c.rsp = base - 8 * BitVec.ofNat 64 ws.length
  /-- The words on the stack. -/
  holds : Holds c.mem c.rsp ws
  /-- The other registers. -/
  reg : ∀ r, r ≠ .rsp → c.reg r = reg r

/-- The registers after a sequence of pops. -/
def popped (reg : Reg → Word64) : List Reg → List Word64 → Reg → Word64
  | r :: rs, v :: vs => popped (Function.update reg r v) rs vs
  | _, _ => reg

/-- A register that is not popped stays. -/
theorem popped_of_notMem {reg : Reg → Word64} {r : Reg} : ∀ {rs : List Reg} {vs : List Word64},
    r ∉ rs → popped reg rs vs r = reg r
  | [], _, _ => by rw [popped]; simp
  | _ :: _, [], _ => by rw [popped]; simp
  | r' :: rs, v :: vs, h => by
    rw [List.mem_cons, not_or] at h
    rw [popped, popped_of_notMem h.2, Function.update_of_ne h.1]

/-- Registers that are popped in the order in which their values are on the stack have these
values. -/
theorem popped_map {reg reg' : Reg → Word64} {r : Reg} : ∀ {rs : List Reg}, r ∈ rs →
    popped reg' rs (rs.map reg) r = reg r
  | r' :: rs, h => by
    rw [List.map_cons, popped]
    by_cases hmem : r ∈ rs
    · exact popped_map hmem
    · obtain rfl := (List.mem_cons.mp h).resolve_right hmem
      rw [popped_of_notMem hmem, Function.update_self]

namespace At

variable {c : Cpu} {base v : Word64} {reg : Reg → Word64} {ws vs : List Word64} {r : Reg}
  {rs : List Reg} {f : Callee}

/-- A word is pushed. -/
theorem pushWord (h : At c base reg ws) (hlen : ws.length < 1000) :
    At (c.push v) base reg (v :: ws) where
  rsp := by
    rw [Cpu.push_rsp, h.rsp, List.length_cons]
    bv_omega
  holds := by
    rw [Cpu.push_rsp, Cpu.push_mem]
    exact h.holds.push (by omega)
  reg r hr := by
    rw [Cpu.push_reg_of_ne hr]
    exact h.reg r hr

/-- `pushq` of a register other than the stack pointer. -/
theorem push (h : At c base reg ws) (hr : r ≠ .rsp) (hlen : ws.length < 1000) :
    At (exec f c (.push r)) base reg (reg r :: ws) := by
  rw [← h.reg r hr]
  exact h.pushWord hlen

/-- `pushq %rsp`. -/
theorem push_rsp (h : At c base reg ws) (hlen : ws.length < 1000) :
    At (exec f c (.push .rsp)) base reg ((base - 8 * BitVec.ofNat 64 ws.length) :: ws) := by
  rw [← h.rsp]
  exact h.pushWord hlen

/-- `popq` into a register other than the stack pointer. -/
theorem pop (h : At c base reg (v :: ws)) (hr : r ≠ .rsp) :
    At (exec f c (.pop r)) base (Function.update reg r v) ws where
  rsp := by
    rw [exec, Cpu.pop_rsp hr, h.rsp, List.length_cons]
    bv_omega
  holds := by
    rw [exec, Cpu.pop_rsp hr, Cpu.pop_mem]
    exact h.holds.2
  reg r' hr' := by
    by_cases hrr : r' = r
    · rw [hrr, exec, Cpu.pop_reg_self, Function.update_self]
      exact h.holds.1
    · rw [exec, Cpu.pop_reg_of_ne hrr hr', Function.update_of_ne hrr]
      exact h.reg r' hr'

/-- `popq %rsp` of the stack pointer as it was before `pushq %rsp`. -/
theorem pop_rsp (h : At c base reg ((base - 8 * BitVec.ofNat 64 ws.length) :: ws)) :
    At (exec f c (.pop .rsp)) base reg ws := by
  have hsp : (exec f c (.pop .rsp)).rsp = base - 8 * BitVec.ofNat 64 ws.length :=
    (Cpu.pop_reg_self (r := .rsp)).trans h.holds.1
  refine ⟨hsp, ?_, fun r hr => ?_⟩
  · have heq : c.rsp + 8 = base - 8 * BitVec.ofNat 64 ws.length := by
      rw [h.rsp, List.length_cons]
      bv_omega
    rw [hsp, ← heq]
    exact h.holds.2
  · exact (Cpu.pop_reg_of_ne hr hr).trans (h.reg r hr)

/-- An instruction that sets one register other than the stack pointer. -/
theorem set (h : At c base reg ws) (hr : r ≠ .rsp) :
    At (c.set r v) base (Function.update reg r v) ws where
  rsp := (Cpu.set_reg_of_ne hr.symm).trans h.rsp
  holds := by
    have hsp : (c.set r v).rsp = c.rsp := Cpu.set_reg_of_ne hr.symm
    rw [hsp]
    exact h.holds
  reg r' hr' := by
    by_cases hrr : r' = r
    · rw [hrr, Cpu.set_reg_self, Function.update_self]
    · rw [Cpu.set_reg_of_ne hrr, Function.update_of_ne hrr]
      exact h.reg r' hr'

/-- A sequence of pushes. -/
theorem pushes (rs : List Reg) (h : At c base reg ws) (hrs : .rsp ∉ rs) (hlen : ws.length + rs.length < 1000) :
    At (run f (rs.map .push) c) base reg ((rs.map reg).reverse ++ ws) := by
  induction rs generalizing c ws with
  | nil => exact h
  | cons r rs ih =>
    rw [List.mem_cons, not_or] at hrs
    rw [List.length_cons] at hlen
    have hpush := ih (h.push (f := f) (Ne.symm hrs.1) (by omega)) hrs.2
      (by rw [List.length_cons]; omega)
    simpa using hpush

/-- A sequence of pops. -/
theorem pops (rs : List Reg) (h : At c base reg (vs ++ ws)) (hrs : .rsp ∉ rs) (hlen : vs.length = rs.length) :
    At (run f (rs.map .pop) c) base (popped reg rs vs) ws := by
  induction rs generalizing c vs reg with
  | nil =>
    obtain rfl := List.length_eq_zero_iff.mp hlen
    exact h
  | cons r rs ih =>
    rw [List.mem_cons, not_or] at hrs
    cases vs with
    | nil => cases hlen
    | cons v vs => exact ih (h.pop (f := f) (Ne.symm hrs.1)) hrs.2 (by simpa using hlen)

end At

end Nascent.Asm
