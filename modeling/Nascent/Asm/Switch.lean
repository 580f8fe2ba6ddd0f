import Nascent.Lib.Runs
import Nascent.Asm.Machine

/-!
# Context switches

`contextswitch(old, new)` of `context_switch.s` writes registers to the record `old` of the task that
calls it and loads them from the record `new`. The system has any number of tasks, each with its
record in memory. A task computes and then calls `contextswitch`, and goes on when another task
switches back to it. What must hold then is that it finds the registers that a called function keeps
as they were at its call.

The routine saves and loads `rbx`, `rbp`, the stack pointer, and `cr3`, but not `r12` to `r15`, for
which the record has fields. A task finds in these what the task had there that switched to it.
-/

namespace Nascent.Asm

open Memory
open Runs (Along)

/-- `contextswitch`. The old record is in `rdi`, and the new one in `rsi`. -/
def contextswitch : List Instr :=
  [.store .rbx 8 .rdi, .pop .rbx, .store .rbx 64 .rdi,
    .store .rax 0 .rdi, .store .rcx 16 .rdi, .store .rdx 24 .rdi, .store .rsi 32 .rdi,
    .store .rdi 40 .rdi, .store .rsp 120 .rdi, .store .rbp 56 .rdi,
    .pushfq, .pop .rbx, .store .rbx 72 .rdi,
    .readCr3 .rbx, .store .rbx 80 .rdi,
    .load 0 .rsi .rax, .load 8 .rsi .rbx, .load 16 .rsi .rcx, .load 24 .rsi .rdx,
    .load 120 .rsi .rsp, .load 56 .rsi .rbp, .load 64 .rsi .rbx, .push .rbx,
    .load 72 .rsi .rbx, .push .rbx, .popfq,
    .load 80 .rsi .rbx, .writeCr3 .rbx, .load 8 .rsi .rbx, .ret]

/-- What a task must find again after its call: the registers that a called function keeps, and the
page tables. -/
structure Context where
  /-- `rbx`. -/
  rbx : Word64
  /-- `rbp`. -/
  rbp : Word64
  /-- `r12`. -/
  r12 : Word64
  /-- `r13`. -/
  r13 : Word64
  /-- `r14`. -/
  r14 : Word64
  /-- `r15`. -/
  r15 : Word64
  /-- The stack pointer. -/
  rsp : Word64
  /-- `cr3`. -/
  cr3 : Word64
deriving DecidableEq

/-- The context of the task that runs. -/
def Cpu.context (c : Cpu) : Context :=
  ⟨c.reg .rbx, c.reg .rbp, c.reg .r12, c.reg .r13, c.reg .r14, c.reg .r15, c.rsp, c.cr3⟩

/-! ## The routine -/

/-- Two words at fixed distances from one address. -/
theorem apart_add {p a b : Word64} (h : 8 ≤ (b - a).toNat ∧ 8 ≤ (a - b).toNat) :
    Apart (p + a) (p + b) := by
  obtain ⟨h1, h2⟩ := h
  constructor <;> bv_omega

/-- The bytes of the record at `p`. -/
def InRecord (p x : Word64) : Prop := (x - p).toNat < 128

/-- The first half of the routine, which fills the old record. -/
def saveHalf : List Instr := contextswitch.take 15

/-- The second half, which loads the new one. -/
def loadHalf : List Instr := contextswitch.drop 15

variable {c : Cpu} {p q sp x : Word64}

/-- What the first half does: the record has the registers, the stack pointer is past the return
address, and memory changes in the record and in the word of the return address only. -/
structure Saved (c c' : Cpu) : Prop where
  /-- `rbx` in the record. -/
  rbx : read c'.mem (c.reg .rdi + 8) = c.reg .rbx
  /-- `rbp` in the record. -/
  rbp : read c'.mem (c.reg .rdi + 56) = c.reg .rbp
  /-- The stack pointer in the record. -/
  rsp : read c'.mem (c.reg .rdi + 120) = c.rsp + 8
  /-- `cr3` in the record. -/
  cr3 : read c'.mem (c.reg .rdi + 80) = c.cr3
  /-- The other registers stay. -/
  reg : ∀ r, r ≠ .rbx → r ≠ .rsp → c'.reg r = c.reg r
  /-- The rest of memory stays. -/
  mem : ∀ x, ¬ InRecord (c.reg .rdi) x → 8 ≤ (x - c.rsp).toNat → c'.mem x = c.mem x

/-- The words of the record that the first half writes, in turn. -/
theorem saveHalf_mem (f : Callee) (c : Cpu) : ∃ v₀ v₁ v₂ v₃ v₄ v₅ v₆ v₇,
    (run f saveHalf c).mem = write (write (write (write (write (write (write (write (write (write
      (write (write c.mem (c.reg .rdi + 8) (c.reg .rbx)) (c.reg .rdi + 64) v₀) (c.reg .rdi + 0) v₁)
      (c.reg .rdi + 16) v₂) (c.reg .rdi + 24) v₃) (c.reg .rdi + 32) v₄) (c.reg .rdi + 40) v₅)
      (c.reg .rdi + 120) (c.rsp + 8)) (c.reg .rdi + 56) (c.reg .rbp))
      (c.rsp + 8 - 8) v₆) (c.reg .rdi + 72) v₇) (c.reg .rdi + 80) c.cr3 :=
  ⟨_, _, _, _, _, _, _, _, rfl⟩

/-- The two words below a stack pointer are apart from the record at `p`. -/
def StackClear (p sp : Word64) : Prop := ∀ x, InRecord p x → 16 ≤ (x - (sp - 16)).toNat

/-- A byte outside the two words below a stack pointer is outside each of them. -/
theorem le_sub_of_below (h : 16 ≤ (x - (sp - 16)).toNat) :
    8 ≤ (x - (sp - 8)).toNat ∧ 8 ≤ (x - (sp - 8 - 8)).toNat := by
  constructor <;> bv_omega

/-- A write to one of the two words below a stack pointer leaves the records. -/
theorem read_write_stack {m : Mem} {a v b : Word64} (h : StackClear p sp)
    (ha : a = sp - 8 ∨ a = sp - 8 - 8) (hb : b.toNat ≤ 120) :
    read (write m a v) (p + b) = read m (p + b) := by
  refine read_congr fun x hx => write_of_le ?_
  have hrec : InRecord p x := by
    rw [InRecord]
    bv_omega
  obtain ⟨h1, h2⟩ := le_sub_of_below (h x hrec)
  rcases ha with rfl | rfl
  · exact h1
  · exact h2

/-- A write to one word of a record leaves the others. -/
theorem read_write_record {m : Mem} {a b v : Word64}
    (h : 8 ≤ (b - a).toNat ∧ 8 ≤ (a - b).toNat) :
    read (write m (p + a) v) (p + b) = read m (p + b) := read_write_of_apart (apart_add h)

/-- A byte outside a record stays when a word of the record is written. -/
theorem write_record_of_not {m : Mem} {a v : Word64} (ha : a.toNat ≤ 120) (h : ¬ InRecord p x) :
    write m (p + a) v x = m x := by
  refine write_of_le ?_
  rw [InRecord] at h
  bv_omega

/-- The first half of the routine, from a stack that is apart from the record. -/
theorem saved_saveHalf (f : Callee) (h : StackClear (c.reg .rdi) (c.rsp + 8)) :
    Saved c (run f saveHalf c) := by
  obtain ⟨v₀, v₁, v₂, v₃, v₄, v₅, v₆, v₇, hmem⟩ := saveHalf_mem f c
  have hstack : ∀ {m : Mem} {v b : Word64}, b.toNat ≤ 120 →
      read (write m (c.rsp + 8 - 8) v) (c.reg .rdi + b) = read m (c.reg .rdi + b) := fun hb =>
    read_write_stack h (.inl rfl) hb
  constructor
  · simp (disch := decide) only [hmem, hstack, read_write_record, read_write_self]
  · simp (disch := decide) only [hmem, hstack, read_write_record, read_write_self]
  · simp (disch := decide) only [hmem, hstack, read_write_record, read_write_self]
  · simp (disch := decide) only [hmem, read_write_self]
  · intro r hb hs
    cases r <;> first | exact absurd rfl hb | exact absurd rfl hs | rfl
  · intro x hx hsp
    rw [← BitVec.add_sub_cancel c.rsp 8] at hsp
    rw [hmem, write_record_of_not (by decide) hx, write_record_of_not (by decide) hx,
      write_of_le hsp, write_record_of_not (by decide) hx, write_record_of_not (by decide) hx,
      write_record_of_not (by decide) hx, write_record_of_not (by decide) hx,
      write_record_of_not (by decide) hx, write_record_of_not (by decide) hx,
      write_record_of_not (by decide) hx, write_record_of_not (by decide) hx,
      write_record_of_not (by decide) hx]

/-- What the second half does: the registers are those of the new record, but for `r12` to `r15`,
and memory changes in the two words below the new stack pointer only. -/
structure Loaded (c c' : Cpu) : Prop where
  /-- `rbx`. -/
  rbx : c'.reg .rbx = read c.mem (c.reg .rsi + 8)
  /-- `rbp`. -/
  rbp : c'.reg .rbp = read c.mem (c.reg .rsi + 56)
  /-- The stack pointer. -/
  rsp : c'.rsp = read c.mem (c.reg .rsi + 120)
  /-- `cr3`. -/
  cr3 : c'.cr3 = read c.mem (c.reg .rsi + 80)
  /-- The other registers that a called function keeps. -/
  reg : ∀ r ∈ [Reg.r12, .r13, .r14, .r15], c'.reg r = c.reg r
  /-- The rest of memory stays. -/
  mem : ∀ x, 16 ≤ (x - (read c.mem (c.reg .rsi + 120) - 16)).toNat → c'.mem x = c.mem x

/-- The registers that no instruction of the second half after the first six changes. -/
def kept : List Reg := [.rsi, .rbp, .r12, .r13, .r14, .r15]

/-- The first loads, with the new stack pointer. -/
theorem load_first (f : Callee) (c : Cpu) (k : Cpu) (hk : k = run f (loadHalf.take 6) c) :
    k.mem = c.mem ∧ k.reg .rsi = c.reg .rsi ∧ k.rsp = read c.mem (c.reg .rsi + 120) ∧
      k.reg .rbp = read c.mem (c.reg .rsi + 56) ∧
      ∀ r ∈ [Reg.r12, .r13, .r14, .r15], k.reg r = c.reg r := by
  subst hk
  refine ⟨rfl, rfl, rfl, rfl, fun r hr => ?_⟩
  simp only [List.mem_cons, List.not_mem_nil, or_false] at hr
  rcases hr with rfl | rfl | rfl | rfl <;> rfl

/-- The address to go on at and the flags, by way of the new stack. -/
theorem load_flags (f : Callee) (c : Cpu) (k : Cpu)
    (hk : k = run f ((loadHalf.drop 6).take 5) c) :
    (∃ v w, k.mem = write (write c.mem (c.rsp - 8) v) (c.rsp - 8 - 8) w) ∧
      k.rsp = c.rsp - 8 - 8 + 8 ∧ ∀ r ∈ kept, k.reg r = c.reg r := by
  subst hk
  refine ⟨⟨_, _, rfl⟩, rfl, fun r hr => ?_⟩
  simp only [kept, List.mem_cons, List.not_mem_nil, or_false] at hr
  rcases hr with rfl | rfl | rfl | rfl | rfl | rfl <;> rfl

/-- The page tables, `rbx`, and the return. -/
theorem load_last (f : Callee) (c : Cpu) (k : Cpu) (hk : k = run f (loadHalf.drop 11) c) :
    k.mem = c.mem ∧ k.reg .rbx = read c.mem (c.reg .rsi + 8) ∧
      k.cr3 = read c.mem (c.reg .rsi + 80) ∧ k.rsp = c.rsp + 8 ∧ ∀ r ∈ kept, k.reg r = c.reg r := by
  subst hk
  refine ⟨rfl, rfl, rfl, rfl, fun r hr => ?_⟩
  simp only [kept, List.mem_cons, List.not_mem_nil, or_false] at hr
  rcases hr with rfl | rfl | rfl | rfl | rfl | rfl <;> rfl

/-- The second half of the routine, to a stack that is apart from the record. -/
theorem loaded_loadHalf (f : Callee)
    (h : StackClear (c.reg .rsi) (read c.mem (c.reg .rsi + 120))) :
    Loaded c (run f loadHalf c) := by
  have hsplit : loadHalf = loadHalf.take 6 ++ ((loadHalf.drop 6).take 5 ++ loadHalf.drop 11) := rfl
  rw [hsplit, run_append, run_append]
  obtain ⟨k₁, hk₁⟩ : ∃ k, k = run f (loadHalf.take 6) c := ⟨_, rfl⟩
  obtain ⟨hmem₁, hrsi₁, hsp₁, hbp₁, hreg₁⟩ := load_first f c k₁ hk₁
  rw [← hk₁]
  obtain ⟨k₂, hk₂⟩ : ∃ k, k = run f ((loadHalf.drop 6).take 5) k₁ := ⟨_, rfl⟩
  obtain ⟨⟨v, w, hmem₂⟩, hsp₂, hreg₂⟩ := load_flags f k₁ k₂ hk₂
  rw [← hk₂]
  obtain ⟨k₃, hk₃⟩ : ∃ k, k = run f (loadHalf.drop 11) k₂ := ⟨_, rfl⟩
  obtain ⟨hmem₃, hbx₃, hcr₃, hsp₃, hreg₃⟩ := load_last f k₂ k₃ hk₃
  rw [← hk₃]
  have hrsi₂ : k₂.reg .rsi = c.reg .rsi := (hreg₂ .rsi (by decide)).trans hrsi₁
  -- The record is read back as it was before the two pushes.
  rw [hmem₁, hsp₁] at hmem₂
  have hread : ∀ b : Word64, b.toNat ≤ 120 →
      read k₂.mem (c.reg .rsi + b) = read c.mem (c.reg .rsi + b) := fun b hb => by
    rw [hmem₂, read_write_stack h (.inr rfl) hb, read_write_stack h (.inl rfl) hb]
  constructor
  · rw [hbx₃, hrsi₂, hread 8 (by decide)]
  · rw [hreg₃ .rbp (by decide), hreg₂ .rbp (by decide), hbp₁]
  · rw [hsp₃, hsp₂, hsp₁, BitVec.sub_add_cancel, BitVec.sub_add_cancel]
  · rw [hcr₃, hrsi₂, hread 80 (by decide)]
  · intro r hr
    have hkept : r ∈ kept := List.mem_cons_of_mem _ (List.mem_cons_of_mem _ hr)
    rw [hreg₃ r hkept, hreg₂ r hkept, hreg₁ r hr]
  · intro x hx
    obtain ⟨h1, h2⟩ := le_sub_of_below hx
    rw [hmem₃, hmem₂, write_of_le h2, write_of_le h1]

/-! ## The system -/

/-- The state of the system. -/
structure SwitchSys (ι : Type*) where
  /-- The processor. -/
  cpu : Cpu
  /-- The task that runs. -/
  running : ι
  /-- The contexts of the tasks that have called `contextswitch` and have not been resumed. -/
  context : ι → Option Context

/-- The actions. -/
inductive SwitchOp (ι : Type*)
  /-- The running task computes, which leads to any state of the processor. -/
  | work (c : Cpu)
  /-- The running task calls `contextswitch`, with the address to return to. -/
  | switch (new : ι) (ret : Word64)

namespace SwitchSys

variable {ι : Type*} [DecidableEq ι] (pcb : ι → Word64) (s : SwitchSys ι)

/-- The processor at the first instruction of `contextswitch`. -/
def call (new : ι) (ret : Word64) : Cpu :=
  ((s.cpu.set .rdi (pcb s.running)).set .rsi (pcb new)).push ret

/-- The contexts once the running task has called `contextswitch`. -/
def waiting : ι → Option Context :=
  Function.update s.context s.running (some s.cpu.context)

/-- The processor after `contextswitch`. -/
@[irreducible] def switched (new : ι) (ret : Word64) : Cpu := run id contextswitch (s.call pcb new ret)

/-- One action, where `pcb` gives the addresses of the records. -/
def step : SwitchOp ι → Option (SwitchSys ι)
  | .work c => some { s with cpu := c }
  | .switch new ret => some ⟨s.switched pcb new ret, new, Function.update s.waiting new none⟩

/-- The new stack pointer. -/
def newStack (new : ι) : Word64 :=
  if new = s.running then s.cpu.rsp else read s.cpu.mem (pcb new + 120)

/-- What the kernel keeps to: the records of tasks that wait are not written, and the stacks are
apart from the records. -/
def Sound : SwitchOp ι → Prop
  | .work c => ∀ i, (s.context i).isSome → ∀ x, InRecord (pcb i) x → c.mem x = s.cpu.mem x
  | .switch new _ =>
    ∀ i, StackClear (pcb i) s.cpu.rsp ∧ StackClear (pcb i) (s.newStack pcb new)

/-- A task that is resumed finds its context. -/
def Faithful : SwitchOp ι → Prop
  | .work _ => True
  | .switch new ret => ∀ ctx ∈ s.waiting new, (s.switched pcb new ret).context = ctx

/-- A task is resumed with its own `r12` to `r15` in the registers. -/
def KeepsR12 : SwitchOp ι → Prop
  | .work _ => True
  | .switch new _ => ∀ ctx ∈ s.waiting new, s.cpu.reg .r12 = ctx.r12 ∧ s.cpu.reg .r13 = ctx.r13 ∧
      s.cpu.reg .r14 = ctx.r14 ∧ s.cpu.reg .r15 = ctx.r15

/-- The record at `p` has a context, but for `r12` to `r15`. -/
structure Stored (m : Mem) (p : Word64) (ctx : Context) : Prop where
  /-- `rbx`. -/
  rbx : read m (p + 8) = ctx.rbx
  /-- `rbp`. -/
  rbp : read m (p + 56) = ctx.rbp
  /-- The stack pointer. -/
  rsp : read m (p + 120) = ctx.rsp
  /-- `cr3`. -/
  cr3 : read m (p + 80) = ctx.cr3

/-- A record only depends on its own bytes. -/
theorem Stored.congr {m m' : Mem} {p : Word64} {ctx : Context} (h : Stored m p ctx)
    (hsame : ∀ x, InRecord p x → m' x = m x) : Stored m' p ctx := by
  have hread : ∀ b : Word64, b.toNat ≤ 120 → read m' (p + b) = read m (p + b) := fun b hb =>
    read_congr fun x hx => hsame x (by rw [InRecord]; bv_omega)
  exact ⟨(hread 8 (by decide)).trans h.rbx, (hread 56 (by decide)).trans h.rbp,
    (hread 120 (by decide)).trans h.rsp, (hread 80 (by decide)).trans h.cr3⟩

/-- The contexts of the tasks that wait are in their records. -/
def Inv : Prop := ∀ i, ∀ ctx ∈ s.context i, Stored s.cpu.mem (pcb i) ctx

variable {pcb s} {new : ι} {ret : Word64}

/-- What holds after a call of `contextswitch`: all contexts are in their records, that of the caller
too, and the new registers come from the new record. -/
theorem switch_spec (hdisj : ∀ i j, i ≠ j → ∀ x, InRecord (pcb i) x → ¬ InRecord (pcb j) x)
    (hinv : s.Inv pcb) (hs : s.Sound pcb (.switch new ret)) :
    (∀ i, ∀ ctx ∈ s.waiting i, Stored (s.switched pcb new ret).mem (pcb i) ctx) ∧
    (∀ ctx, Stored (s.switched pcb new ret).mem (pcb new) ctx →
      (s.switched pcb new ret).reg .rbx = ctx.rbx ∧ (s.switched pcb new ret).reg .rbp = ctx.rbp ∧
      (s.switched pcb new ret).rsp = ctx.rsp ∧ (s.switched pcb new ret).cr3 = ctx.cr3) ∧
    ∀ r ∈ [Reg.r12, .r13, .r14, .r15], (s.switched pcb new ret).reg r = s.cpu.reg r := by
  set c := s.call pcb new ret with hc
  have hsp : c.rsp = s.cpu.rsp - 8 := Cpu.push_rsp
  have hrdi : c.reg .rdi = pcb s.running := rfl
  have hrsi : c.reg .rsi = pcb new := rfl
  -- The first half.
  have hsaved : Saved c (run id saveHalf c) := saved_saveHalf id (by
    rw [hrdi, hsp, BitVec.sub_add_cancel]
    exact (hs s.running).1)
  obtain ⟨k, hk⟩ : ∃ k, k = run id saveHalf c := ⟨_, rfl⟩
  rw [← hk] at hsaved
  have hbelow : ∀ i x, InRecord (pcb i) x → 8 ≤ (x - (s.cpu.rsp - 8)).toNat := fun i x hx =>
    (le_sub_of_below ((hs i).1 x hx)).1
  have hwaiting : ∀ i, ∀ ctx ∈ s.waiting i, Stored k.mem (pcb i) ctx := by
    intro i ctx hctx
    by_cases hi : i = s.running
    · rw [hi, waiting, Function.update_self] at hctx
      obtain rfl := Option.some.inj hctx
      rw [hi]
      refine ⟨hsaved.rbx, hsaved.rbp, ?_, hsaved.cr3⟩
      refine hsaved.rsp.trans ?_
      rw [hsp, BitVec.sub_add_cancel]
      rfl
    · rw [waiting, Function.update_of_ne hi] at hctx
      refine (hinv i ctx hctx).congr fun x hx => ?_
      rw [hsaved.mem x (hdisj i s.running hi x hx) (by rw [hsp]; exact hbelow i x hx)]
      exact write_of_le (hbelow i x hx)
  have hstack : read k.mem (pcb new + 120) = s.newStack pcb new := by
    rw [newStack]
    split_ifs with hn
    · rw [hn]
      exact (hwaiting s.running _ (Function.update_self ..)).rsp
    · refine read_congr fun x hx => ?_
      have hx : InRecord (pcb new) x := by
        rw [InRecord]
        bv_omega
      rw [hsaved.mem x (hdisj new s.running hn x hx) (by rw [hsp]; exact hbelow new x hx)]
      exact write_of_le (hbelow new x hx)
  have hkrsi : k.reg .rsi = pcb new := (hsaved.reg .rsi (by decide) (by decide)).trans hrsi
  -- The second half.
  have hloaded : Loaded k (run id loadHalf k) := loaded_loadHalf id (by
    rw [hkrsi, hstack]
    exact (hs new).2)
  have hsplit : s.switched pcb new ret = run id loadHalf k := by
    rw [switched, show contextswitch = saveHalf ++ loadHalf from rfl, run_append, hk, hc]
  rw [hsplit]
  have hsame : ∀ i x, InRecord (pcb i) x → (run id loadHalf k).mem x = k.mem x := fun i x hx =>
    hloaded.mem x (by rw [hkrsi, hstack]; exact (hs i).2 x hx)
  refine ⟨fun i ctx hctx => (hwaiting i ctx hctx).congr (hsame i), fun ctx hctx => ?_, fun r hr => ?_⟩
  · have hctx' : Stored k.mem (pcb new) ctx := hctx.congr fun x hx => (hsame new x hx).symm
    rw [hloaded.rbx, hloaded.rbp, hloaded.rsp, hloaded.cr3, hkrsi]
    exact ⟨hctx'.rbx, hctx'.rbp, hctx'.rsp, hctx'.cr3⟩
  · rw [hloaded.reg r hr]
    simp only [List.mem_cons, List.not_mem_nil, or_false] at hr
    rcases hr with rfl | rfl | rfl | rfl
    · exact hsaved.reg .r12 (by decide) (by decide)
    · exact hsaved.reg .r13 (by decide) (by decide)
    · exact hsaved.reg .r14 (by decide) (by decide)
    · exact hsaved.reg .r15 (by decide) (by decide)

/-- Every action keeps the contexts in their records. -/
theorem Inv.step {op : SwitchOp ι} {s' : SwitchSys ι}
    (hdisj : ∀ i j, i ≠ j → ∀ x, InRecord (pcb i) x → ¬ InRecord (pcb j) x)
    (hinv : s.Inv pcb) (hs : s.Sound pcb op) (hstep : s.step pcb op = some s') : s'.Inv pcb := by
  cases op with
  | work c =>
    obtain rfl := Option.some.inj hstep
    exact fun i ctx hctx => (hinv i ctx hctx).congr (hs i (Option.isSome_of_mem hctx))
  | switch new ret =>
    obtain rfl := Option.some.inj hstep
    intro i ctx hctx
    simp only at hctx
    by_cases hi : i = new
    · rw [hi, Function.update_self] at hctx
      cases hctx
    · rw [Function.update_of_ne hi] at hctx
      exact (switch_spec hdisj hinv hs).1 i ctx hctx

/-- A task finds its context if and only if the caller has its `r12` to `r15`. -/
theorem faithful_iff {op : SwitchOp ι}
    (hdisj : ∀ i j, i ≠ j → ∀ x, InRecord (pcb i) x → ¬ InRecord (pcb j) x)
    (hinv : s.Inv pcb) (hs : s.Sound pcb op) : s.Faithful pcb op ↔ s.KeepsR12 op := by
  cases op with
  | work c => exact Iff.rfl
  | switch new ret =>
    obtain ⟨hstored, hloaded, hreg⟩ := switch_spec hdisj hinv hs
    refine forall_congr' fun ctx => imp_congr_right fun hctx => ?_
    obtain ⟨hbx, hbp, hsp, hcr⟩ := hloaded ctx (hstored new ctx hctx)
    rw [← hreg .r12 (by decide), ← hreg .r13 (by decide), ← hreg .r14 (by decide),
      ← hreg .r15 (by decide)]
    constructor
    · intro h
      rw [← h]
      exact ⟨rfl, rfl, rfl, rfl⟩
    · rintro ⟨h12, h13, h14, h15⟩
      rw [Cpu.context, hbx, hbp, h12, h13, h14, h15, hsp, hcr]

end SwitchSys

namespace SwitchSys

/-- In a run of any number of tasks, every task that is resumed finds its context if and only if
every call of `contextswitch` is made with the `r12` to `r15` of the task that it resumes in the
registers. -/
theorem context_kept_iff {ι : Type} [DecidableEq ι] (pcb : ι → Word64)
    (hdisj : ∀ i j, i ≠ j → ∀ x, InRecord (pcb i) x → ¬ InRecord (pcb j) x)
    (s₀ : SwitchSys ι) (h₀ : ∀ i, s₀.context i = none) (ops : List (SwitchOp ι))
    (hsound : Along (step pcb) (Sound pcb) s₀ ops) :
    Along (step pcb) (Faithful pcb) s₀ ops ↔ Along (step pcb) KeepsR12 s₀ ops := by
  have hinv₀ : s₀.Inv pcb := by
    intro i ctx hctx
    rw [h₀ i] at hctx
    cases hctx
  exact hsound.congr hinv₀ (fun s op s' hinv hs hstep => hinv.step hdisj hs hstep)
    fun s op hinv hs => faithful_iff hdisj hinv hs

/-- The records of two tasks. -/
def pairPcb : Bool → Word64
  | false => 0x1000
  | true => 0x2000

/-- Two tasks, the second of which has not run yet. -/
def pairStart : SwitchSys Bool where
  cpu := ⟨fun r => if r = .rsp then 0x5000 else 0, 0, 0, 8, 0, 0, write (fun _ => 0) 0x2078 0x6000⟩
  running := false
  context := fun _ => none

/-- The state in which the second task has set `r12`. -/
def pairWork (v : Word64) : Cpu :=
  { pairStart.switched pairPcb true 0 with
    reg := fun r => if r = .rsp then 0x6000 else if r = .r12 then v else 0 }

/-- The first task switches to the second one, which sets `r12` and switches back. -/
def pairRun (v : Word64) : List (SwitchOp Bool) := [.switch true 0, .work (pairWork v), .switch false 0]

theorem pairPcb_disjoint (i j : Bool) (h : i ≠ j) (x : Word64) (hi : InRecord (pairPcb i) x) :
    ¬ InRecord (pairPcb j) x := by
  rw [InRecord] at hi ⊢
  cases i <;> cases j <;> first | exact absurd rfl h | (simp only [pairPcb] at hi ⊢; bv_omega)

/-- The stacks are apart from the records. -/
theorem pairPcb_clear (i : Bool) : StackClear (pairPcb i) 0x5000 ∧ StackClear (pairPcb i) 0x6000 := by
  refine ⟨fun x hx => ?_, fun x hx => ?_⟩ <;> rw [InRecord] at hx <;> cases i <;>
    simp only [pairPcb] at hx <;> bv_omega

/-- The first call of `contextswitch` is sound. -/
theorem pairStart_sound : pairStart.Sound pairPcb (.switch true 0) := by
  intro i
  have hnew : pairStart.newStack pairPcb true = 0x6000 := by
    rw [newStack, if_neg (by decide)]
    exact read_write_self
  rw [hnew]
  exact pairPcb_clear i

theorem pairStart_inv : pairStart.Inv pairPcb := fun _ _ hctx => by cases hctx

/-- The run is sound, whatever the second task does to `r12`. -/
theorem pairRun_sound (v : Word64) : Along (step pairPcb) (Sound pairPcb) pairStart (pairRun v) := by
  refine ⟨pairStart_sound, fun s₁ hs₁ => ?_⟩
  have hinv := pairStart_inv.step pairPcb_disjoint pairStart_sound hs₁
  obtain rfl := Option.some.inj hs₁
  refine ⟨fun _ _ _ _ => rfl, fun s₂ hs₂ => ?_⟩
  obtain rfl := Option.some.inj hs₂
  refine ⟨fun i => ?_, fun _ _ => trivial⟩
  -- The stack pointer of the first task is in its record.
  have hstored := hinv false pairStart.cpu.context rfl
  have hnew : newStack pairPcb ⟨pairWork v, true, Function.update pairStart.waiting true none⟩ false =
      0x5000 := by
    rw [newStack, if_neg Bool.false_ne_true]
    exact hstored.rsp
  have hsp : (pairWork v).rsp = 0x6000 := rfl
  exact ⟨hsp ▸ (pairPcb_clear i).2, hnew ▸ (pairPcb_clear i).1⟩

/-- The last call of the run is made with the `r12` of the first task if and only if this is what the
second task has set. -/
theorem pairRun_keeps (v : Word64) :
    Along (step pairPcb) KeepsR12 pairStart (pairRun v) ↔ v = 0 := by
  constructor
  · rintro ⟨-, h⟩
    exact (((h _ rfl).2 _ rfl).1 pairStart.cpu.context rfl).1
  · rintro rfl
    have hfirst : KeepsR12 pairStart (.switch true 0) := by
      intro ctx hctx
      cases hctx
    refine ⟨hfirst, fun s₁ hs₁ => ⟨trivial, fun s₂ hs₂ => ?_⟩⟩
    obtain rfl := Option.some.inj hs₁
    obtain rfl := Option.some.inj hs₂
    refine ⟨fun ctx hctx => ?_, fun _ _ => trivial⟩
    obtain rfl : pairStart.cpu.context = ctx := Option.some.inj hctx
    exact ⟨rfl, rfl, rfl, rfl⟩

/-- The first task finds its context where the second one leaves `r12` alone. -/
theorem context_kept_iff_pair : Along (step pairPcb) (Faithful pairPcb) pairStart (pairRun 0) :=
  (context_kept_iff pairPcb pairPcb_disjoint pairStart (fun _ => rfl) (pairRun 0)
    (pairRun_sound 0)).mpr ((pairRun_keeps 0).mpr rfl)

/-- The second task sets `r12` to 2, and the first one finds 2 there instead of 0. -/
theorem r12_not_kept : ¬ ∀ (pcb : Bool → Word64) (s₀ : SwitchSys Bool) (ops : List (SwitchOp Bool)),
    (∀ i j, i ≠ j → ∀ x, InRecord (pcb i) x → ¬ InRecord (pcb j) x) →
    (∀ i, s₀.context i = none) → Along (step pcb) (Sound pcb) s₀ ops →
    Along (step pcb) (Faithful pcb) s₀ ops := by
  intro hall
  have hfaithful := hall pairPcb pairStart (pairRun 2) pairPcb_disjoint (fun _ => rfl)
    (pairRun_sound 2)
  have hkeeps := ((pairRun_sound 2).congr pairStart_inv
    (fun s op s' hinv hs hstep => hinv.step pairPcb_disjoint hs hstep)
    fun s op hinv hs => faithful_iff pairPcb_disjoint hinv hs).mp hfaithful
  exact absurd ((pairRun_keeps 2).mp hkeeps) (by decide)

end SwitchSys

end Nascent.Asm
