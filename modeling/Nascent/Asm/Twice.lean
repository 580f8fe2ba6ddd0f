import Nascent.Asm.Fork

/-!
# How `fork` returns twice

Any number of tasks, each with a PCB that has its record and its kernel stack. The running task computes, forks, or
calls `contextswitch`; between the `fork` and the first switch to the child, other tasks may do so. Children that have
not run yet are as `fork_process` has made them, and nobody else has the sign 10101 (`Inv`), since the handler
clears it. In particular a PCB that is used again keeps no sign of its former child, although `clear_pcb` does not
reach it.

In every run, the parent goes on with the pid of the child and the child with 0, both with the other registers and the
stack of the parent, and nobody else goes on behind the call of `fork_process` (`fork_returns_twice`).
-/

namespace Nascent.Asm

open Memory
open Runs (Along)

variable {c : Cpu} {t x cr3 : Word64}

/-! ## `contextswitch` -/

/-- The first half leaves the address to go on at in the old record. -/
theorem saveHalf_rip (f : Callee) (hclear : StackClear (c.reg .rdi) (c.rsp + 8)) :
    read (run f saveHalf c).mem (c.reg .rdi + 64) = read c.mem c.rsp := by
  obtain ⟨v, v₁, v₂, v₃, v₄, v₅, v₆, v₇, hv, hmem⟩ : ∃ v v₁ v₂ v₃ v₄ v₅ v₆ v₇,
      v = read (write c.mem (c.reg .rdi + 8) (c.reg .rbx)) c.rsp ∧
      (run f saveHalf c).mem = write (write (write (write (write (write (write (write (write (write
        (write (write c.mem (c.reg .rdi + 8) (c.reg .rbx)) (c.reg .rdi + 64) v) (c.reg .rdi + 0) v₁)
        (c.reg .rdi + 16) v₂) (c.reg .rdi + 24) v₃) (c.reg .rdi + 32) v₄) (c.reg .rdi + 40) v₅)
        (c.reg .rdi + 120) (c.rsp + 8)) (c.reg .rdi + 56) (c.reg .rbp))
        (c.rsp + 8 - 8) v₆) (c.reg .rdi + 72) v₇) (c.reg .rdi + 80) c.cr3 :=
    ⟨_, _, _, _, _, _, _, _, rfl, rfl⟩
  have hstack : ∀ {m : Mem} {v b : Word64}, b.toNat ≤ 120 →
      read (write m (c.rsp + 8 - 8) v) (c.reg .rdi + b) = read m (c.reg .rdi + b) := fun hb =>
    read_write_stack hclear (.inl rfl) hb
  have hret : v = read c.mem c.rsp := by
    rw [hv]
    refine read_congr fun x hx => write_of_le ?_
    by_contra hlt
    have hrec : InRecord (c.reg .rdi) x := by
      rw [InRecord]
      bv_omega
    have hbelow := (le_sub_of_below (hclear x hrec)).1
    rw [BitVec.add_sub_cancel] at hbelow
    omega
  rw [← hret]
  simp (disch := decide) only [hmem, hstack, read_write_record, read_write_self]

/-- The second half goes on at the address in the new record. -/
theorem loadHalf_rip (f : Callee) : (run f loadHalf c).rip = read c.mem (c.reg .rsi + 64) := by
  have hsplit : loadHalf = loadHalf.take 6 ++ ((loadHalf.drop 6).take 5 ++ loadHalf.drop 11) := rfl
  have hflags : ∀ k : Cpu, (run f ((loadHalf.drop 6).take 5) k).rsp = k.rsp - 8 - 8 + 8 ∧
      ∃ w, (run f ((loadHalf.drop 6).take 5) k).mem =
        write (write k.mem (k.rsp - 8) (read k.mem (k.reg .rsi + 64))) (k.rsp - 8 - 8) w := fun _ => ⟨rfl, _, rfl⟩
  have hlast : ∀ k : Cpu, (run f (loadHalf.drop 11) k).rip = read k.mem k.rsp := fun _ => rfl
  rw [hsplit, run_append, run_append, hlast]
  obtain ⟨k, hk⟩ : ∃ k, k = run f (loadHalf.take 6) c := ⟨_, rfl⟩
  obtain ⟨hmem, hrsi, -⟩ := load_first f c k hk
  obtain ⟨hsp, w, hmem'⟩ := hflags k
  have hapart : Apart (k.rsp - 8 - 8) (k.rsp - 8) := by
    constructor <;> bv_omega
  rw [← hk, hsp, BitVec.sub_add_cancel, hmem', read_write_of_apart hapart, read_write_self, hmem, hrsi]

/-! ## The system -/

/-- What has become of a PCB. -/
inductive Life
  /-- It is free, or a zombie. -/
  | unused
  /-- A child that has not run yet, with its parent at `int $0x80` and its own page tables. -/
  | forked (u : Cpu) (cr3 : Word64)
  /-- A task that has run, or that the kernel has started. -/
  | started

/-- The state of the system. -/
structure ForkSys (ι : Type*) where
  /-- The processor. -/
  cpu : Cpu
  /-- The task that runs. -/
  running : ι
  /-- The PCBs. -/
  life : ι → Life

/-- The actions. -/
inductive ForkOp (ι : Type*)
  /-- The running task computes, which leads to any state of the processor. -/
  | work (c : Cpu)
  /-- The running task executes `int $0x80`, with a free PCB, the page tables for it, its pid, and the frames. -/
  | fork (child : ι) (cr3 : Word64) (pid : BitVec 32) (locals own : List Word64)
  /-- The running task calls `contextswitch`, with the address to return to, and with what the new task has for
  `regs` in `syscall_handler`. -/
  | switch (new : ι) (ret regs : Word64)
  /-- A task ends that does not run. -/
  | free (i : ι)

namespace ForkSys

variable {ι : Type*} [DecidableEq ι] (h : Handler) (task : ι → Word64) (s : ForkSys ι)

/-- The processor at the first instruction of `contextswitch`. -/
def calling (new : ι) (ret : Word64) : Cpu :=
  ((s.cpu.set .rdi (task s.running)).set .rsi (task new)).push ret

/-- The processor behind it. -/
@[irreducible] def switched (new : ι) (ret : Word64) : Cpu := run id contextswitch (s.calling task new ret)

/-- The processor behind `fork`. -/
@[irreducible] def behindFork (child : ι) (cr3 : Word64) (pid : BitVec 32) (locals own : List Word64) : Cpu :=
  int80 (h.fork (task s.running) (task child) cr3 pid locals own) s.cpu (kstack (task s.running) 509)

/-- One action, where `task` gives the addresses of the PCBs. -/
def step : ForkOp ι → Option (ForkSys ι)
  | .work c => some { s with cpu := c }
  | .fork child cr3 pid locals own =>
    match s.life child with
    | .unused =>
      if s.cpu.reg .rax = 57 then
        some ⟨s.behindFork h task child cr3 pid locals own, s.running,
          Function.update s.life child (.forked s.cpu cr3)⟩
      else none
    | _ => none
  | .switch new ret regs =>
    match s.life new with
    | .unused => none
    | _ => some ⟨h.resume (task new) regs (s.switched task new ret), new, Function.update s.life new .started⟩
  | .free i => if i = s.running then none else some { s with life := Function.update s.life i .unused }

/-- The bytes of a PCB that others leave alone: its record and the place of the sign, and all of a child that has not
run yet. -/
def Guarded (i : ι) (x : Word64) : Prop :=
  match s.life i with
  | .unused => False
  | .forked _ _ => InTask (task i) x
  | .started => InRecord (task i) x ∨ (x - kstack (task i) 511).toNat < 8

/-- The new stack pointer. -/
def newStack (new : ι) : Word64 :=
  if new = s.running then s.cpu.rsp else read s.cpu.mem (task new + 120)

/-- What the kernel keeps to: the guarded bytes are not written, but a task may write its own record, and the stacks are
apart from them. `contextswitch` is not called from where `fork_process` is, and the frames are as the compiler has
laid them out. -/
def Sound : ForkOp ι → Prop
  | .work c => ∀ i x, s.Guarded task i x → (i = s.running → ¬ InRecord (task i) x) → c.mem x = s.cpu.mem x
  | .fork _ _ _ locals own => locals.length = h.size ∧ own.length = 17
  | .switch new ret _ => ret ≠ h.back ∧ (∀ i x, s.Guarded task i x → 16 ≤ (x - (s.cpu.rsp - 16)).toNat) ∧
      (s.life new = .started → ∀ i x, s.Guarded task i x → 16 ≤ (x - (s.newStack task new - 16)).toNat)
  | .free _ => True

/-- `fork` returns the pid in the parent and 0 in the child, and another task does not go on behind
`fork_process`. -/
def Returns (op : ForkOp ι) : Prop :=
  ∀ s', s.step h task op = some s' →
    match op with
    | .work _ | .free _ => True
    | .fork _ _ pid _ _ => Handler.Resumed s.cpu s'.cpu (pid.signExtend 64)
    | .switch new ret _ =>
      match s.life new with
      | .forked u cr3 => Handler.Resumed u s'.cpu 0 ∧ s'.cpu.cr3 = cr3
      | _ => (s.switched task new ret).rip ≠ h.back

/-- The children that have not run yet are as `fork_process` has made them, and nobody else has the sign. -/
structure Inv : Prop where
  /-- The running task. -/
  running : s.life s.running = .started
  /-- The signs. -/
  magic : ∀ i, s.life i = .started → read s.cpu.mem (kstack (task i) 511) ≠ 10101
  /-- The addresses to go on at. -/
  rip : ∀ i, i ≠ s.running → s.life i = .started → read s.cpu.mem (task i + 64) ≠ h.back
  /-- The children. -/
  fresh : ∀ i u cr3, s.life i = .forked u cr3 → ∃ locals : List Word64, locals.length = h.size ∧
    Fresh s.cpu.mem (task i) cr3 h.back (h.childStack locals (u.reg .rax) u)

variable {h task s} {child new i j : ι} {pid : BitVec 32} {locals own : List Word64} {ret regs : Word64}

/-- The record of a task is the first part of it. -/
theorem inTask_of_record (hx : InRecord t x) : InTask t x := Nat.lt_trans hx (by decide)

/-- The bytes of a word of a task are bytes of the task. -/
theorem inTask_of_lt {a : Word64} (ha : a.toNat + 8 ≤ 4312) (hx : (x - (t + a)).toNat < 8) : InTask t x := by
  rw [InTask]
  bv_omega

omit [DecidableEq ι] in
/-- The running task is not a child that has not run yet. -/
theorem Inv.ne_running {l : Life} (hinv : s.Inv h task) (hi : s.life i = l) (hl : l ≠ .started) :
    i ≠ s.running := by
  rintro rfl
  exact hl (hi.symm.trans hinv.running)

/-- `int $0x80` for `fork`. -/
theorem Inv.fork (cr3 : Word64) (pid : BitVec 32) (hdisj : ∀ i j, i ≠ j → Disjoint (task i) (task j))
    (hinv : s.Inv h task)
    (hlocals : locals.length = h.size) (hown : own.length = 17) (hlife : s.life child = .unused) :
    Handler.Resumed s.cpu (s.behindFork h task child cr3 pid locals own) (pid.signExtend 64) ∧
      Inv h task ⟨s.behindFork h task child cr3 pid locals own, s.running,
        Function.update s.life child (.forked s.cpu cr3)⟩ := by
  have hne : s.running ≠ child := (hinv.ne_running hlife Life.noConfusion).symm
  obtain ⟨h511, h509⟩ := kstack_eq (task s.running)
  -- The processor and the stub write only the stack of the parent.
  have henter : ∀ x, ¬ InTask (task s.running) x →
      (atHandler s.cpu (kstack (task s.running) 509)).mem x = s.cpu.mem x := by
    intro x hx
    refine atHandler_mem ?_
    rw [h509]
    rw [InTask] at hx
    bv_omega
  have hsign : read (atHandler s.cpu (kstack (task s.running) 509)).mem (kstack (task s.running) 511) =
      read s.cpu.mem (kstack (task s.running) 511) := by
    refine read_congr fun x hx => atHandler_mem ?_
    rw [h511] at hx
    rw [h509]
    bv_omega
  have hmagic : read (atHandler s.cpu (kstack (task s.running) 509)).mem (kstack (task s.running) 511) ≠ 10101 := by
    rw [hsign]
    exact hinv.magic _ hinv.running
  have hforks := Handler.forks (h := h) cr3 pid (hdisj child s.running hne.symm)
    (called_atHandler s.cpu (kstack (task s.running) 509)) hmagic hown hlocals
  obtain ⟨c, hc⟩ : ∃ c, c = s.behindFork h task child cr3 pid locals own := ⟨_, rfl⟩
  have hbehind := hc
  rw [behindFork, int80_eq] at hbehind
  have hmem : c.mem = (h.fork (task s.running) (task child) cr3 pid locals own
      (atHandler s.cpu (kstack (task s.running) 509))).mem := by
    rw [hbehind]
    exact run_sysIntEnd.1
  have hrest : ∀ x, ¬ InTask (task s.running) x → ¬ InTask (task child) x → c.mem x = s.cpu.mem x := by
    intro x hx hx'
    rw [hmem, hforks.mem x hx hx', henter x hx]
  have hother : ∀ i, i ≠ s.running → i ≠ child → ∀ x, InTask (task i) x → c.mem x = s.cpu.mem x :=
    fun i hi hi' x hx => hrest x (hdisj i _ hi x hx) (hdisj i _ hi' x hx)
  rw [← hc]
  refine ⟨hbehind ▸ hforks.resumed, ?_, fun i hi => ?_, fun i hne' hi => ?_, fun i u cr3' hi => ?_⟩
  · exact (Function.update_of_ne hne ..).trans hinv.running
  · dsimp only at hi ⊢
    have hic : i ≠ child := by
      rintro rfl
      rw [Function.update_self] at hi
      cases hi
    rw [Function.update_of_ne hic] at hi
    by_cases hir : i = s.running
    · rw [hir]
      rw [hmem, hforks.magic, hsign]
      exact hinv.magic _ hinv.running
    · have hsame := read_task (a := 4304) (by decide) (hother i hir hic)
      rw [← (kstack_eq (task i)).1] at hsame
      rw [hsame]
      exact hinv.magic i hi
  · dsimp only at hi ⊢
    have hic : i ≠ child := by
      rintro rfl
      rw [Function.update_self] at hi
      cases hi
    rw [Function.update_of_ne hic] at hi
    rw [read_task (by decide) (hother i hne' hic)]
    exact hinv.rip i hne' hi
  · dsimp only at hi ⊢
    by_cases hic : i = child
    · rw [hic, Function.update_self] at hi
      obtain ⟨rfl, rfl⟩ : s.cpu = u ∧ cr3 = cr3' := by
        cases hi
        exact ⟨rfl, rfl⟩
      rw [hic, hmem]
      exact hforks.fresh
    · rw [Function.update_of_ne hic] at hi
      have hir : i ≠ s.running := hinv.ne_running hi Life.noConfusion
      obtain ⟨locals', hlocals', hfresh⟩ := hinv.fresh i u cr3' hi
      exact ⟨locals', hlocals', hfresh.congr (Handler.length_childStack_le u hlocals') (hother i hir hic)⟩

omit [DecidableEq ι] in
/-- The two halves of `contextswitch`, with the memory in between. -/
theorem switched_spec (new : ι) (ret : Word64) (hrun : s.life s.running = .started)
    (hclear : ∀ i x, s.Guarded task i x → 16 ≤ (x - (s.cpu.rsp - 16)).toNat) : ∃ k : Cpu,
      (∀ i x, s.Guarded task i x → ¬ InRecord (task s.running) x → k.mem x = s.cpu.mem x) ∧
      read k.mem (task s.running + 64) = ret ∧ read k.mem (task s.running + 120) = s.cpu.rsp ∧
      (s.switched task new ret).rip = read k.mem (task new + 64) ∧
      (StackClear (task new) (read k.mem (task new + 120)) →
        (s.switched task new ret).rsp = read k.mem (task new + 120) ∧
        (s.switched task new ret).cr3 = read k.mem (task new + 80) ∧
        ∀ x, 16 ≤ (x - (read k.mem (task new + 120) - 16)).toNat → (s.switched task new ret).mem x = k.mem x) := by
  obtain ⟨c, hc⟩ : ∃ c, c = s.calling task new ret := ⟨_, rfl⟩
  have hsp : c.rsp = s.cpu.rsp - 8 := hc ▸ Cpu.push_rsp
  have hrdi : c.reg .rdi = task s.running := hc ▸ rfl
  have hrsi : c.reg .rsi = task new := hc ▸ rfl
  have hmem : c.mem = write s.cpu.mem (s.cpu.rsp - 8) ret := hc ▸ rfl
  have hrecord : StackClear (c.reg .rdi) (c.rsp + 8) := by
    rw [hrdi, hsp, BitVec.sub_add_cancel]
    intro x hx
    refine hclear s.running x ?_
    rw [Guarded, hrun]
    exact .inl hx
  obtain ⟨k, hk⟩ : ∃ k, k = run id saveHalf c := ⟨_, rfl⟩
  have hsaved : Saved c k := hk ▸ saved_saveHalf id hrecord
  have hrip : read k.mem (c.reg .rdi + 64) = read c.mem c.rsp := hk ▸ saveHalf_rip id hrecord
  have hkrsi : k.reg .rsi = task new := (hsaved.reg .rsi (by decide) (by decide)).trans hrsi
  have hswitched : s.switched task new ret = run id loadHalf k := by
    rw [switched, show contextswitch = saveHalf ++ loadHalf from rfl, run_append, hk, hc]
  refine ⟨k, fun i x hx hrec => ?_, ?_, ?_, ?_, fun hnew => ?_⟩
  · obtain ⟨hbelow, -⟩ := le_sub_of_below (hclear i x hx)
    rw [hsaved.mem x (hrdi ▸ hrec) (hsp ▸ hbelow), hmem, write_of_le hbelow]
  · rw [← hrdi, hrip, hmem, hsp, read_write_self]
  · rw [← hrdi, hsaved.rsp, hsp, BitVec.sub_add_cancel]
  · rw [hswitched, loadHalf_rip, hkrsi]
  · rw [← hkrsi] at hnew ⊢
    have hloaded := loaded_loadHalf id hnew
    rw [hswitched]
    exact ⟨hloaded.rsp, hloaded.cr3, hloaded.mem⟩

omit [DecidableEq ι] in
/-- The guarded bytes of a task are its own. -/
theorem Guarded.inTask (hx : s.Guarded task i x) : InTask (task i) x := by
  unfold Guarded at hx
  split at hx
  · exact hx.elim
  · exact hx
  · rcases hx with hx | hx
    · exact inTask_of_record hx
    · rw [(kstack_eq _).1] at hx
      exact inTask_of_lt (by decide) hx

omit [DecidableEq ι] in
/-- The place of the sign is guarded. -/
theorem guarded_magic (hi : s.life i = .started) (hx : (x - kstack (task i) 511).toNat < 8) : s.Guarded task i x := by
  rw [Guarded, hi]
  exact .inr hx

omit [DecidableEq ι] in
/-- So is the record. -/
theorem guarded_record (hi : s.life i = .started) {a : Word64} (ha : a.toNat + 8 ≤ 128)
    (hx : (x - (task i + a)).toNat < 8) : s.Guarded task i x := by
  rw [Guarded, hi]
  refine .inl ?_
  rw [InRecord]
  bv_omega

/-- The sign is not in the record of any task. -/
theorem magic_notMem_record (hdisj : ∀ i j, i ≠ j → Disjoint (task i) (task j))
    (hx : (x - kstack (task i) 511).toNat < 8) : ¬ InRecord (task j) x := by
  rw [(kstack_eq _).1] at hx
  by_cases hij : i = j
  · rw [← hij, InRecord]
    bv_omega
  · intro hrec
    exact hdisj i j hij x (inTask_of_lt (by decide) hx) (inTask_of_record hrec)

/-- The other tasks after `contextswitch`, where what follows leaves them alone. -/
theorem Inv.switched {k c : Cpu} (hdisj : ∀ i j, i ≠ j → Disjoint (task i) (task j)) (hinv : s.Inv h task)
    (hret : ret ≠ h.back)
    (hsame : ∀ i x, s.Guarded task i x → ¬ InRecord (task s.running) x → k.mem x = s.cpu.mem x)
    (hrip : read k.mem (task s.running + 64) = ret)
    (hmem : ∀ i x, i ≠ new → s.Guarded task i x → c.mem x = k.mem x)
    (hnew : read c.mem (kstack (task new) 511) ≠ 10101) :
    Inv h task ⟨c, new, Function.update s.life new .started⟩ := by
  have hrecord : ∀ i, i ≠ s.running → ∀ x, InTask (task i) x → ¬ InRecord (task s.running) x := by
    intro i hi x hx hrec
    exact hdisj i _ hi x hx (inTask_of_record hrec)
  refine ⟨Function.update_self .., fun i hi => ?_, fun i hne hi => ?_, fun i u cr3 hi => ?_⟩
  · dsimp only at hi ⊢
    by_cases hin : i = new
    · exact hin ▸ hnew
    · rw [Function.update_of_ne hin] at hi
      have hword : read c.mem (kstack (task i) 511) = read s.cpu.mem (kstack (task i) 511) := by
        refine read_congr fun x hx => ?_
        rw [hmem i x hin (guarded_magic hi hx), hsame i x (guarded_magic hi hx) (magic_notMem_record hdisj hx)]
      rw [hword]
      exact hinv.magic i hi
  · dsimp only at hne hi ⊢
    rw [Function.update_of_ne hne] at hi
    have hword : read c.mem (task i + 64) = read k.mem (task i + 64) :=
      read_congr fun x hx => hmem i x hne (guarded_record hi (by decide) hx)
    rw [hword]
    by_cases hir : i = s.running
    -- The task that has called `contextswitch` now waits behind its call.
    · rw [hir, hrip]
      exact hret
    · have hword' : read k.mem (task i + 64) = read s.cpu.mem (task i + 64) :=
        read_congr fun x hx => hsame i x (guarded_record hi (by decide) hx)
          (hrecord i hir x (inTask_of_lt (by decide) hx))
      rw [hword']
      exact hinv.rip i hir hi
  · dsimp only at hi ⊢
    have hin : i ≠ new := by
      rintro rfl
      rw [Function.update_self] at hi
      cases hi
    rw [Function.update_of_ne hin] at hi
    have hir : i ≠ s.running := hinv.ne_running hi Life.noConfusion
    obtain ⟨locals, hlocals, hfresh⟩ := hinv.fresh i u cr3 hi
    refine ⟨locals, hlocals, hfresh.congr (Handler.length_childStack_le u hlocals) fun x hx => ?_⟩
    have hguarded : s.Guarded task i x := by
      rw [Guarded, hi]
      exact hx
    rw [hmem i x hin hguarded, hsame i x hguarded (hrecord i hir x hx)]

/-- `contextswitch` to a child that has not run yet. -/
theorem Inv.switch_forked {u : Cpu} (hdisj : ∀ i j, i ≠ j → Disjoint (task i) (task j)) (hinv : s.Inv h task)
    (hsound : s.Sound h task (.switch new ret regs)) (hlife : s.life new = .forked u cr3) :
    Handler.Resumed u (h.resume (task new) regs (s.switched task new ret)) 0 ∧
      (h.resume (task new) regs (s.switched task new ret)).cr3 = cr3 ∧
      Inv h task ⟨h.resume (task new) regs (s.switched task new ret), new, Function.update s.life new .started⟩ := by
  obtain ⟨hret, hclear, -⟩ := hsound
  obtain ⟨k, hsame, hrip, -, hnewRip, hloaded⟩ := switched_spec new ret hinv.running hclear
  have hne : new ≠ s.running := hinv.ne_running hlife Life.noConfusion
  obtain ⟨locals, hlocals, hfresh⟩ := hinv.fresh new u cr3 hlife
  have hlen := Handler.length_childStack (h := h) (v := u.reg .rax) u hlocals
  have hsize := h.size_le
  -- The child is still as it was made.
  have hkfresh : Fresh k.mem (task new) cr3 h.back (h.childStack locals (u.reg .rax) u) := by
    refine hfresh.congr (by omega) fun x hx => hsame new x ?_ fun hrec => hdisj new _ hne x hx (inTask_of_record hrec)
    rw [Guarded, hlife]
    exact hx
  obtain ⟨own, hown, hsp, hstack⟩ := hkfresh.stack
  -- The stack pointer of the child is far above its record, so what is pushed on the way stays apart from it.
  obtain ⟨h511, h509⟩ := kstack_eq (task new)
  obtain ⟨n, hn⟩ : ∃ n, n = 18 + (h.childStack locals (u.reg .rax) u).length := ⟨_, rfl⟩
  have hwords : (own ++ h.back :: h.childStack locals (u.reg .rax) u).length = n := by
    rw [List.length_append, List.length_cons, hown]
    omega
  rw [← hn, h509] at hsp hstack
  obtain ⟨hcsp, hccr3, hcmem⟩ := hloaded (by
    rw [hsp]
    intro x hx
    rw [InRecord] at hx
    bv_omega)
  rw [hsp] at hcsp hcmem
  obtain ⟨c, hc⟩ : ∃ c, c = s.switched task new ret := ⟨_, rfl⟩
  rw [← hc] at hnewRip hcsp hccr3 hcmem ⊢
  -- What is pushed on the way lies below the copied stack.
  have hat : At c (kstack (task new) 509) c.reg (own ++ h.back :: h.childStack locals (u.reg .rax) u) := by
    refine ⟨?_, ?_, fun _ _ => rfl⟩
    · rw [hcsp, hwords, h509]
    · rw [hcsp]
      refine hstack.congr (by omega) fun x hx => hcmem x ?_
      rw [hwords] at hx
      bv_omega
  have hmagic : read c.mem (kstack (task new) 511) = 10101 := by
    rw [← hkfresh.magic]
    refine read_congr fun x hx => hcmem x ?_
    rw [h511] at hx
    bv_omega
  obtain ⟨hresumed, hcr3, hmem⟩ := Handler.resume_child regs (hnewRip.trans hkfresh.rip) hmagic hown hlocals hat
  refine ⟨hresumed, hcr3.trans (hccr3.trans hkfresh.cr3), hinv.switched hdisj hret hsame hrip ?_ ?_⟩
  -- The child has written nothing but its own PCB.
  · intro i x hi hx
    have hout : ¬ InTask (task new) x := hdisj i new hi x hx.inTask
    rw [InTask] at hout
    rw [hmem, h511, write_of_le (by bv_omega)]
    exact hcmem x (by bv_omega)
  · rw [hmem, read_write_self]
    decide

/-- `contextswitch` to another task. -/
theorem Inv.switch_started (hdisj : ∀ i j, i ≠ j → Disjoint (task i) (task j)) (hinv : s.Inv h task)
    (hsound : s.Sound h task (.switch new ret regs)) (hlife : s.life new = .started) :
    (s.switched task new ret).rip ≠ h.back ∧
      Inv h task ⟨h.resume (task new) regs (s.switched task new ret), new, Function.update s.life new .started⟩ := by
  obtain ⟨hret, hclear, hstack⟩ := hsound
  obtain ⟨k, hsame, hrip, hrsp, hnewRip, hloaded⟩ := switched_spec new ret hinv.running hclear
  have hword : new ≠ s.running → ∀ a : Word64, a.toNat + 8 ≤ 128 →
      read k.mem (task new + a) = read s.cpu.mem (task new + a) := by
    intro hne a ha
    refine read_congr fun x hx => hsame new x (guarded_record hlife ha hx) fun hrec => ?_
    exact hdisj new _ hne x (inTask_of_lt (by omega) hx) (inTask_of_record hrec)
  have hnewStack : read k.mem (task new + 120) = s.newStack task new := by
    unfold newStack
    split_ifs with hne
    · rw [hne, hrsp]
    · exact hword hne 120 (by decide)
  -- Its record has the address behind a call of `contextswitch`, its own or that of this switch.
  have hback : (s.switched task new ret).rip ≠ h.back := by
    rw [hnewRip]
    by_cases hne : new = s.running
    · rw [hne, hrip]
      exact hret
    · rw [hword hne 64 (by decide)]
      exact hinv.rip new hne hlife
  have happart := hstack hlife
  obtain ⟨-, -, hmem⟩ := hloaded (by
    rw [hnewStack]
    intro x hx
    refine happart new x ?_
    rw [Guarded, hlife]
    exact .inl hx)
  rw [hnewStack] at hmem
  have hresume : h.resume (task new) regs (s.switched task new ret) = s.switched task new ret := if_neg hback
  rw [hresume]
  refine ⟨hback, hinv.switched hdisj hret hsame hrip (fun i x _ hx => hmem x (happart i x hx)) ?_⟩
  have hsign : read (s.switched task new ret).mem (kstack (task new) 511) = read s.cpu.mem (kstack (task new) 511) := by
    refine read_congr fun x hx => ?_
    rw [hmem x (happart new x (guarded_magic hlife hx)),
      hsame new x (guarded_magic hlife hx) (magic_notMem_record hdisj hx)]
  rw [hsign]
  exact hinv.magic new hlife

/-- What `fork` can do. -/
theorem step_fork {s' : ForkSys ι} (hstep : s.step h task (.fork child cr3 pid locals own) = some s') :
    s.life child = .unused ∧ s' = ⟨s.behindFork h task child cr3 pid locals own, s.running,
      Function.update s.life child (.forked s.cpu cr3)⟩ := by
  rw [ForkSys.step] at hstep
  cases hlife : s.life child with
  | unused =>
    rw [hlife] at hstep
    dsimp only at hstep
    split_ifs at hstep
    exact ⟨rfl, (Option.some.inj hstep).symm⟩
  | forked u cr3' =>
    rw [hlife] at hstep
    cases hstep
  | started =>
    rw [hlife] at hstep
    cases hstep

/-- What a switch can do. -/
theorem step_switch {s' : ForkSys ι} (hstep : s.step h task (.switch new ret regs) = some s') :
    s.life new ≠ .unused ∧
      s' = ⟨h.resume (task new) regs (s.switched task new ret), new, Function.update s.life new .started⟩ := by
  rw [ForkSys.step] at hstep
  cases hlife : s.life new with
  | unused =>
    rw [hlife] at hstep
    cases hstep
  | forked u cr3 =>
    rw [hlife] at hstep
    exact ⟨Life.noConfusion, (Option.some.inj hstep).symm⟩
  | started =>
    rw [hlife] at hstep
    exact ⟨Life.noConfusion, (Option.some.inj hstep).symm⟩

/-- Every action keeps the invariant. -/
theorem Inv.step {op : ForkOp ι} {s' : ForkSys ι} (hdisj : ∀ i j, i ≠ j → Disjoint (task i) (task j))
    (hinv : s.Inv h task) (hsound : s.Sound h task op) (hstep : s.step h task op = some s') : s'.Inv h task := by
  cases op with
  | work c =>
    obtain rfl := Option.some.inj hstep
    refine ⟨hinv.running, fun i hi => ?_, fun i hne hi => ?_, fun i u cr3 hi => ?_⟩
    · have hword : read c.mem (kstack (task i) 511) = read s.cpu.mem (kstack (task i) 511) :=
        read_congr fun x hx => hsound i x (guarded_magic hi hx) fun _ => magic_notMem_record hdisj hx
      dsimp only
      rw [hword]
      exact hinv.magic i hi
    · have hword : read c.mem (task i + 64) = read s.cpu.mem (task i + 64) :=
        read_congr fun x hx => hsound i x (guarded_record hi (by decide) hx) fun hir => absurd hir hne
      dsimp only
      rw [hword]
      exact hinv.rip i hne hi
    · have hir : i ≠ s.running := by
        rintro rfl
        rw [hinv.running] at hi
        cases hi
      obtain ⟨locals, hlocals, hfresh⟩ := hinv.fresh i u cr3 hi
      refine ⟨locals, hlocals, hfresh.congr (Handler.length_childStack_le u hlocals) fun x hx =>
        hsound i x ?_ fun hir' => absurd hir' hir⟩
      rw [Guarded, hi]
      exact hx
  | fork child cr3 pid locals own =>
    obtain ⟨hlife, rfl⟩ := step_fork hstep
    exact (hinv.fork cr3 pid hdisj hsound.1 hsound.2 hlife).2
  | switch new ret regs =>
    obtain ⟨hlife, rfl⟩ := step_switch hstep
    cases hl : s.life new with
    | unused => exact absurd hl hlife
    | forked u cr3 => exact (hinv.switch_forked hdisj hsound hl).2.2
    | started => exact (hinv.switch_started hdisj hsound hl).2
  | free i =>
    rw [ForkSys.step] at hstep
    split_ifs at hstep with hi
    obtain rfl := Option.some.inj hstep
    -- Memory stays, and less is claimed about it.
    have hlife : ∀ j l, Function.update s.life i .unused j = l → l ≠ .unused → s.life j = l := by
      intro j l hj hl
      by_cases hji : j = i
      · rw [hji, Function.update_self] at hj
        exact absurd hj.symm hl
      · rwa [Function.update_of_ne hji] at hj
    refine ⟨(Function.update_of_ne (Ne.symm hi) ..).trans hinv.running, fun j hj => ?_, fun j hne hj => ?_,
      fun j u cr3 hj => ?_⟩
    · exact hinv.magic j (hlife j _ hj Life.noConfusion)
    · exact hinv.rip j hne (hlife j _ hj Life.noConfusion)
    · exact hinv.fresh j u cr3 (hlife j _ hj Life.noConfusion)

/-- `fork` returns as it should. -/
theorem Inv.returns {op : ForkOp ι} (hdisj : ∀ i j, i ≠ j → Disjoint (task i) (task j)) (hinv : s.Inv h task)
    (hsound : s.Sound h task op) : s.Returns h task op := by
  intro s' hstep
  cases op with
  | work c => trivial
  | fork child cr3 pid locals own =>
    obtain ⟨hlife, rfl⟩ := step_fork hstep
    exact (hinv.fork cr3 pid hdisj hsound.1 hsound.2 hlife).1
  | switch new ret regs =>
    obtain ⟨hlife, rfl⟩ := step_switch hstep
    cases hl : s.life new with
    | unused => exact absurd hl hlife
    | forked u cr3 =>
      obtain ⟨hresumed, hcr3, -⟩ := hinv.switch_forked hdisj hsound hl
      dsimp only
      rw [hl]
      exact ⟨hresumed, hcr3⟩
    | started =>
      dsimp only
      rw [hl]
      exact (hinv.switch_started hdisj hsound hl).1
  | free i => trivial

variable (h task s) in
/-- The system before the first `fork`: nobody has the sign, and nobody waits behind `fork_process`. -/
structure Booted : Prop where
  /-- The running task. -/
  running : s.life s.running = .started
  /-- There are no children. -/
  forked : ∀ i u cr3, s.life i ≠ .forked u cr3
  /-- The signs. -/
  magic : ∀ i, s.life i = .started → read s.cpu.mem (kstack (task i) 511) ≠ 10101
  /-- The addresses to go on at. -/
  rip : ∀ i, i ≠ s.running → s.life i = .started → read s.cpu.mem (task i + 64) ≠ h.back

end ForkSys

open ForkSys in
/-- In every run of any number of tasks, `fork` returns the pid of the child in the parent, and 0 in the child when
this runs for the first time, both with the registers and the stack of the parent. No other task goes on behind
`fork_process`. -/
theorem fork_returns_twice {ι : Type} [DecidableEq ι] (h : Handler) (task : ι → Word64)
    (hdisj : ∀ i j, i ≠ j → Disjoint (task i) (task j)) (s₀ : ForkSys ι) (h₀ : s₀.Booted h task)
    (ops : List (ForkOp ι)) (hsound : Along (step h task) (Sound h task) s₀ ops) :
    Along (step h task) (Returns h task) s₀ ops := by
  have hinv : s₀.Inv h task :=
    ⟨h₀.running, h₀.magic, h₀.rip, fun i u cr3 hi => absurd hi (h₀.forked i u cr3)⟩
  refine (hsound.congr hinv (fun s op s' hi hs hstep => hi.step hdisj hs hstep) (Q := fun _ _ => True)
    fun s op hi hs => iff_true_intro (hi.returns hdisj hs)).mpr ?_
  exact Runs.along_of_forall fun _ _ => trivial

/-- A `syscall_handler` without a frame. -/
def bareHandler : Handler where
  ret := 0x8010
  back := 0x9020
  size := 0
  size_le := by decide
  leave := fun c => { c.set .rsp (c.rsp + 8) with rip := read c.mem c.rsp }
  leave_rsp _ := rfl
  leave_rip c := by
    have hzero : c.rsp + 8 * BitVec.ofNat 64 0 = c.rsp := by simp
    exact congrArg (read c.mem) hzero.symm
  leave_rax _ := rfl
  leave_cr3 _ := rfl
  leave_mem _ := rfl

/-- The PCBs of two tasks. -/
def twoTasks : Bool → Word64
  | false => 0x10000
  | true => 0x20000

/-- A program at `fork`, and a free PCB. -/
def forkStart : ForkSys Bool where
  cpu := ⟨fun r => if r = .rsp then 0x5000 else if r = .rax then 57 else 0, 0x400000, 0x202, 43, 35, 0, fun _ => 0⟩
  running := false
  life := fun i => if i then .unused else .started

/-- The program forks, and the child runs. -/
def forkRun : List (ForkOp Bool) := [.fork true 0x7000 1 [] (List.replicate 17 0), .switch true 0x8500 0]

theorem twoTasks_disjoint (i j : Bool) (h : i ≠ j) : Disjoint (twoTasks i) (twoTasks j) := by
  intro x hi hj
  rw [InTask] at hi hj
  cases i <;> cases j <;> first | exact h rfl | (simp only [twoTasks] at hi hj; bv_omega)

theorem forkStart_booted : forkStart.Booted bareHandler twoTasks where
  running := rfl
  forked i u cr3 := by
    cases i <;> exact Life.noConfusion
  magic i _ := by
    cases i <;> decide
  rip i hi hlife := by
    cases i
    · exact absurd rfl hi
    · cases hlife

open ForkSys in
/-- The frames are laid out as they should be, and the stack of the program is apart from the PCBs. -/
theorem forkRun_sound : Along (step bareHandler twoTasks) (Sound bareHandler twoTasks) forkStart forkRun := by
  have hfirst : Sound bareHandler twoTasks forkStart (.fork true 0x7000 1 [] (List.replicate 17 0)) := ⟨rfl, rfl⟩
  refine ⟨hfirst, fun s hs => ⟨⟨by decide, ?_, fun hlife => ?_⟩, fun _ _ => trivial⟩⟩
  · have hinv : forkStart.Inv bareHandler twoTasks :=
      ⟨forkStart_booted.running, forkStart_booted.magic, forkStart_booted.rip,
        fun i u cr3 hi => absurd hi (forkStart_booted.forked i u cr3)⟩
    have hsp : s.cpu.rsp = 0x5000 := (hinv.returns twoTasks_disjoint hfirst s hs).reg .rsp (by decide)
    intro i x hx
    have hin := hx.inTask
    rw [InTask] at hin
    rw [hsp]
    cases i <;> simp only [twoTasks] at hin <;> bv_omega
  · obtain ⟨-, rfl⟩ := step_fork hs
    cases hlife

/-- The program goes on with 1, and the child with 0. -/
theorem fork_returns_twice_two :
    Along (ForkSys.step bareHandler twoTasks) (ForkSys.Returns bareHandler twoTasks) forkStart forkRun :=
  fork_returns_twice bareHandler twoTasks twoTasks_disjoint forkStart forkStart_booted forkRun forkRun_sound

end Nascent.Asm
