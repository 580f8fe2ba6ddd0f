import Nascent.Asm.Stubs
import Nascent.Lib.Descriptors

/-!
# The tables of the processor

`init_gdt` of `gdt.c` and `init_idt` of `idt.c`, with the tables that they fill and the selectors that
`return_to_user` of `process.c` leaves the kernel with. The routines are at addresses that the linker chooses.

A user program enters the kernel through the system call at 128 and through nothing else: any other `int`
raises the general protection fault (`take_init`). Only `return_to_user`, and a return from an interrupt of a user
program, leave for the lowest privilege (`leave_init_iff`).

All exceptions but 13 and 14 go to `isr_handler`, whether they push an error code or not. Where they do, it
returns to the error code (`exception_returns`), as `int13` does.
-/

namespace Nascent.Asm

open Memory Descriptors

/-! ## `gdt.c` -/

/-- `GDT_CS`. -/
def gdtCs : Word := 0x00180000000000

/-- `GDT_DS`. -/
def gdtDs : Word := 0x00100000000000

/-- `DPL0`. -/
def dpl0 : Word := 0x00000000000000

/-- `DPL3`. -/
def dpl3 : Word := 0x00600000000000

/-- `P`. -/
def present : Word := 0x00800000000000

/-- `L`. -/
def long : Word := 0x20000000000000

/-- `W`. -/
def writable : Word := 0x00020000000000

/-- `gdt`, of `MAX_GDT` words. -/
def gdt : List Word :=
  [0,
    gdtCs ||| present ||| dpl0 ||| long,
    gdtDs ||| present ||| writable ||| dpl0,
    0,
    gdtDs ||| present ||| writable ||| dpl3,
    gdtCs ||| present ||| dpl3 ||| long,
    0, 0] ++ List.replicate 24 0

/-- `struct sys_segment_descriptor`. -/
structure SysSegmentDescriptor where
  sdLolimit : BitVec 16
  sdLobase : BitVec 24
  sdType : BitVec 5
  sdDpl : BitVec 2
  sdP : BitVec 1
  sdHilimit : BitVec 4
  sdXx1 : BitVec 3
  sdGran : BitVec 1
  sdHibase : BitVec 40
  sdXx2 : BitVec 8
  sdZero : BitVec 5
  sdXx3 : BitVec 19

/-- The first word of it. The base straddles the two. -/
def SysSegmentDescriptor.lo (sd : SysSegmentDescriptor) : Word :=
  sd.sdHibase.extractLsb' 0 8 ++ sd.sdGran ++ sd.sdXx1 ++ sd.sdHilimit ++ sd.sdP ++ sd.sdDpl ++ sd.sdType ++
    sd.sdLobase ++ sd.sdLolimit

/-- The second word. -/
def SysSegmentDescriptor.hi (sd : SysSegmentDescriptor) : Word :=
  sd.sdXx3 ++ sd.sdZero ++ sd.sdXx2 ++ sd.sdHibase.extractLsb' 8 32

/-- The size of `struct tss_t`. -/
def tssSize : ℕ := 104

/-- The descriptor that `init_gdt` writes, of zeros where it writes nothing. -/
def tssDescriptor (tss : Word) : SysSegmentDescriptor where
  sdLolimit := BitVec.ofNat 16 (tssSize - 1)
  sdLobase := tss.setWidth 24
  sdType := 9
  sdDpl := 0
  sdP := 1
  sdHilimit := 0
  sdXx1 := 0
  sdGran := 0
  sdHibase := (tss >>> 24).setWidth 40
  sdXx2 := 0
  sdZero := 0
  sdXx3 := 0

/-- `init_gdt`, with `tss` at an address. -/
def initGdt (tss : Word) : List Word := (gdt.set 6 (tssDescriptor tss).lo).set 7 (tssDescriptor tss).hi

/-! ## `idt.c` -/

/-- `struct idt_row`. -/
structure IdtRow where
  offsetLow : BitVec 16
  selector : BitVec 16
  zero : BitVec 8
  typeAttr : BitVec 8
  offsetMid : BitVec 16
  offsetHigh : BitVec 32
  zero1 : BitVec 32

/-- The two words of a row. -/
def IdtRow.words (r : IdtRow) : Word × Word :=
  (r.offsetMid ++ r.typeAttr ++ r.zero ++ r.selector ++ r.offsetLow, r.zero1 ++ r.offsetHigh)

/-- The row that `add_idt` writes. -/
def idtRow (funcBase typeAttr : Word) : IdtRow where
  offsetLow := (funcBase &&& 0xffff).setWidth 16
  selector := 0x08
  zero := 0
  typeAttr := typeAttr.setWidth 8
  offsetMid := ((funcBase >>> 16) &&& 0xffff).setWidth 16
  offsetHigh := ((funcBase >>> 32) &&& 0xffffffff).setWidth 32
  zero1 := 0

/-- `add_idt`. -/
def addIdt (funcBase : Word) (offset : ℕ) (typeAttr : Word) (idt : List IdtRow) : List IdtRow :=
  idt.set offset (idtRow funcBase typeAttr)

/-- The routines that interrupts enter. -/
inductive Routine
  /-- One of the stubs. -/
  | stub (s : Stub)
  /-- `sys_int`. -/
  | sysInt
deriving DecidableEq

/-- The loops of `init_idt`: the rows from `lo` to before `hi`. -/
def addIdts (funcBase : Word) (lo hi : ℕ) (typeAttr : Word) (idt : List IdtRow) : List IdtRow :=
  (List.range' lo (hi - lo)).foldl (fun idt i => addIdt funcBase i typeAttr idt) idt

/-- `init_idt`, from the table of zeros, with the routines at their addresses. -/
def initIdt (address : Routine → Word) : List IdtRow :=
  let idt := List.replicate 256 (⟨0, 0, 0, 0, 0, 0, 0⟩ : IdtRow)
  let idt := addIdts (address (.stub .isrHandler)) 0 32 0x8E idt
  let idt := addIdt (address (.stub .int13)) 13 0x8E idt
  let idt := addIdt (address (.stub .pgfault)) 14 0x8E idt
  let idt := addIdt (address (.stub .timer)) 32 0x8E idt
  let idt := addIdt (address (.stub .keyboard)) 33 0x8E idt
  let idt := addIdts (address (.stub .isrHandler)) 34 128 0x8E idt
  let idt := addIdt (address .sysInt) 128 0xEE idt
  addIdts (address (.stub .isrHandler)) 129 256 0x8E idt

/-- The interrupt table, as the processor sees it. -/
def idtWords (address : Routine → Word) : List (Word × Word) := (initIdt address).map IdtRow.words

/-! ## What the tables say -/

/-- The routine of an interrupt. -/
def routine (v : Vector) : Routine :=
  match v.toNat with
  | 13 => .stub .int13
  | 14 => .stub .pgfault
  | 32 => .stub .timer
  | 33 => .stub .keyboard
  | 128 => .sysInt
  | _ => .stub .isrHandler

/-- The code of the kernel. -/
def kernelCode : Segment := ⟨8, 0, true, true, false⟩

/-- The data of the kernel. -/
def kernelData : Segment := ⟨2, 0, true, false, false⟩

/-- The data of the programs. -/
def userData : Segment := ⟨2, 3, true, false, false⟩

/-- The code of the programs. -/
def userCode : Segment := ⟨8, 3, true, true, false⟩

/-- The segment at an index. -/
def segmentAt : ℕ → Option Segment
  | 1 => some kernelCode
  | 2 => some kernelData
  | 4 => some userData
  | 5 => some userCode
  | _ => none

/-- The gate of an interrupt. -/
def gate (address : Routine → Word) (v : Vector) : Gate where
  offset := address (routine v)
  selector := 8
  ist := 0
  type := 14
  dpl := if v = 128 then 3 else 0
  present := true

variable {address : Routine → Word} {tss funcBase typeAttr : Word} {idt : List IdtRow} {v : Vector}
  {lo hi i n : ℕ}

/-- A loop of `init_idt` writes its rows only. -/
theorem addIdts_getElem? :
    (addIdts funcBase lo hi typeAttr idt)[i]? =
      if lo ≤ i ∧ i < hi ∧ i < idt.length then some (idtRow funcBase typeAttr) else idt[i]? := by
  obtain ⟨n, hn⟩ : ∃ n, hi - lo = n := ⟨_, rfl⟩
  unfold addIdts
  rw [hn]
  induction n generalizing lo idt with
  | zero =>
    rw [if_neg (by omega)]
    rfl
  | succ n ih =>
    rw [List.range'_succ, List.foldl_cons, ih (by omega), addIdt, List.length_set, List.getElem?_set]
    grind

/-! ## The rows -/

/-- A field of an address, by a shift and a mask. -/
theorem setWidth_mask (a : Word) (n w : ℕ) (hw : w ≤ 64) :
    ((a >>> n) &&& (BitVec.allOnes w).setWidth 64).setWidth w = a.extractLsb' n w := by
  apply BitVec.eq_of_getLsbD_eq
  intro i hi
  simp [hi]
  omega

@[simp] theorem addIdts_length : (addIdts funcBase lo hi typeAttr idt).length = idt.length := by
  unfold addIdts
  induction List.range' lo (hi - lo) generalizing idt with
  | nil => rfl
  | cons i l ih => rw [List.foldl_cons, ih, addIdt, List.length_set]

/-- Every interrupt has the row of its routine. -/
theorem initIdt_getElem? : (initIdt address)[v.toNat]? =
    some (idtRow (address (routine v)) (if v = 128 then 0xEE else 0x8E)) := by
  have hv := v.isLt
  have h128 : v = 128 ↔ v.toNat = 128 := ⟨fun h => by rw [h]; rfl, fun h => BitVec.eq_of_toNat_eq h⟩
  unfold initIdt routine
  simp only [addIdts_getElem?, addIdt, List.getElem?_set, addIdts_length, List.length_set,
    List.length_replicate, h128]
  split <;> grind

/-- The row is that of the gate. -/
theorem idtRow_words : (idtRow (address (routine v)) (if v = 128 then 0xEE else 0x8E)).words =
    (gate address v).words := by
  have hlow : ((address (routine v)) &&& 0xffff).setWidth 16 = (address (routine v)).extractLsb' 0 16 :=
    setWidth_mask _ 0 16 (by decide)
  have hmid : ((address (routine v) >>> 16) &&& 0xffff).setWidth 16 =
    (address (routine v)).extractLsb' 16 16 := setWidth_mask _ 16 16 (by decide)
  have hhigh : ((address (routine v) >>> 32) &&& 0xffffffff).setWidth 32 =
    (address (routine v)).extractLsb' 32 32 := setWidth_mask _ 32 32 (by decide)
  have hzero : (0 : BitVec 8) = 0#5 ++ (0 : BitVec 3) := by decide
  have hattr : (if v = 128 then (0xEE : Word) else 0x8E).setWidth 8 =
      BitVec.ofBool true ++ (if v = 128 then (3 : BitVec 2) else 0) ++ 0#1 ++ (14 : BitVec 4) := by
    split_ifs <;> decide
  unfold idtRow IdtRow.words Gate.words gate
  dsimp only
  rw [hlow, hmid, hhigh, hattr, hzero]
  rfl

/-! ## The segments -/

/-- No word of the task state segment is a segment of code or data. -/
theorem tssDescriptor_read : Segment.read (tssDescriptor tss).lo = none ∧
    Segment.read (tssDescriptor tss).hi = none := by
  constructor
  · rw [Segment.read, if_neg]
    simp only [SysSegmentDescriptor.lo, tssDescriptor, BitVec.getLsbD_append]
    simp
  · rw [Segment.read, if_neg]
    simp only [SysSegmentDescriptor.hi, tssDescriptor, BitVec.getLsbD_append]
    simp

/-- There are four segments of code and data. -/
theorem initGdt_read : (initGdt tss)[n]?.bind Segment.read = segmentAt n := by
  rcases Nat.lt_or_ge n 32 with hn | hn
  · rw [initGdt, List.getElem?_set, List.getElem?_set]
    by_cases h7 : 7 = n
    · rw [if_pos h7, List.length_set, if_pos (by decide), Option.bind_some, tssDescriptor_read.2, ← h7]
      rfl
    by_cases h6 : 6 = n
    · rw [if_neg h7, if_pos h6, if_pos (by decide), Option.bind_some, tssDescriptor_read.1, ← h6]
      rfl
    rw [if_neg h7, if_neg h6]
    have hrest : ∀ n < 32, gdt[n]?.bind Segment.read = segmentAt n := by decide
    exact hrest n hn
  · have hnone : (initGdt tss)[n]? = none := List.getElem?_eq_none hn
    rw [hnone]
    match n, hn with
    | n + 32, _ => rfl

/-- A selector of the global table names one of them. -/
theorem lookup_initGdt {selector : BitVec 16} : (lookup (initGdt tss) selector).bind Segment.read =
    if selector.toNat / 4 % 2 = 1 then none else segmentAt (selector.toNat / 8) := by
  have hlt := selector.isLt
  have hti : selector.extractLsb' 2 1 = 0 ↔ ¬ selector.toNat / 4 % 2 = 1 := by
    rw [BitVec.toNat_eq, BitVec.extractLsb'_toNat, Nat.shiftRight_eq_div_pow]
    simp
  have hindex : (selector.extractLsb' 3 13).toNat = selector.toNat / 8 := by
    rw [BitVec.extractLsb'_toNat, Nat.shiftRight_eq_div_pow]
    omega
  unfold lookup
  by_cases h : selector.toNat / 4 % 2 = 1
  · rw [if_neg (mt hti.mp (not_not.mpr h)), if_pos h]
    rfl
  · rw [if_pos (hti.mpr h), if_neg h, hindex, initGdt_read]

/-- The descriptor is that of the task state segment, wherever it is. -/
theorem tss_read : Tss.read (tssDescriptor tss).lo (tssDescriptor tss).hi =
    some ⟨tss, BitVec.ofNat 20 (tssSize - 1), 9, 0, true, false⟩ := by
  have hkind : (tssDescriptor tss).lo.getLsbD 44 = false := by
    simp only [SysSegmentDescriptor.lo, tssDescriptor, BitVec.getLsbD_append]
    simp
  rw [Tss.read, if_neg (by rw [hkind]; decide)]
  simp only [Option.some.injEq, Tss.mk.injEq]
  simp only [SysSegmentDescriptor.lo, SysSegmentDescriptor.hi, tssDescriptor]
  refine ⟨?_, ?_, ?_, ?_, ?_, ?_⟩
  · apply BitVec.eq_of_getLsbD_eq
    intro i hi
    simp only [BitVec.getLsbD_append, BitVec.getLsbD_extractLsb']
    simp
    grind
  · simp (disch := omega) only [BitVec.extractLsb'_append_eq_of_le, BitVec.extractLsb'_append_eq_of_add_le]
    rfl
  · simp (disch := omega) only [BitVec.extractLsb'_append_eq_of_le, BitVec.extractLsb'_append_eq_of_add_le]
    rfl
  · simp (disch := omega) only [BitVec.extractLsb'_append_eq_of_le, BitVec.extractLsb'_append_eq_of_add_le]
    rfl
  · simp only [BitVec.getLsbD_append]
    simp
  · simp only [BitVec.getLsbD_append]
    simp

/-! ## Entering the kernel -/

/-- All gates are sound. -/
theorem gate_sound (h : ∀ r, canonical (address r) = true) :
    (gate address v).Sound (initGdt tss) kernelCode where
  type := rfl
  present := rfl
  ist := rfl
  selector := show (8 : BitVec 16).extractLsb' 2 14 ≠ 0 by decide
  segment := by
    rw [lookup_initGdt]
    show (if (8 : BitVec 16).toNat / 4 % 2 = 1 then none else segmentAt ((8 : BitVec 16).toNat / 8)) = _
    rfl
  code := rfl
  conforming := rfl
  dpl := rfl
  segmentPresent := rfl
  long := rfl
  big := rfl
  offset := h _

theorem enter_init {software : Bool} {cpl : BitVec 2} (h : ∀ r, canonical (address r) = true) :
    enter (initGdt tss) (idtWords address) cpl v software =
      if software ∧ (gate address v).dpl < cpl then
        .error (.protection (8 * v.setWidth 64 + 2 + if software then 0 else 1))
      else .ok ((gate address v).entry cpl) := by
  refine enter_of_sound ?_ (gate_sound h)
  rw [idtWords, List.getElem?_map, initIdt_getElem?, Option.map_some, idtRow_words]

/-- The vector that an event comes to, and the error code on the stack. -/
def target (cpl : BitVec 2) : Event → Vector × Option Word
  | .int v => if cpl ≠ 0 ∧ v ≠ 128 then (13, some (8 * v.setWidth 64 + 2)) else (v, none)
  | .exception f => (f.vector, if hasError f.vector then some f.error else none)
  | .device v => (v, none)

/-- An exception enters its routine. -/
theorem raise_init {cpl : BitVec 2} {f : Fault} (h : ∀ r, canonical (address r) = true) :
    raise (initGdt tss) (idtWords address) cpl f = some
      { (gate address f.vector).entry cpl with
        error := if hasError f.vector then some f.error else none } := by
  rw [raise, enter_init h, if_neg (by simp)]

/-- An instruction has the privilege for the system call, or that of the kernel. -/
theorem gate_dpl_lt {cpl : BitVec 2} : (gate address v).dpl < cpl ↔ cpl ≠ 0 ∧ v ≠ 128 := by
  have hcpl := cpl.isLt
  unfold gate
  dsimp only
  split_ifs with hv
  · rw [BitVec.lt_def]
    simp [hv]
    omega
  · have hpos : 0 < cpl ↔ cpl ≠ 0 := by bv_omega
    exact ⟨fun h => ⟨hpos.mp h, hv⟩, fun h => hpos.mpr h.1⟩

/-- Every event enters its routine. -/
theorem take_init {cpl : BitVec 2} (h : ∀ r, canonical (address r) = true) (ev : Event) :
    take (initGdt tss) (idtWords address) cpl ev =
      some { (gate address (target cpl ev).1).entry cpl with error := (target cpl ev).2 } := by
  cases ev with
  | int v =>
    rw [take, enter_init h]
    by_cases hlevel : cpl ≠ 0 ∧ v ≠ 128
    · have herror : hasError 13 = true := by decide
      have hzero (x : Word) : x + 0 = x := BitVec.add_zero x
      rw [if_pos ⟨rfl, gate_dpl_lt.mpr hlevel⟩, target, if_pos hlevel]
      dsimp only
      rw [raise_init h, if_pos rfl, Fault.protection, if_pos herror, hzero]
    · rw [if_neg fun hc => hlevel (gate_dpl_lt.mp hc.2), target, if_neg hlevel]
      rfl
  | exception f => rw [take, raise_init h, target]
  | device v =>
    rw [take, enter_init h, if_neg (by simp)]
    rfl

/-! ## Leaving the kernel -/

variable {cs ss : BitVec 16} {l : BitVec 2}

/-- The privilege level of a selector. -/
theorem rpl_toNat : (cs.extractLsb' 0 2).toNat = cs.toNat % 4 := by
  rw [BitVec.extractLsb'_toNat, Nat.shiftRight_zero]

/-- A null selector. -/
theorem null_iff : cs.extractLsb' 2 14 = 0 ↔ cs.toNat < 4 := by
  have hlt := cs.isLt
  rw [BitVec.toNat_eq, BitVec.extractLsb'_toNat, Nat.shiftRight_eq_div_pow]
  simp
  omega

/-- A segment is one of the four. -/
theorem segmentAt_eq_some {s : Segment} (h : segmentAt n = some s) :
    n = 1 ∧ s = kernelCode ∨ n = 2 ∧ s = kernelData ∨ n = 4 ∧ s = userData ∨ n = 5 ∧ s = userCode := by
  unfold segmentAt at h
  split at h <;> simp_all

/-- A selector that names a segment. -/
theorem lookup_eq_some {s : Segment} (h : (lookup (initGdt tss) cs).bind Segment.read = some s) :
    cs.toNat / 4 % 2 = 0 ∧ segmentAt (cs.toNat / 8) = some s := by
  rw [lookup_initGdt] at h
  split_ifs at h with hti
  exact ⟨by omega, h⟩

/-- A code segment and the privilege level of its selector. -/
theorem code_eq {s : Segment} (h : (lookup (initGdt tss) cs).bind Segment.read = some s) (hcode : s.code = true)
    (hdpl : s.dpl = cs.extractLsb' 0 2) : cs = 8 ∧ s = kernelCode ∨ cs = 43 ∧ s = userCode := by
  obtain ⟨hti, hs⟩ := lookup_eq_some h
  have hrpl := @rpl_toNat cs
  rw [← hdpl] at hrpl
  obtain ⟨hn, rfl⟩ | ⟨hn, rfl⟩ | ⟨hn, rfl⟩ | ⟨hn, rfl⟩ := segmentAt_eq_some hs
  · refine .inl ⟨BitVec.eq_of_toNat_eq ?_, rfl⟩
    rw [show kernelCode.dpl.toNat = 0 from rfl] at hrpl
    show cs.toNat = 8
    omega
  · cases hcode
  · cases hcode
  · refine .inr ⟨BitVec.eq_of_toNat_eq ?_, rfl⟩
    rw [show userCode.dpl.toNat = 3 from rfl] at hrpl
    show cs.toNat = 43
    omega

/-- A data segment and the privilege level of its selector. -/
theorem data_eq {s : Segment} (h : (lookup (initGdt tss) ss).bind Segment.read = some s) (hdata : s.writable = true)
    (hdpl : s.dpl = ss.extractLsb' 0 2) : ss = 16 ∧ s = kernelData ∨ ss = 35 ∧ s = userData := by
  obtain ⟨hti, hs⟩ := lookup_eq_some h
  have hrpl := @rpl_toNat ss
  rw [← hdpl] at hrpl
  obtain ⟨hn, rfl⟩ | ⟨hn, rfl⟩ | ⟨hn, rfl⟩ | ⟨hn, rfl⟩ := segmentAt_eq_some hs
  · cases hdata
  · refine .inl ⟨BitVec.eq_of_toNat_eq ?_, rfl⟩
    rw [show kernelData.dpl.toNat = 0 from rfl] at hrpl
    show ss.toNat = 16
    omega
  · refine .inr ⟨BitVec.eq_of_toNat_eq ?_, rfl⟩
    rw [show userData.dpl.toNat = 3 from rfl] at hrpl
    show ss.toNat = 35
    omega
  · cases hdata

/-- A return to the lowest privilege needs the two selectors of `return_to_user`, and one to the highest privilege
those of the kernel. -/
theorem leave_init_iff : leave (initGdt tss) cs ss = some l ↔
    cs = 43 ∧ ss = 35 ∧ l = 3 ∨ cs = 8 ∧ (ss = 16 ∨ ss.toNat < 4) ∧ l = 0 := by
  constructor
  · intro h
    unfold leave at h
    dsimp only at h
    split at h
    · cases h
    rename_i c hc
    have hconf : c.conforming = false := by
      obtain ⟨-, rfl⟩ | ⟨-, rfl⟩ | ⟨-, rfl⟩ | ⟨-, rfl⟩ := segmentAt_eq_some (lookup_eq_some hc).2 <;> rfl
    simp only [hconf, Bool.false_eq_true, if_false] at h
    split_ifs at h with hbad hlevel hnull hrpl
    · -- A null selector for the stack.
      obtain rfl := Option.some.inj h
      rw [null_iff] at hnull
      obtain ⟨rfl, -⟩ | ⟨rfl, -⟩ := code_eq hc (by simp_all) (not_not.mp hlevel)
      · exact .inr ⟨rfl, .inr hnull, rfl⟩
      · exact absurd rfl hrpl
    · split at h
      · cases h
      rename_i s hs
      split_ifs at h with hgood
      obtain rfl := Option.some.inj h
      obtain ⟨hrpl, hdata, hdpl, -⟩ := hgood
      obtain ⟨rfl, -⟩ | ⟨rfl, -⟩ := code_eq hc (by simp_all) (not_not.mp hlevel)
      · obtain ⟨rfl, -⟩ | ⟨rfl, -⟩ := data_eq hs hdata (hdpl.trans hrpl.symm)
        · exact .inr ⟨rfl, .inl rfl, rfl⟩
        · exact absurd hrpl (by decide)
      · obtain ⟨rfl, -⟩ | ⟨rfl, -⟩ := data_eq hs hdata (hdpl.trans hrpl.symm)
        · exact absurd hrpl (by decide)
        · exact .inl ⟨rfl, rfl, rfl⟩
  · rintro (⟨rfl, rfl, rfl⟩ | ⟨rfl, rfl | hnull, rfl⟩)
    · rw [leave, lookup_initGdt, lookup_initGdt]
      decide
    · rw [leave, lookup_initGdt, lookup_initGdt]
      decide
    · rw [leave, lookup_initGdt, if_pos (null_iff.mpr hnull)]
      decide

variable {c k : Cpu} {f : Callee} {base e : Word64} {reg : Reg → Word64} {ws : List Word64}

/-- The segments that `iretq` returns to. -/
theorem At.iretq_segments {rip cs rflags rsp ss : Word64}
    (h : At k base reg (rip :: cs :: rflags :: rsp :: ss :: ws)) :
    (exec f k .iretq).cs = cs.setWidth 16 ∧ (exec f k .iretq).ss = ss.setWidth 16 := by
  obtain ⟨-, h1, -, -, h4, -⟩ := h.holds
  rw [show k.rsp + 8 + 8 + 8 + 8 = k.rsp + 32 by bv_omega] at h4
  exact ⟨congrArg (BitVec.setWidth 16) h1, congrArg (BitVec.setWidth 16) h4⟩

/-- The assembly of `return_to_user`, with the `rip` and the `rsp` of the task. -/
def returnToUser (c : Cpu) (rip rsp : Word64) : Cpu :=
  exec id (((((c.push 35).push rsp).push 0x200).push 43).push rip) .iretq

/-- `return_to_user` starts the program at its address, on its stack, and with interrupts. -/
theorem returnToUser_spec (c : Cpu) (rip rsp : Word64) :
    (returnToUser c rip rsp).rip = rip ∧ (returnToUser c rip rsp).rsp = rsp ∧
      (returnToUser c rip rsp).rflags = interruptFlag ∧
      (returnToUser c rip rsp).cs = 43 ∧ (returnToUser c rip rsp).ss = 35 := by
  have hstart : At c c.rsp c.reg [] := ⟨by simp, trivial, fun _ _ => rfl⟩
  have hframe := ((((hstart.pushWord (v := 35) (by simp)).pushWord (v := rsp) (by simp)).pushWord
    (v := 0x200) (by simp)).pushWord (v := 43) (by simp)).pushWord (v := rip) (by simp)
  obtain ⟨hrip, hflags, hsp, -⟩ := hframe.iretq (f := id)
  obtain ⟨hcs, hss⟩ := hframe.iretq_segments (f := id)
  exact ⟨hrip, hsp, hflags, hcs, hss⟩

/-- Every event enters its routine in the kernel, at the highest privilege, with interrupts masked, and on the
stack of the task state segment where it comes from a program. A return to the lowest privilege needs the
selectors of `return_to_user`, which starts a program with them. -/
theorem privileges (h : ∀ r, canonical (address r) = true) :
    (∀ cpl ev, ∃ e, take (initGdt tss) (idtWords address) cpl ev = some e ∧
      e.rip = address (routine (target cpl ev).1) ∧ e.error = (target cpl ev).2 ∧
      e.cpl = 0 ∧ e.selector = 8 ∧ e.masked = true ∧ (e.switched = true ↔ cpl ≠ 0)) ∧
    (∀ cs ss l, leave (initGdt tss) cs ss = some l ↔
      cs = 43 ∧ ss = 35 ∧ l = 3 ∨ cs = 8 ∧ (ss = 16 ∨ ss.toNat < 4) ∧ l = 0) ∧
    (∀ (c : Cpu) rip rsp, (returnToUser c rip rsp).rip = rip ∧ (returnToUser c rip rsp).rsp = rsp ∧
      (returnToUser c rip rsp).rflags = interruptFlag ∧
      leave (initGdt tss) (returnToUser c rip rsp).cs (returnToUser c rip rsp).ss = some 3) ∧
    ∃ lo hi, (initGdt tss)[6]? = some lo ∧ (initGdt tss)[7]? = some hi ∧
      Tss.read lo hi = some ⟨tss, BitVec.ofNat 20 (tssSize - 1), 9, 0, true, false⟩ := by
  have hselector : (8 : BitVec 16).extractLsb' 2 14 ++ 0#2 = 8 := by decide
  refine ⟨fun cpl ev => ⟨_, take_init h ev, rfl, rfl, rfl, hselector, rfl, ?_⟩, fun cs ss l => leave_init_iff,
    fun c rip rsp => ?_, _, _, rfl, rfl, tss_read⟩
  · rw [Gate.entry, decide_eq_true_iff]
  · obtain ⟨hrip, hsp, hflags, hcs, hss⟩ := returnToUser_spec c rip rsp
    exact ⟨hrip, hsp, hflags, leave_init_iff.mpr (.inl ⟨hcs, hss, rfl⟩)⟩

/-- All routines at one address. -/
theorem privileges_top : (∀ cpl ev, ∃ e, take (initGdt 0) (idtWords fun _ => -4096) cpl ev = some e ∧
      e.rip = -4096 ∧ e.error = (target cpl ev).2 ∧
      e.cpl = 0 ∧ e.selector = 8 ∧ e.masked = true ∧ (e.switched = true ↔ cpl ≠ 0)) ∧
    ∀ cs ss l, leave (initGdt 0) cs ss = some l ↔
      cs = 43 ∧ ss = 35 ∧ l = 3 ∨ cs = 8 ∧ (ss = 16 ∨ ss.toNat < 4) ∧ l = 0 := by
  obtain ⟨htake, hleave, -⟩ := @privileges (fun _ => -4096) 0 fun _ => by decide
  exact ⟨htake, hleave⟩

/-! ## Exceptions -/

/-- The program after an exception that pushed an error code for which there is no room. -/
structure Misplaced (x : Fault) (c c' : Cpu) : Prop where
  /-- The error code is the address. -/
  rip : c'.rip = x.error
  /-- The address is the code segment. -/
  cs : c'.cs = c.rip.setWidth 16
  /-- The code segment is the flags. -/
  rflags : c'.rflags = c.cs.setWidth 64
  /-- The flags are the stack pointer. -/
  rsp : c'.rsp = c.rflags
  /-- The stack pointer is the stack segment. -/
  ss : c'.ss = c.rsp.setWidth 16
  /-- The other registers are as they were. -/
  reg : ∀ r, r ≠ .rsp → c'.reg r = c.reg r

/-- `isr_handler` and `int13` are the same, and leave the error code. -/
theorem isrHandler_misplaced {x : Fault} (hf : f.Abi base) :
    Misplaced x c (run f Stub.isrHandler.code (interrupt c base (some x.error))) := by
  obtain ⟨reg', hreg, hend⟩ := ((at_interrupt c base (some x.error)).cli (f := f)).save_rsp_call hf
    (by simp [frame]) (i := .mov .rsp .rdi) fun k => ⟨_, rfl⟩
  have hcode : Stub.isrHandler.code = .cli :: ((Stub.saved.map .push ++
      .push .rsp :: .mov .rsp .rdi :: .call :: .pop .rsp :: Stub.saved.reverse.map .pop) ++
      [.iretq]) := rfl
  rw [hcode, run_cons, run_append]
  obtain ⟨hrip, hflags, hsp, hregs⟩ := hend.iretq (f := f)
  obtain ⟨hcs, hss⟩ := hend.iretq_segments (f := f)
  exact ⟨hrip, hcs, hflags, hsp, hss, fun r hr => (hregs r hr).trans (hreg r hr)⟩

/-- The stub of an exception. -/
theorem routine_of_lt (hv : v.toNat < 32) : routine v = .stub (if v = 13 then .int13 else if v = 14 then .pgfault
    else .isrHandler) := by
  unfold routine
  have h13 : v = 13 ↔ v.toNat = 13 := BitVec.toNat_eq
  have h14 : v = 14 ↔ v.toNat = 14 := BitVec.toNat_eq
  split <;> simp_all

/-- What an exception does to the program: a page fault, and an exception without an error code, restore it, and
the others return to the error code. The processor allows this return only where the address and the stack
pointer look like segments. -/
theorem exception_returns {x : Fault} {cpl : BitVec 2} (h : ∀ r, canonical (address r) = true)
    (hx : x.vector.toNat < 32) (hf : f.Abi base) :
    ∃ s e, take (initGdt tss) (idtWords address) cpl (.exception x) = some e ∧ e.rip = address (.stub s) ∧
      if hasError x.vector ∧ x.vector ≠ 14 then
        Misplaced x c (run f s.code (interrupt c base e.error)) ∧
          ∀ l, leave (initGdt tss) (run f s.code (interrupt c base e.error)).cs
              (run f s.code (interrupt c base e.error)).ss = some l →
            c.rip.setWidth 16 = 43 ∨ c.rip.setWidth 16 = 8
      else Restored c (run f s.code (interrupt c base e.error)) := by
  have htake := @take_init address tss cpl h (.exception x)
  dsimp only [target] at htake
  have hmisplaced := @isrHandler_misplaced c f base x hf
  have hcs (l) (hl : leave (initGdt tss) (run f Stub.isrHandler.code (interrupt c base (some x.error))).cs
      (run f Stub.isrHandler.code (interrupt c base (some x.error))).ss = some l) :
      c.rip.setWidth 16 = 43 ∨ c.rip.setWidth 16 = 8 := by
    rw [← hmisplaced.cs]
    exact (leave_init_iff.mp hl).imp And.left And.left
  by_cases h14 : x.vector = 14
  · refine ⟨.pgfault, _, htake, ?_, ?_⟩
    · rw [h14]
      rfl
    · have herror : hasError x.vector = true := by rw [h14]; decide
      rw [if_neg (fun hc => hc.2 h14), if_pos herror]
      exact pgfault_restored hf
  by_cases h13 : x.vector = 13
  · -- The code of `int13` is that of `isr_handler`.
    refine ⟨.int13, _, htake, ?_, ?_⟩
    · rw [h13]
      rfl
    · have herror : hasError x.vector = true := by rw [h13]; decide
      rw [if_pos ⟨herror, h14⟩, if_pos herror]
      exact ⟨hmisplaced, hcs⟩
  refine ⟨.isrHandler, _, htake, ?_, ?_⟩
  · show address (routine x.vector) = _
    rw [routine_of_lt hx, if_neg h13, if_neg h14]
  · by_cases herror : hasError x.vector = true
    · rw [if_pos ⟨herror, h14⟩, if_pos herror]
      exact ⟨hmisplaced, hcs⟩
    · rw [if_neg (fun hc => herror hc.1), if_neg herror]
      exact isrHandler_restored (e := 0) hf

/-- A fault of the stack segment returns to its error code, whatever the handler. -/
theorem exception_returns_stack : ∃ (s : Stub) (e : Entry),
    take (initGdt 0) (idtWords fun _ => -4096) 3 (.exception ⟨12, 0⟩) = some e ∧
      Misplaced ⟨12, 0⟩ ⟨fun _ => 0, 0x400000, 0x202, 43, 35, 0, fun _ => 0⟩
        (run clobberR8 s.code
          (interrupt ⟨fun _ => 0, 0x400000, 0x202, 43, 35, 0, fun _ => 0⟩ 0x8000 e.error)) := by
  obtain ⟨s, e, htake, -, hreturn⟩ := @exception_returns (fun _ => -4096) 0
    ⟨fun _ => 0, 0x400000, 0x202, 43, 35, 0, fun _ => 0⟩ clobberR8 0x8000 ⟨12, 0⟩ 3 (fun _ => by decide)
    (by decide) (clobberR8_abi 0x8000)
  rw [if_pos (by decide)] at hreturn
  exact ⟨s, e, htake, hreturn.1⟩

end Nascent.Asm
