import Mathlib.Data.BitVec
import Mathlib.Tactic.SplitIfs

/-!
# The descriptor tables of an x86-64 processor

A segment descriptor is a word of the global table, a gate is two words of the interrupt table, and the
descriptor of a task state segment is two words of the global table. `Gate.words` and `Tss.words` lay the last
two out in their words, and `Gate.read` and `Tss.read` take them apart again.

`enter` is what the processor checks before it enters a handler: the limit of the table, the type and the
privilege level of the gate, the code segment, and the address. A check that fails is a fault with its own
vector. `take` delivers this fault in turn, without the check of the privilege level; a second fault would be a
double fault, and is `none`. `leave` is the checks of `iretq`. Left out are the faults of the stack that the
processor switches to, and a local table.
-/

namespace Nascent.Descriptors

/-- A word of a table. -/
abbrev Word := BitVec 64

/-! ## Descriptors -/

/-- A gate of the interrupt table. -/
structure Gate where
  /-- The address of the handler. -/
  offset : Word
  /-- Its code segment. -/
  selector : BitVec 16
  /-- The entry of the interrupt stack table, or 0. -/
  ist : BitVec 3
  /-- The type: 14 masks interrupts, and 15 does not. -/
  type : BitVec 4
  /-- The lowest privilege from which an instruction may use the gate. -/
  dpl : BitVec 2
  /-- It is present. -/
  present : Bool
deriving DecidableEq

/-- The two words of a gate. -/
def Gate.words (g : Gate) : Word × Word :=
  (g.offset.extractLsb' 16 16 ++ (BitVec.ofBool g.present ++ g.dpl ++ 0#1 ++ g.type) ++ (0#5 ++ g.ist) ++
    g.selector ++ g.offset.extractLsb' 0 16, 0#32 ++ g.offset.extractLsb' 32 32)

/-- The gate in two words, if it is one. -/
def Gate.read (w : Word × Word) : Option Gate :=
  if w.1.extractLsb' 44 1 = 0 then
    some
      { offset := w.2.extractLsb' 0 32 ++ w.1.extractLsb' 48 16 ++ w.1.extractLsb' 0 16
        selector := w.1.extractLsb' 16 16
        ist := w.1.extractLsb' 32 3
        type := w.1.extractLsb' 40 4
        dpl := w.1.extractLsb' 45 2
        present := w.1.getLsbD 47 }
  else none

/-- A gate is read from its words. -/
theorem Gate.read_words (g : Gate) : Gate.read g.words = some g := by
  unfold Gate.read Gate.words
  rw [if_pos (by apply BitVec.eq_of_getLsbD_eq; intro i hi; simp; grind)]
  obtain ⟨offset, selector, ist, type, dpl, present⟩ := g
  simp only [Option.some.injEq, Gate.mk.injEq]
  refine ⟨?_, ?_, ?_, ?_, ?_, by simp; grind⟩
  all_goals
    apply BitVec.eq_of_getLsbD_eq
    intro i hi
    simp
    grind

/-- A segment of code or data. -/
structure Segment where
  /-- The type. -/
  type : BitVec 4
  /-- The privilege level. -/
  dpl : BitVec 2
  /-- It is present. -/
  present : Bool
  /-- 64-bit code. -/
  long : Bool
  /-- 32-bit code. -/
  big : Bool
deriving DecidableEq

namespace Segment

/-- The segment in a word, if it is one of code or data. -/
def read (w : Word) : Option Segment :=
  if w.getLsbD 44 then
    some
      { type := w.extractLsb' 40 4
        dpl := w.extractLsb' 45 2
        present := w.getLsbD 47
        long := w.getLsbD 53
        big := w.getLsbD 54 }
  else none

/-- Code. -/
def code (s : Segment) : Bool := s.type.getLsbD 3

/-- Code that keeps the privilege level of its callers. -/
def conforming (s : Segment) : Bool := s.code && s.type.getLsbD 2

/-- Data that may be written. -/
def writable (s : Segment) : Bool := !s.code && s.type.getLsbD 1

end Segment

/-- A task state segment. -/
structure Tss where
  /-- The address. -/
  base : Word
  /-- The last offset. -/
  limit : BitVec 20
  /-- The type: 9 is available. -/
  type : BitVec 4
  /-- The privilege level. -/
  dpl : BitVec 2
  /-- It is present. -/
  present : Bool
  /-- The limit counts pages. -/
  pages : Bool
deriving DecidableEq

/-- The task state segment in two words, if it is a system segment. -/
def Tss.read (lo hi : Word) : Option Tss :=
  if lo.getLsbD 44 then none
  else
    some
      { base := hi.extractLsb' 0 32 ++ lo.extractLsb' 56 8 ++ lo.extractLsb' 16 24
        limit := lo.extractLsb' 48 4 ++ lo.extractLsb' 0 16
        type := lo.extractLsb' 40 4
        dpl := lo.extractLsb' 45 2
        present := lo.getLsbD 47
        pages := lo.getLsbD 55 }

/-! ## Entering a handler -/

/-- The number of an interrupt. -/
abbrev Vector := BitVec 8

/-- A fault, with its error code. -/
structure Fault where
  /-- Its vector. -/
  vector : Vector
  /-- The error code. -/
  error : Word
deriving DecidableEq

/-- The general protection fault. -/
def Fault.protection (error : Word) : Fault := ⟨13, error⟩

/-- The fault for a segment that is not present. -/
def Fault.notPresent (error : Word) : Fault := ⟨11, error⟩

/-- A handler, as the processor enters it. -/
structure Entry where
  /-- The address. -/
  rip : Word
  /-- The selector of the code segment. -/
  selector : BitVec 16
  /-- The privilege level. -/
  cpl : BitVec 2
  /-- Interrupts are masked. -/
  masked : Bool
  /-- The stack is another one than before: that of the task state segment. -/
  switched : Bool
  /-- The error code on the stack. -/
  error : Option Word
deriving DecidableEq

/-- An address that the processor takes: the bits from 47 upwards are the same. -/
def canonical (a : Word) : Bool := a.extractLsb' 47 17 = 0 || a.extractLsb' 47 17 = -1

/-- The word of a table that a selector names, if it names one of the global table. -/
def lookup (gdt : List Word) (selector : BitVec 16) : Option Word :=
  if selector.extractLsb' 2 1 = 0 then gdt[(selector.extractLsb' 3 13).toNat]? else none

/-- The error code for a selector. -/
def selectorError (selector : BitVec 16) : Word := selector.setWidth 64 &&& 0xfffc

/-- The handler of an interrupt is entered from the privilege level `cpl`. The gate has a privilege level for
instructions only, so `software` says whether the interrupt is one. -/
def enter (gdt : List Word) (idt : List (Word × Word)) (cpl : BitVec 2) (v : Vector) (software : Bool) :
    Except Fault Entry :=
  let external : Word := if software then 0 else 1
  let gateError : Word := 8 * v.setWidth 64 + 2 + external
  match (idt[v.toNat]?).bind Gate.read with
  | none => .error (.protection gateError)
  | some g =>
    if g.type ≠ 14 ∧ g.type ≠ 15 then .error (.protection gateError)
    else if software ∧ g.dpl < cpl then .error (.protection gateError)
    else if !g.present then .error (.notPresent gateError)
    else if g.selector.extractLsb' 2 14 = 0 then .error (.protection external)
    else match (lookup gdt g.selector).bind Segment.read with
    | none => .error (.protection (selectorError g.selector + external))
    | some s =>
      if !s.code ∨ cpl < s.dpl then .error (.protection (selectorError g.selector + external))
      else if !s.present then .error (.notPresent (selectorError g.selector + external))
      else if !s.long ∨ s.big then .error (.protection (selectorError g.selector + external))
      else if !canonical g.offset then .error (.protection external)
      else
        let level := if s.conforming then cpl else s.dpl
        .ok
          { rip := g.offset
            selector := g.selector.extractLsb' 2 14 ++ level
            cpl := level
            masked := g.type = 14
            switched := level ≠ cpl ∨ g.ist ≠ 0
            error := none }

/-- What makes the processor enter a handler. -/
inductive Event
  /-- The instruction `int v`. -/
  | int (v : Vector)
  /-- An exception. -/
  | exception (f : Fault)
  /-- An interrupt of a device. -/
  | device (v : Vector)
deriving DecidableEq

/-- The exceptions that push an error code. -/
def hasError (v : Vector) : Bool := v ∈ [8, 10, 11, 12, 13, 14, 17, 21, 29, 30]

/-- An exception is delivered. `none` is a double fault. -/
def raise (gdt : List Word) (idt : List (Word × Word)) (cpl : BitVec 2) (f : Fault) : Option Entry :=
  match enter gdt idt cpl f.vector false with
  | .ok e => some { e with error := if hasError f.vector then some f.error else none }
  | .error _ => none

/-- An event is delivered. -/
def take (gdt : List Word) (idt : List (Word × Word)) (cpl : BitVec 2) : Event → Option Entry
  | .int v =>
    match enter gdt idt cpl v true with
    | .ok e => some e
    | .error f => raise gdt idt cpl f
  | .exception f => raise gdt idt cpl f
  | .device v =>
    match enter gdt idt cpl v false with
    | .ok e => some e
    | .error f => raise gdt idt cpl f

/-- The privilege level that `iretq` returns to from the highest one, if its checks of the two selectors
succeed. -/
def leave (gdt : List Word) (cs ss : BitVec 16) : Option (BitVec 2) :=
  let rpl := cs.extractLsb' 0 2
  match (lookup gdt cs).bind Segment.read with
  | none => none
  | some c =>
    if cs.extractLsb' 2 14 = 0 ∨ !c.code ∨ !c.present ∨ !c.long ∨ c.big then none
    else if (if c.conforming then rpl < c.dpl else c.dpl ≠ rpl) then none
    -- A null selector is a stack segment, but not of the lowest privilege.
    else if ss.extractLsb' 2 14 = 0 then if rpl = 3 then none else some rpl
    else match (lookup gdt ss).bind Segment.read with
    | none => none
    | some s =>
      if ss.extractLsb' 0 2 = rpl ∧ s.writable ∧ s.dpl = rpl ∧ s.present then some rpl else none

/-- A gate that enters its handler at the highest privilege, with interrupts masked. -/
structure Gate.Sound (gdt : List Word) (g : Gate) (s : Segment) : Prop where
  /-- It masks interrupts. -/
  type : g.type = 14
  /-- It is present. -/
  present : g.present = true
  /-- It keeps to the stack of the task state segment. -/
  ist : g.ist = 0
  /-- The selector is not null. -/
  selector : g.selector.extractLsb' 2 14 ≠ 0
  /-- The code segment. -/
  segment : (lookup gdt g.selector).bind Segment.read = some s
  /-- It is code. -/
  code : s.code = true
  /-- It does not keep the privilege of its callers. -/
  conforming : s.conforming = false
  /-- It has the highest privilege. -/
  dpl : s.dpl = 0
  /-- It is present. -/
  segmentPresent : s.present = true
  /-- It is 64-bit code. -/
  long : s.long = true
  /-- It is not 32-bit code. -/
  big : s.big = false
  /-- The address is one. -/
  offset : canonical g.offset = true

/-- The entry through a sound gate. -/
def Gate.entry (g : Gate) (cpl : BitVec 2) : Entry where
  rip := g.offset
  selector := g.selector.extractLsb' 2 14 ++ 0#2
  cpl := 0
  masked := true
  switched := cpl ≠ 0
  error := none

variable {gdt : List Word} {idt : List (Word × Word)} {cpl : BitVec 2} {v : Vector} {g : Gate} {s : Segment}

/-- A sound gate is entered, unless an instruction uses it from too low a privilege. -/
theorem enter_of_sound {software : Bool} (hidt : idt[v.toNat]? = some g.words) (h : g.Sound gdt s) :
    enter gdt idt cpl v software =
      if software ∧ g.dpl < cpl then
        .error (.protection (8 * v.setWidth 64 + 2 + if software then 0 else 1))
      else .ok (g.entry cpl) := by
  have hgate : (idt[v.toNat]?).bind Gate.read = some g := by
    rw [hidt, Option.bind_some, Gate.read_words]
  have hlevel : ¬ cpl < (0 : BitVec 2) := BitVec.not_lt_zero
  simp only [enter, hgate, h.type, h.present, h.selector, h.segment, h.code, h.conforming, h.dpl,
    h.segmentPresent, h.long, h.big, h.offset, hlevel, h.ist]
  simp [Gate.entry, eq_comm (b := cpl)]

end Nascent.Descriptors
