import Mathlib.Data.BitVec
import Mathlib.Data.Fintype.Basic
import Mathlib.Logic.Function.Basic

/-!
# A pair of interrupt controllers

Two controllers of eight lines each, of which the second is connected to line 2 of the first (the 8259). A
controller is set up by a command with three or four words that follow it. It passes on the first line that is
requested and not masked, unless this line or one before it is in service (`Pic.pending`), and a line is in
service from then until the end of interrupt. An end of interrupt is for the first line in service
(`endOfInterrupt`).

A controller without a line in service that gets one, and its end, has lost the request only
(`endOfInterrupt_acknowledge`). A line in service leaves only lines in front of it (`pending_lt`). Left out are
the commands that rotate the priorities or read the registers, and spurious interrupts.
-/

namespace Nascent.Controller

/-- A byte. -/
abbrev Byte := BitVec 8

/-- A line of a controller. -/
abbrev Line := Fin 8

/-- What the next word of data is. -/
inductive Stage
  /-- The mask. -/
  | ready
  /-- The vector of line 0. -/
  | offset
  /-- The connection of the two controllers. -/
  | cascade
  /-- The mode. -/
  | mode
deriving DecidableEq

/-- A controller. -/
structure Pic where
  /-- The vector of line 0. -/
  offset : Byte
  /-- The lines of the second controller, or the line that it is connected to. -/
  cascade : Byte
  /-- The lines that are masked. -/
  masked : Line → Bool
  /-- The lines that are requested. -/
  requested : Line → Bool
  /-- The lines that are in service. -/
  inService : Line → Bool
  /-- The next word of data. -/
  stage : Stage
  /-- There is no other controller. -/
  single : Bool
  /-- The mode is to be set. -/
  mode : Bool
  /-- An interrupt ends by itself. -/
  auto : Bool

namespace Pic

/-- The first line that may interrupt. -/
def pending (c : Pic) : Option Line :=
  Fin.find? fun i => c.requested i && !c.masked i && decide (∀ j ≤ i, c.inService j = false)

/-- The interrupt of a line is taken. -/
def acknowledge (c : Pic) (i : Line) : Pic :=
  { c with
    requested := Function.update c.requested i false
    inService := if c.auto then c.inService else Function.update c.inService i true }

/-- The end of interrupt. -/
def endOfInterrupt (c : Pic) : Pic :=
  match Fin.find? c.inService with
  | none => c
  | some i => { c with inService := Function.update c.inService i false }

/-- A byte to the port of commands. -/
def command (c : Pic) (v : Byte) : Option Pic :=
  if v.getLsbD 4 then
    -- The controller is set up from the start.
    some
      { c with
        masked := fun _ => false
        requested := fun _ => false
        inService := fun _ => false
        stage := .offset
        single := v.getLsbD 1
        mode := v.getLsbD 0
        auto := false }
  else if v = 0x20 then some c.endOfInterrupt
  else none

/-- A byte to the port of data. -/
def data (c : Pic) (v : Byte) : Pic :=
  match c.stage with
  | .ready => { c with masked := fun i => v.getLsbD i }
  | .offset =>
    { c with
      offset := v &&& 0xf8
      stage := if !c.single then .cascade else if c.mode then .mode else .ready }
  | .cascade => { c with cascade := v, stage := if c.mode then .mode else .ready }
  | .mode => { c with auto := v.getLsbD 1, stage := .ready }

variable {c : Pic} {i j k : Line}

/-- A pending line is requested, it is not masked, and neither it nor one before it is in service. -/
theorem pending_spec (h : c.pending = some i) :
    c.requested i = true ∧ c.masked i = false ∧ ∀ j ≤ i, c.inService j = false := by
  have hsome := Fin.eq_true_of_find?_eq_some h
  simpa [and_assoc] using hsome

/-- Only the lines in front of one in service are pending. -/
theorem pending_lt (h : c.pending = some i) (hj : c.inService j = true) : i < j := by
  by_contra hle
  have hfree := (pending_spec h).2.2 j (not_lt.mp hle)
  rw [hj] at hfree
  exact Bool.noConfusion hfree

/-- The first of the requested lines is pending, while none is masked or in service. -/
theorem pending_of_first (hi : c.requested i = true) (hfirst : ∀ j < i, c.requested j = false)
    (hmask : ∀ j, c.masked j = false) (hfree : ∀ j, c.inService j = false) : c.pending = some i := by
  unfold pending
  rw [Fin.find?_eq_some_iff]
  refine ⟨by simp [hi, hmask, hfree], fun j hj => ?_⟩
  rw [hfirst j hj, Bool.false_and, Bool.false_and]

/-- There is no interrupt to end. -/
theorem endOfInterrupt_of_free (h : ∀ j, c.inService j = false) : c.endOfInterrupt = c := by
  rw [endOfInterrupt, Fin.find?_eq_none_iff.mpr h]

/-- The end of the only interrupt. -/
theorem endOfInterrupt_acknowledge (h : ∀ j, c.inService j = false) (hauto : c.auto = false) :
    (c.acknowledge i).endOfInterrupt = { c with requested := Function.update c.requested i false } := by
  have hserved : (c.acknowledge i).inService = Function.update c.inService i true := by
    rw [acknowledge, hauto]
    rfl
  have hfind : Fin.find? (c.acknowledge i).inService = some i := by
    rw [hserved, Fin.find?_eq_some_iff]
    refine ⟨Function.update_self .., fun j hj => ?_⟩
    rw [Function.update_of_ne (Fin.ne_of_lt hj), h]
  have hfree : Function.update (Function.update c.inService i true) i false = c.inService := by
    rw [Function.update_idem, Function.update_eq_self_iff]
    exact (h i).symm
  unfold endOfInterrupt
  rw [hfind]
  simp only [hserved, hfree]
  rfl

end Pic

/-! ## The pair -/

/-- The two controllers. -/
structure Pair where
  /-- The first one. -/
  first : Pic
  /-- The second one. -/
  second : Pic

namespace Pair

/-- The first controller, with the second one at line 2. -/
def wired (p : Pair) : Pic :=
  { p.first with requested := Function.update p.first.requested 2 p.second.pending.isSome }

/-- A device requests one of the sixteen lines. Line 2 has no device. -/
def request (p : Pair) (k : Fin 16) : Pair :=
  if h : k.val < 8 then { p with first.requested := Function.update p.first.requested ⟨k, h⟩ true }
  else { p with second.requested := Function.update p.second.requested ⟨k - 8, by omega⟩ true }

/-- The interrupt that the processor takes, with its vector. -/
def interrupt (p : Pair) : Option (Byte × Pair) :=
  match p.wired.pending with
  | none => none
  | some i =>
    if p.first.cascade.getLsbD i then
      match p.second.pending with
      | none => none
      | some k => some (p.second.offset + BitVec.ofNat 8 k, ⟨p.first.acknowledge i, p.second.acknowledge k⟩)
    else some (p.first.offset + BitVec.ofNat 8 i, { p with first := p.first.acknowledge i })

/-- A byte to a port. -/
def outb (p : Pair) (port : BitVec 16) (v : Byte) : Option Pair :=
  if port = 0x20 then (p.first.command v).map fun c => { p with first := c }
  else if port = 0x21 then some { p with first := p.first.data v }
  else if port = 0xa0 then (p.second.command v).map fun c => { p with second := c }
  else if port = 0xa1 then some { p with second := p.second.data v }
  else none

/-- The bytes that are written, one behind the other. -/
def outbs (p : Pair) (l : List (BitVec 16 × Byte)) : Option Pair := l.foldlM (fun p w => p.outb w.1 w.2) p

end Pair

end Nascent.Controller
