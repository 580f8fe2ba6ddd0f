import Mathlib.Data.BitVec
import Mathlib.Logic.Function.Iterate
import Nascent.Lib.Runs

/-!
# The allocator of the C library

`malloc` and `free` of `src/libc/malloc.c`. The memory of a program has headers of 16 bytes, each with
a pointer and a size in units of 16 bytes, and a heap is what the headers at all addresses hold and the
variable `freeptr`. Blocks that are free form a circular list through their headers, to which the
variable `base` with the size 0 belongs. `morecore` gets memory from `sbrk`, whose addresses are a
parameter: the address of the call number `k` during a call of `malloc`.

The scans of the list have no bound in the source. `free` takes a number of steps, and `malloc` is the
repetition of its loop's body.
-/

namespace Nascent.Malloc

/-- `sizeof(MHeader)`. -/
def unit : ℕ := 16

/-- The headers of a program's memory, and `freeptr`. -/
structure Heap where
  /-- `s.ptr` of the header at an address. -/
  ptr : ℕ → ℕ
  /-- `s.size` of the header at an address. -/
  size : ℕ → ℕ
  /-- `freeptr`, which is `NULL` at first. -/
  freeptr : Option ℕ

namespace Heap

variable (h : Heap)

/-- The heap with the pointer of a header set. -/
def setPtr (a v : ℕ) : Heap := { h with ptr := Function.update h.ptr a v }

/-- The heap with the size of a header set. -/
def setSize (a v : ℕ) : Heap := { h with size := Function.update h.size a v }

section Fields

variable {h} {a c v : ℕ}

@[simp] theorem setPtr_ptr_self : (h.setPtr a v).ptr a = v := Function.update_self ..

theorem setPtr_ptr_of_ne (hne : c ≠ a) : (h.setPtr a v).ptr c = h.ptr c := Function.update_of_ne hne ..

@[simp] theorem setPtr_size : (h.setPtr a v).size = h.size := rfl

@[simp] theorem setSize_size_self : (h.setSize a v).size a = v := Function.update_self ..

theorem setSize_size_of_ne (hne : c ≠ a) : (h.setSize a v).size c = h.size c :=
  Function.update_of_ne hne ..

@[simp] theorem setSize_ptr : (h.setSize a v).ptr = h.ptr := rfl

end Fields

/-- The address behind a block. -/
def blockEnd (a : ℕ) : ℕ := a + unit * h.size a

/-! ## `free` -/

/-- The scan of `free` from the node `p` on: the node behind which the block belongs. -/
def freeScan (bp : ℕ) : ℕ → ℕ → Option ℕ
  | 0, _ => none
  | fuel + 1, p =>
    if bp > p ∧ bp < h.ptr p then some p
    else if p ≥ h.ptr p ∧ (bp > p ∨ bp < h.ptr p) then some p
    else freeScan bp fuel (h.ptr p)

/-- The first part of the insertion: the block is joined to the node behind it, or linked to it. -/
def joinUpper (bp p : ℕ) : Heap :=
  if h.blockEnd bp = h.ptr p then
    (h.setSize bp (h.size bp + h.size (h.ptr p))).setPtr bp (h.ptr (h.ptr p))
  else h.setPtr bp (h.ptr p)

/-- The second part: the node is joined to the block behind it, or linked to it. -/
def joinLower (bp p : ℕ) : Heap :=
  if h.blockEnd p = bp then (h.setSize p (h.size p + h.size bp)).setPtr p (h.ptr bp)
  else h.setPtr p bp

/-- The insertion of a block behind a node. -/
def insertAfter (bp p : ℕ) : Heap :=
  { (h.joinUpper bp p).joinLower bp p with freeptr := some p }

/-- `free`, or nothing where the scan does not end or there is no list. -/
def free (fuel ap : ℕ) : Option Heap :=
  h.freeptr.bind fun f => (h.freeScan (ap - unit) fuel f).map (h.insertAfter (ap - unit))

/-! ## `malloc` -/

/-- The number of units that `morecore` asks for, where its `int` parameter is given `nunits`. -/
def moreUnits (nunits : ℕ) : ℕ :=
  if (BitVec.ofNat 32 nunits).toInt < 1024 then 1024 else (BitVec.ofNat 32 nunits).toNat

/-- The number of bytes that `morecore` asks for, which is an `int`. -/
def moreBytes (nunits : ℕ) : ℕ := unit * moreUnits nunits % 2 ^ 32

/-- `morecore`, with the address that `sbrk` returns. It returns `freeptr`. -/
def morecore (fuel nunits up : ℕ) : Option Heap :=
  (h.setSize up (moreUnits nunits)).free fuel (up + unit)

/-- The list of `base` alone, which the first call of `malloc` sets up. -/
def init (base : ℕ) : Heap :=
  match h.freeptr with
  | none => { (h.setPtr base base).setSize base 0 with freeptr := some base }
  | some _ => h

end Heap

/-- The state of the loop of `malloc`. -/
structure Scan where
  /-- The heap. -/
  heap : Heap
  /-- The node before `p`. -/
  prevptr : ℕ
  /-- The node that is looked at. -/
  p : ℕ
  /-- Whether the loop goes on. -/
  isAllocating : Bool
  /-- What `malloc` will return. -/
  result : ℕ
  /-- What `sbrk` has returned: addresses and numbers of bytes. -/
  regions : List (ℕ × ℕ)

namespace Scan

variable (s : Scan)

/-- The start of the loop. -/
def start (base : ℕ) (h : Heap) : Scan :=
  let h := h.init base
  let prevptr := h.freeptr.getD base
  ⟨h, prevptr, h.ptr prevptr, true, 0, []⟩

/-- The first part of the body: a block that is large enough is taken, or its end is split off. -/
def take (nunits : ℕ) : Scan :=
  if nunits ≤ s.heap.size s.p then
    let (h, p) :=
      if s.heap.size s.p = nunits then (s.heap.setPtr s.prevptr (s.heap.ptr s.p), s.p)
      else
        let h := s.heap.setSize s.p (s.heap.size s.p - nunits)
        let p := s.p + unit * h.size s.p
        (h.setSize p nunits, p)
    { s with heap := { h with freeptr := some s.prevptr }, p := p, isAllocating := false,
             result := p + unit }
  else s

/-- The second part: at the node where the scan began, `morecore` is called. -/
def more (fuel nunits : ℕ) (sbrk : ℕ → ℕ) : Option Scan :=
  if s.heap.freeptr = some s.p then
    (s.heap.morecore fuel nunits (sbrk s.regions.length)).map fun h =>
      { s with heap := h, p := h.freeptr.getD 0,
               regions := s.regions ++ [(sbrk s.regions.length, Heap.moreBytes nunits)] }
  else some s

/-- The body of the loop, with the step to the next node. -/
def body (fuel nunits : ℕ) (sbrk : ℕ → ℕ) : Option Scan :=
  ((s.take nunits).more fuel nunits sbrk).map fun s => { s with prevptr := s.p, p := s.heap.ptr s.p }

/-- The loop, with at most `k` repetitions. -/
def loop (fuel nunits : ℕ) (sbrk : ℕ → ℕ) : ℕ → Scan → Option Scan
  | 0, s => if s.isAllocating then none else some s
  | k + 1, s => if s.isAllocating then (s.body fuel nunits sbrk).bind (loop fuel nunits sbrk k) else some s

end Scan

/-- The number of units for a request. The sum is one of 64 bits. -/
def unitsOf (nbytes : ℕ) : ℕ := (nbytes + unit - 1) % 2 ^ 64 / unit + 1

/-- `malloc`, where `sbrk` does not fail. -/
def malloc (base fuel nbytes : ℕ) (sbrk : ℕ → ℕ) (h : Heap) : Option Scan :=
  Scan.loop fuel (unitsOf nbytes) sbrk fuel (Scan.start base h)

/-! ## The system -/

/-- A program that calls the allocator. -/
structure Sys where
  /-- The heap. -/
  heap : Heap
  /-- The pointers that the program has got and not given back, and the sizes it has asked for. -/
  live : ℕ → Option ℕ
  /-- What `sbrk` has returned: addresses and numbers of bytes. -/
  regions : List (ℕ × ℕ)

/-- The calls of the program. -/
inductive Call
  /-- `malloc`, with the addresses that `sbrk` will return. -/
  | malloc (nbytes : ℕ) (sbrk : ℕ → ℕ) (fuel : ℕ)
  /-- `free`, of a pointer that is live. -/
  | free (ap : ℕ) (fuel : ℕ)

namespace Sys

/-- The program before its first call. -/
def start (ptr size : ℕ → ℕ) : Sys := ⟨⟨ptr, size, none⟩, fun _ => none, []⟩

/-- One call. -/
def step (base : ℕ) (s : Sys) : Call → Option Sys
  | .malloc nbytes sbrk fuel => (Malloc.malloc base fuel nbytes sbrk s.heap).map fun r =>
    ⟨r.heap, Function.update s.live r.result (some nbytes), s.regions ++ r.regions⟩
  | .free ap fuel =>
    if (s.live ap).isSome then
      (s.heap.free fuel ap).map fun h => { s with heap := h, live := Function.update s.live ap none }
    else none

end Sys

end Nascent.Malloc
