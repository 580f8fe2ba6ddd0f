import Nascent.Lib.Bytes
import Nascent.Lib.Linked

/-!
# Physical memory and the frame allocator

The model of `sys/page.c` and of the free list functions of `sys/virmem.c`. Physical memory is one
block of bytes for each frame. A `struct page` is named by its index in `pages`, which is also its
frame number, in whichever of the two address forms the source holds the pointer; its two fields
are the functions `refCount` and `next`.

Addresses are 64-bit words with wrap-around, as in the source, and the kernel reaches the frame of
a physical address `x` at `kernBase + x`. An allocator on an empty list (`free_page_head == NULL`)
prints a message in the source and goes on with the null pointer, so the model gives no result
there.
-/

namespace Nascent

open Bytes (Byte Block)

/-- A machine word, `uint64_t`. -/
abbrev Word := BitVec 64

/-- `PAGE_SIZE`. -/
def pageSize : Word := 4096

/-- `KERNBASE`: where the kernel's direct map of physical memory starts. -/
def kernBase : Word := 0xffffffff80000000

/-- `ScaleDown`: the start of the page of an address. -/
def scaleDown (addr : Word) : Word := addr - addr % pageSize

/-- `ScaleUp`: the first page boundary at or above an address. -/
def scaleUp (addr : Word) : Word :=
  if addr % pageSize ≠ 0 then addr + (pageSize - addr % pageSize) else addr

/-- `SCLDN`: the start of the page of an address, by shifts. -/
def scldn (addr : Word) : Word := (addr >>> 12) <<< 12

/-- The product `n * PAGE_SIZE` for an `int n`: of type `int`, and then widened to 64 bits. -/
def pageOffset (n : ℕ) : Word := (BitVec.ofNat 32 n * 4096).signExtend 64

/-- `get_viraddr`. -/
def getViraddr (paddr : Word) : Word := kernBase + paddr

/-- `get_phyaddr`. -/
def getPhyaddr (virAddr : Word) : Word := virAddr - kernBase

/-- `getPA`: the physical address of the frame of a `struct page`. -/
def getPA (page : ℕ) : Word := BitVec.ofNat 64 page * pageSize

/-- `convertVA`: the kernel's address of the frame of a `struct page`. -/
def convertVA (page : ℕ) : Word := getViraddr (getPA page)

/-- `get_page_from_PA`: the `struct page` of a physical address. -/
def getPageFromPA (phyaddr : Word) : ℕ := (scaleDown phyaddr / pageSize).toNat

/-- The memory of the machine and the globals of its management. -/
structure Mm where
  /-- Physical memory, a block of 4096 bytes for each frame. -/
  mem : ℕ → Block
  /-- The field `ref_count` of the elements of `pages`. -/
  refCount : ℕ → ℕ
  /-- The field `next` of the elements of `pages`. -/
  next : ℕ → Option ℕ
  /-- `free_page_head`. -/
  freePageHead : Option ℕ
  /-- `free_page_end`. -/
  freePageEnd : Option ℕ
  /-- `page_count`. -/
  pageCount : ℕ
  /-- `kpml_addr`, the kernel's address of its own PML4. -/
  kpmlAddr : Word

namespace Mm

/-- The frame that the kernel reaches at a virtual address of its direct map. -/
def kframe (va : Word) : ℕ := (getPhyaddr va >>> 12).toNat

/-- The position in its frame of the word at an address. -/
def kword (va : Word) : ℕ := ((va >>> 3) &&& 0x1FF).toNat

/-- A read of the word at a kernel address. -/
def kread (s : Mm) (va : Word) : Word := Bytes.word (s.mem (kframe va)) (kword va)

/-- A write of the word at a kernel address. -/
def kwrite (s : Mm) (va v : Word) : Mm :=
  { s with
    mem := Function.update s.mem (kframe va) (Bytes.setWord (s.mem (kframe va)) (kword va) v) }

/-- `memset(va, 0, PAGE_SIZE)` at a page-aligned kernel address. -/
def memsetPage (s : Mm) (va : Word) : Mm :=
  { s with mem := Function.update s.mem (kframe va) Bytes.zero }

/-- The state change of an allocation of the head `tmp` of the free list: its count becomes 1, the
head moves on, and the frame at `va` is cleared. -/
def takeHead (s : Mm) (tmp : ℕ) (va : Word) : Mm :=
  memsetPage { s with refCount := Function.update s.refCount tmp 1, freePageHead := s.next tmp } va

/-- `page_alloc`: a free frame, by its kernel address. -/
def pageAlloc (s : Mm) : Option (Word × Mm) :=
  match s.freePageHead with
  | none => none
  | some tmp => some (convertVA tmp, s.takeHead tmp (convertVA tmp))

/-- `kmalloc`: a free frame, by its physical address. -/
def kmalloc (s : Mm) : Option (Word × Mm) :=
  match s.freePageHead with
  | none => none
  | some tmp => some (getPA tmp, s.takeHead tmp (getViraddr (getPA tmp)))

/-- `fetch_free_page`: a free frame, by its physical address. -/
def fetchFreePage (s : Mm) : Option (Word × Mm) :=
  match s.freePageHead with
  | none => none
  | some tmp => some (getPA tmp, s.takeHead tmp (getViraddr (getPA tmp)))

/-- `add_to_free_pages`: link `p` after `free_page_end`, and end the list at `p`. The source does
not move `free_page_end`. It does not look whether this is null either: the link would go to physical memory
near 0. `create_page_list` sets it, and no later function does. -/
def addToFreePages (s : Mm) (p : ℕ) : Mm :=
  let next := match s.freePageEnd with
    | none => s.next
    | some e => Function.update s.next e (some p)
  { s with next := Function.update next p none }

/-- `free_page`: drop one reference to the frame at a page-aligned kernel address, and clear and
free the frame with the last one. -/
def freePage (s : Mm) (pageAddr : Word) : Mm :=
  let ph := scldn (pageAddr - kernBase)
  let p := getPageFromPA ph
  if s.refCount p > 1 then
    { s with refCount := Function.update s.refCount p (s.refCount p - 1) }
  else
    addToFreePages
      (memsetPage { s with refCount := Function.update s.refCount p 0 } pageAddr) p

end Mm

/-! ## The list at boot -/

/-- A region of the boot loader's memory map, `struct smap_t`. -/
structure Smap where
  /-- The first address. -/
  base : Word
  /-- The number of bytes. -/
  length : Word
  /-- The type; 1 is usable memory. -/
  type : BitVec 32

/-- The region holds the page from `pageStart` to `pageEnd`, by the tests of
`create_page_list`. -/
def Smap.holds (smap : Smap) (pageStart pageEnd : Word) : Bool :=
  smap.type == 1 && smap.length != 0 &&
    ((decide (pageStart < smap.base + smap.length) && decide (pageStart > smap.base)) &&
      (decide (pageEnd < smap.base + smap.length) && decide (pageEnd > smap.base)))

namespace Mm

/-- The branch of `create_page_list` that appends a page to the list. Where the list is not empty,
`free_page_end` names its last page. -/
def appendFree (s : Mm) (pageNum : ℕ) : Mm :=
  match s.freePageHead, s.freePageEnd with
  | none, _ =>
    { s with
      refCount := Function.update s.refCount pageNum 0
      next := Function.update s.next pageNum none
      freePageHead := some pageNum
      freePageEnd := some pageNum }
  | some _, none => s
  | some _, some e =>
    { s with
      refCount := Function.update s.refCount pageNum 0
      next := Function.update (Function.update s.next e (some pageNum)) pageNum none
      freePageEnd := some pageNum }

/-- One page of `create_page_list`. -/
def markPage (physfree : Word) (smaps : List Smap) (s : Mm) (pageNum : ℕ) : Mm :=
  let pageStart := pageOffset pageNum
  let pageEnd := pageStart + pageSize - 1
  if pageStart < physfree ∨ pageEnd < physfree then
    { s with refCount := Function.update s.refCount pageNum 1 }
  else
    let r := smaps.foldl (fun (r : Mm × Bool) smap =>
      if smap.holds pageStart pageEnd then (appendFree r.1 pageNum, true) else r) (s, false)
    if r.2 then r.1 else { r.1 with refCount := Function.update r.1.refCount pageNum 1 }

/-- `create_page_list`: the free list of the pages that lie in usable memory above the kernel and
the `pages` array. `page_count` is an `int`. -/
def createPageList (s : Mm) (physfree : Word) (smaps : List Smap) (memEnd : Word) : Mm :=
  let count : BitVec 32 := (memEnd / pageSize).setWidth 32
  let physfree := scaleUp (physfree + 16 * count.signExtend 64)
  let first := (physfree >>> 12).toNat
  let s := { s with
    pageCount := count.toInt.toNat
    mem := fun f => if first ≤ f ∧ f < first + 5 then Bytes.zero else s.mem f }
  (List.range s.pageCount).foldl (markPage physfree smaps) s

end Mm

end Nascent
