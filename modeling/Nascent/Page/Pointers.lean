import Nascent.Page.Alloc

/-!
# The free list in pointers

`Page/Model.lean` names a `struct page` by its index. Here the same functions hold the pointers that
the source holds. The array `pages` lies at a physical address, and a `struct page *` is the physical
address of an element in `free_page_head`, `free_page_end`, and the links that `create_page_list`
writes. The allocators add `KERNBASE` to it for an access and subtract `pages` for the frame.
`get_page_from_PA` gives the kernel address of an element instead, and `free_page` links that.

`links_one_form` says when the list is in one form: as long as a frame is released for good only when
the list no longer reaches the element of `free_page_end`. Any other such release puts a kernel address
on the list (`not_oneForm_freePage`).

An element's fields are the functions `refCount` and `next`, kept apart from the bytes of the frames. A
store through a pointer to no element changes no `struct page`, and a load through one gives no
result. As in `Page/Model.lean`, so does an allocation from an empty list.
-/

namespace Nascent

open Bytes (Block)
open Runs (run Along Visits)

/-- Physical memory and the globals of `sys/page.h`. -/
structure PageMem where
  /-- Physical memory, a block of 4096 bytes for each frame. -/
  mem : ℕ → Block
  /-- The field `ref_count` of the elements of `pages`. -/
  refCount : ℕ → ℕ
  /-- The field `next` of the elements of `pages`. -/
  next : ℕ → Word
  /-- `pages`: the physical address of the array. -/
  pages : Word
  /-- `free_page_head`. -/
  freePageHead : Word
  /-- `free_page_end`. -/
  freePageEnd : Word
  /-- `page_count`. -/
  pageCount : ℕ

namespace PageMem

/-! ## The functions of the source -/

/-- `&pages[i]`; a `struct page` has 16 bytes. -/
def element (s : PageMem) (i : ℕ) : Word := s.pages + BitVec.ofNat 64 i * 16

/-- The element of `pages` that lies at a physical address. -/
def indexOf (s : PageMem) (p : Word) : Option ℕ :=
  let offset := (p - s.pages).toNat
  if offset % 16 = 0 ∧ offset / 16 < s.pageCount then some (offset / 16) else none

/-- The element of `pages` that the kernel reaches at a virtual address. -/
def deref (s : PageMem) (va : Word) : Option ℕ := s.indexOf (getPhyaddr va)

/-- The store `page->next = p` to the element that `page` points to. -/
def setNext (s : PageMem) (page : Option ℕ) (p : Word) : PageMem :=
  match page with
  | none => s
  | some i => { s with next := Function.update s.next i p }

/-- `getPA`. -/
def getPA (s : PageMem) (page : Word) : Word := (page - s.pages) / 16 * pageSize

/-- `convertVA`. -/
def convertVA (s : PageMem) (page : Word) : Word := getViraddr (s.getPA page)

/-- `get_page_from_PA`: the kernel address of the element of a physical address. The offset is an
`int`. -/
def getPageFromPA (s : PageMem) (phyaddr : Word) : Word :=
  let offset : BitVec 32 := (scaleDown phyaddr / pageSize).setWidth 32
  s.pages + kernBase + offset.signExtend 64 * 16

/-- `memset(va, 0, PAGE_SIZE)` at a page-aligned kernel address. -/
def memsetPage (s : PageMem) (va : Word) : PageMem :=
  { s with mem := Function.update s.mem (Mm.kframe va) Bytes.zero }

/-- `page_alloc`. -/
def pageAlloc (s : PageMem) : Option (Word × PageMem) :=
  if s.freePageHead = 0 then none
  else
    (s.deref (getViraddr s.freePageHead)).map fun tmp =>
      let s₁ := { s with refCount := Function.update s.refCount tmp 1 }
      let freePg := s₁.convertVA s₁.freePageHead
      (freePg, memsetPage { s₁ with freePageHead := s₁.next tmp } freePg)

/-- `kmalloc`. -/
def kmalloc (s : PageMem) : Option (Word × PageMem) :=
  if s.freePageHead = 0 then none
  else
    (s.deref (getViraddr s.freePageHead)).map fun tmp =>
      let s₁ := { s with refCount := Function.update s.refCount tmp 1 }
      let freePg := s₁.getPA s₁.freePageHead
      let freePgVir := getViraddr freePg
      (freePg, memsetPage { s₁ with freePageHead := s₁.next tmp } freePgVir)

/-- `fetch_free_page`. -/
def fetchFreePage (s : PageMem) : Option (Word × PageMem) :=
  if s.freePageHead = 0 then none
  else
    let tmp := s.freePageHead
    let freePg := s.getPA tmp
    (s.deref (getViraddr tmp)).map fun freePntr =>
      let s₁ := { s with refCount := Function.update s.refCount freePntr 1 }
      (freePg, memsetPage { s₁ with freePageHead := s₁.next freePntr } (getViraddr freePg))

/-- `add_to_free_pages`. The source does not move `free_page_end`. -/
def addToFreePages (s : PageMem) (p : Word) : PageMem :=
  let pagePntr := s.freePageEnd + kernBase
  let s₁ := s.setNext (s.deref pagePntr) p
  s₁.setNext (s₁.deref p) 0

/-- `free_page`. -/
def freePage (s : PageMem) (pageAddr : Word) : Option PageMem :=
  let ph := scldn (pageAddr - kernBase)
  let p := s.getPageFromPA ph
  (s.deref p).map fun i =>
    if s.refCount i > 1 then
      { s with refCount := Function.update s.refCount i (s.refCount i - 1) }
    else
      addToFreePages
        (memsetPage { s with refCount := Function.update s.refCount i 0 } pageAddr) p

/-- The branch of `create_page_list` that appends a page to the list. The kernel does not run in its
own address space yet, and follows the physical addresses themselves. -/
def appendFree (s : PageMem) (pageNum : ℕ) : PageMem :=
  let s₁ := { s with refCount := Function.update s.refCount pageNum 0 }
  if s.freePageHead = 0 then
    { s₁ with
      freePageHead := s.element pageNum
      next := Function.update s₁.next pageNum 0
      freePageEnd := s.element pageNum }
  else
    let s₂ := s₁.setNext (s₁.indexOf s₁.freePageEnd) (s.element pageNum)
    { s₂ with
      freePageEnd := s.element pageNum
      next := Function.update s₂.next pageNum 0 }

/-- One page of `create_page_list`. -/
def markPage (physfree : Word) (smaps : List Smap) (s : PageMem) (pageNum : ℕ) : PageMem :=
  let pageStart := pageOffset pageNum
  let pageEnd := pageStart + pageSize - 1
  if pageStart < physfree ∨ pageEnd < physfree then
    { s with refCount := Function.update s.refCount pageNum 1 }
  else
    let r := smaps.foldl (fun (r : PageMem × Bool) smap =>
      if smap.holds pageStart pageEnd then (appendFree r.1 pageNum, true) else r) (s, false)
    if r.2 then r.1 else { r.1 with refCount := Function.update r.1.refCount pageNum 1 }

/-- `create_page_list`. -/
def createPageList (s : PageMem) (physfree : Word) (smaps : List Smap) (memEnd : Word) : PageMem :=
  let count : BitVec 32 := (memEnd / pageSize).setWidth 32
  let physfree := scaleUp (physfree + 16 * count.signExtend 64)
  let first := (physfree >>> 12).toNat
  let s := { s with
    pageCount := count.toInt.toNat
    mem := fun f => if first ≤ f ∧ f < first + 5 then Bytes.zero else s.mem f }
  (List.range s.pageCount).foldl (markPage physfree smaps) s

/-- The state after `create_page_list`: the caller lays the array at `physfree` and empties the list. -/
def boot (s : PageMem) (physfree : Word) (smaps : List Smap) (memEnd : Word) : PageMem :=
  createPageList { s with pages := physfree, freePageHead := 0, freePageEnd := 0 } physfree smaps memEnd

/-- One action on the allocator: `free_page` is called with the kernel address of a frame, and the
users of a frame count their references to it. -/
def step (s : PageMem) : AllocOp → Option PageMem
  | .pageAlloc => s.pageAlloc.map Prod.snd
  | .kmalloc => s.kmalloc.map Prod.snd
  | .fetchFreePage => s.fetchFreePage.map Prod.snd
  | .freePage f => if f < s.pageCount then s.freePage (Nascent.convertVA f) else none
  | .incRef f =>
    if f < s.pageCount then
      some { s with refCount := Function.update s.refCount f (s.refCount f + 1) }
    else none

/-! ## The form of the links -/

/-- `free_page_head` and the links on its chain, up to the first NULL. -/
inductive Link (s : PageMem) : Word → Prop
  | head : Link s s.freePageHead
  | next {w : Word} {i : ℕ} (h : Link s w) (hw : w ≠ 0)
      (hi : s.deref (getViraddr w) = some i) : Link s (s.next i)

/-- NULL, or the physical address of an element of `pages`. -/
def InForm (s : PageMem) (w : Word) : Prop := w = 0 ∨ ∃ i < s.pageCount, w = s.element i

/-- All links are in the form in which the allocators use them. On a list that is not empty, each
allocator takes the element that the head points to: it counts a reference to this element, follows
the link of this element, and clears and returns the frame of this element. -/
structure OneForm (s : PageMem) : Prop where
  /-- The head and the links of the chain. -/
  links : ∀ w, s.Link w → s.InForm w
  /-- The next allocation. -/
  alloc : s.freePageHead ≠ 0 → ∃ i < s.pageCount, s.freePageHead = s.element i ∧
    ∃ s', s.pageAlloc = some (Nascent.convertVA i, s') ∧ s.kmalloc = some (Nascent.getPA i, s') ∧
      s.fetchFreePage = some (Nascent.getPA i, s') ∧
      s' = { s with
        refCount := Function.update s.refCount i 1
        freePageHead := s.next i
        mem := Function.update s.mem i Bytes.zero }

/-- The element is on the list. -/
def OnList (s : PageMem) (i : ℕ) : Prop :=
  ∃ w, s.Link w ∧ w ≠ 0 ∧ s.deref (getViraddr w) = some i

/-- The list still reaches the element of `free_page_end`. -/
def EndOnList (s : PageMem) : Prop := ∃ e, s.deref (getViraddr s.freePageEnd) = some e ∧ s.OnList e

/-- The action adds no link to the list: a release leaves other references to the frame, or comes
after the list has drained beyond `free_page_end`. -/
def KeepsForm (s : PageMem) : AllocOp → Prop
  | .freePage f => 1 < s.refCount f ∨ ¬ s.EndOnList
  | _ => True

/-! ## Addresses of elements -/

variable {s s' : PageMem} {w : Word} {i f n : ℕ} {a : AllocOp} {ops : List AllocOp}

@[simp] theorem deref_getViraddr : s.deref (getViraddr w) = s.indexOf w := by
  rw [deref, getPhyaddr, getViraddr, BitVec.add_comm, BitVec.add_sub_cancel]

/-- The distance of an element from the start of the array. -/
theorem toNat_element_sub (hi : i < 2^31) : (s.element i - s.pages).toNat = 16 * i := by
  have hsub : s.element i - s.pages = BitVec.ofNat 64 i * 16 := by
    rw [element, BitVec.add_comm, BitVec.add_sub_cancel]
  rw [hsub, BitVec.toNat_mul, BitVec.toNat_ofNat, show (16 : Word).toNat = 16 from rfl]
  omega

/-- A pointer to an element names it. -/
theorem indexOf_element (hc : s.pageCount < 2^31) (hi : i < s.pageCount) :
    s.indexOf (s.element i) = some i := by
  have hsub := toNat_element_sub (s := s) (hi.trans hc)
  have hdiv : 16 * i / 16 = i := Nat.mul_div_cancel_left i (by decide)
  simp only [indexOf, hsub, hdiv]
  exact if_pos ⟨Nat.mul_mod_right 16 i, hi⟩

/-- Only the address of an element names it. -/
theorem eq_element_of_indexOf (h : s.indexOf w = some i) : w = s.element i ∧ i < s.pageCount := by
  simp only [indexOf, Option.ite_none_right_eq_some, Option.some.injEq] at h
  obtain ⟨⟨hmod, hlt⟩, rfl⟩ := h
  refine ⟨?_, hlt⟩
  have hoff : w - s.pages = BitVec.ofNat 64 ((w - s.pages).toNat / 16) * 16 := by
    apply BitVec.eq_of_toNat_eq
    have hw := (w - s.pages).isLt
    rw [BitVec.toNat_mul, BitVec.toNat_ofNat, show (16 : Word).toNat = 16 from rfl]
    omega
  rw [element, ← hoff, BitVec.add_comm, BitVec.sub_add_cancel]

/-- The frame of an element. -/
theorem getPA_element (hi : i < 2^31) : s.getPA (s.element i) = Nascent.getPA i := by
  have hdiv : (s.element i - s.pages) / 16 = BitVec.ofNat 64 i := by
    apply BitVec.eq_of_toNat_eq
    rw [BitVec.toNat_udiv, toNat_element_sub hi, BitVec.toNat_ofNat, show (16 : Word).toNat = 16 from rfl]
    omega
  rw [getPA, hdiv, Nascent.getPA]

/-- `get_page_from_PA` gives the kernel address of the frame's element. -/
theorem getPageFromPA_getPA (hf : f < 2^31) :
    s.getPageFromPA (Nascent.getPA f) = getViraddr (s.element f) := by
  have hnum : scaleDown (Nascent.getPA f) / pageSize = BitVec.ofNat 64 f := by
    rw [scaleDown_getPA (by omega)]
    apply BitVec.eq_of_toNat_eq
    rw [BitVec.toNat_udiv, toNat_getPA (by omega), BitVec.toNat_ofNat, show (pageSize).toNat = 4096 from rfl]
    omega
  have hoffset : ((BitVec.ofNat 64 f).setWidth 32).signExtend 64 = BitVec.ofNat 64 f := by
    have hnat : ((BitVec.ofNat 64 f).setWidth 32).toNat = f := by
      rw [BitVec.toNat_setWidth, BitVec.toNat_ofNat]
      omega
    have hmsb : ((BitVec.ofNat 64 f).setWidth 32).msb = false := by
      rw [BitVec.msb_eq_false_iff_two_mul_lt, hnat]
      omega
    apply BitVec.eq_of_toNat_eq
    rw [BitVec.signExtend_eq_setWidth_of_msb_false hmsb, BitVec.toNat_setWidth, hnat, BitVec.toNat_ofNat]
  simp only [getPageFromPA, hnum, hoffset]
  rw [getViraddr, element, ← BitVec.add_assoc, BitVec.add_comm kernBase]

/-! ## The functions on elements -/

/-- The state after an allocation of the element `i`. -/
def takeHead (s : PageMem) (i : ℕ) : PageMem :=
  { s with
    refCount := Function.update s.refCount i 1
    freePageHead := s.next i
    mem := Function.update s.mem i Bytes.zero }

/-- An allocation, by each of the three functions, where the head points to an element. -/
theorem alloc_eq (hc : s.pageCount < 2^31) (h0 : s.freePageHead ≠ 0)
    (hi : s.indexOf s.freePageHead = some i) :
    s.pageAlloc = some (Nascent.convertVA i, s.takeHead i) ∧
      s.kmalloc = some (Nascent.getPA i, s.takeHead i) ∧
      s.fetchFreePage = some (Nascent.getPA i, s.takeHead i) := by
  obtain ⟨hhead, hlt⟩ := eq_element_of_indexOf hi
  have hpa : s.getPA s.freePageHead = Nascent.getPA i := by
    rw [hhead]
    exact getPA_element (hlt.trans hc)
  have hva : s.convertVA s.freePageHead = Nascent.convertVA i := by
    rw [convertVA, hpa]
    rfl
  have hframe : Mm.kframe (Nascent.convertVA i) = i := kframe_convertVA (by omega)
  have hframe' : Mm.kframe (getViraddr (Nascent.getPA i)) = i := hframe
  refine ⟨?_, ?_, ?_⟩
  · rw [pageAlloc, if_neg h0, deref_getViraddr, hi]
    show some (s.convertVA s.freePageHead, memsetPage _ (s.convertVA s.freePageHead)) = _
    rw [hva, memsetPage, hframe]
    rfl
  · rw [kmalloc, if_neg h0, deref_getViraddr, hi]
    show some (s.getPA s.freePageHead, memsetPage _ (getViraddr (s.getPA s.freePageHead))) = _
    rw [hpa, memsetPage, hframe']
    rfl
  · simp only [fetchFreePage, if_neg h0, deref_getViraddr, hi, hpa]
    show some (Nascent.getPA i, memsetPage _ (getViraddr (Nascent.getPA i))) = _
    rw [memsetPage, hframe']
    rfl

@[simp] theorem indexOf_setNext (page : Option ℕ) (p : Word) :
    (s.setNext page p).indexOf w = s.indexOf w := by
  cases page with
  | none => rfl
  | some e => rfl

/-- The links after `p` is stored behind `free_page_end`, and the list ends in the element `f`. -/
def linkBehind (s : PageMem) (p : Word) (f : ℕ) : ℕ → Word :=
  let next := match s.indexOf s.freePageEnd with
    | none => s.next
    | some e => Function.update s.next e p
  Function.update next f 0

/-- The link of `f` is NULL, the link of the element of `free_page_end` is `p`, and no other changes. -/
theorem linkBehind_cases (s : PageMem) (p : Word) (f j : ℕ) :
    (j = f ∧ s.linkBehind p f j = 0) ∨
      (s.indexOf s.freePageEnd = some j ∧ s.linkBehind p f j = p) ∨
      (j ≠ f ∧ s.indexOf s.freePageEnd ≠ some j ∧ s.linkBehind p f j = s.next j) := by
  unfold linkBehind
  rcases eq_or_ne j f with rfl | hjf
  · exact .inl ⟨rfl, Function.update_self ..⟩
  · right
    rw [Function.update_of_ne hjf]
    cases s.indexOf s.freePageEnd with
    | none => exact .inr ⟨hjf, (Option.some_ne_none j).symm, rfl⟩
    | some e =>
      rcases eq_or_ne j e with rfl | hje
      · exact .inl ⟨rfl, Function.update_self ..⟩
      · exact .inr ⟨hjf, fun h => hje (Option.some.inj h).symm, Function.update_of_ne hje ..⟩

/-- `add_to_free_pages` of the kernel address of an element. -/
theorem addToFreePages_eq (hi : s.indexOf (s.element f) = some f) :
    s.addToFreePages (getViraddr (s.element f)) =
      { s with next := s.linkBehind (getViraddr (s.element f)) f } := by
  rw [addToFreePages, BitVec.add_comm, ← getViraddr]
  simp only [deref_getViraddr, indexOf_setNext, hi, linkBehind]
  cases s.indexOf s.freePageEnd with
  | none => rfl
  | some e => rfl

/-- An append to a list that is not empty. -/
theorem appendFree_eq (h0 : s.freePageHead ≠ 0) :
    s.appendFree n = { s with
      refCount := Function.update s.refCount n 0
      freePageEnd := s.element n
      next := s.linkBehind (s.element n) n } := by
  have hindex : indexOf { s with refCount := Function.update s.refCount n 0 } s.freePageEnd =
      s.indexOf s.freePageEnd := rfl
  unfold appendFree
  simp only [if_neg h0, hindex, linkBehind]
  cases s.indexOf s.freePageEnd with
  | none => rfl
  | some e => rfl

/-- The state after a release of the last reference to the frame `f`. -/
def linked (s : PageMem) (f : ℕ) : PageMem :=
  { s with
    refCount := Function.update s.refCount f 0
    mem := Function.update s.mem f Bytes.zero
    next := s.linkBehind (getViraddr (s.element f)) f }

/-- A release of one of several references. -/
theorem freePage_of_shared (hc : s.pageCount < 2^31) (hf : f < s.pageCount) (hr : 1 < s.refCount f) :
    s.freePage (Nascent.convertVA f) =
      some { s with refCount := Function.update s.refCount f (s.refCount f - 1) } := by
  have hph : scldn (Nascent.convertVA f - kernBase) = Nascent.getPA f := by
    rw [convertVA_sub_kernBase, scldn_eq_scaleDown, scaleDown_getPA (by omega)]
  simp only [freePage, hph, getPageFromPA_getPA (hf.trans hc), deref_getViraddr,
    indexOf_element hc hf, Option.map_some, if_pos hr]

/-- A release of the last reference. -/
theorem freePage_of_last (hc : s.pageCount < 2^31) (hf : f < s.pageCount) (hr : s.refCount f ≤ 1) :
    s.freePage (Nascent.convertVA f) = some (s.linked f) := by
  have hph : scldn (Nascent.convertVA f - kernBase) = Nascent.getPA f := by
    rw [convertVA_sub_kernBase, scldn_eq_scaleDown, scaleDown_getPA (by omega)]
  have hframe : Mm.kframe (Nascent.convertVA f) = f := kframe_convertVA (by omega)
  have hi := indexOf_element hc hf
  simp only [freePage, hph, getPageFromPA_getPA (hf.trans hc), deref_getViraddr, hi, Option.map_some,
    if_neg (Nat.not_lt.mpr hr), memsetPage, hframe]
  exact congrArg some (addToFreePages_eq hi)

/-! ## Links -/

/-- A link leads to the elements that `K` admits. -/
def Leads (s : PageMem) (K : ℕ → Prop) (w : Word) : Prop :=
  s.InForm w ∧ (w ≠ 0 → ∀ i, s.indexOf w = some i → K i)

/-- NULL leads to no element. -/
theorem leads_zero (s : PageMem) (K : ℕ → Prop) : s.Leads K 0 := ⟨.inl rfl, fun h => (h rfl).elim⟩

/-- The address of an element leads to it. -/
theorem leads_element {K : ℕ → Prop} (hc : s.pageCount < 2^31) (hi : i < s.pageCount) (hK : K i) :
    s.Leads K (s.element i) := by
  refine ⟨.inr ⟨i, hi, rfl⟩, fun _ j hj => ?_⟩
  rw [indexOf_element hc hi] at hj
  exact Option.some.inj hj ▸ hK

/-- All links are in form, where the head leads to admitted elements and the link of an admitted element
does so again. The induction is on the way from the head. -/
theorem Link.leads {K : ℕ → Prop} (hhead : s.Leads K s.freePageHead)
    (hnext : ∀ i, K i → s.Leads K (s.next i)) (h : s.Link w) : s.Leads K w := by
  induction h with
  | head => exact hhead
  | next _ hw hi ih => exact hnext _ (ih.2 hw _ (deref_getViraddr ▸ hi))

/-- The invariant of the runs: all links are in form, in an array that `int` indices reach. -/
structure Formed (s : PageMem) : Prop where
  /-- `page_count` is an `int`. -/
  count : s.pageCount < 2^31
  /-- The links of the list. -/
  links : ∀ w, s.Link w → s.InForm w

/-- A list is formed, and has only admitted elements, where the head leads to these and their links do
so again. -/
theorem Formed.of_leads {K : ℕ → Prop} (hc : s.pageCount < 2^31) (hhead : s.Leads K s.freePageHead)
    (hnext : ∀ i, K i → s.Leads K (s.next i)) : s.Formed ∧ ∀ i, s.OnList i → K i := by
  refine ⟨⟨hc, fun _ hw => (hw.leads hhead hnext).1⟩, ?_⟩
  rintro i ⟨w, hw, h0, hi⟩
  exact (hw.leads hhead hnext).2 h0 i (deref_getViraddr ▸ hi)

/-- A link of a formed list leads to elements of the list. -/
theorem Formed.leads (h : s.Formed) (hw : s.Link w) : s.Leads s.OnList w :=
  ⟨h.links w hw, fun h0 _ hi => ⟨w, hw, h0, deref_getViraddr.trans hi⟩⟩

/-- The link of an element of the list. -/
theorem Formed.leads_next (h : s.Formed) (hi : s.OnList i) : s.Leads s.OnList (s.next i) := by
  obtain ⟨w, hw, h0, hi⟩ := hi
  exact h.leads (hw.next h0 hi)

/-- The head of a formed list that is not empty. -/
theorem Formed.head (h : s.Formed) (h0 : s.freePageHead ≠ 0) :
    ∃ i < s.pageCount, s.freePageHead = s.element i ∧ s.indexOf s.freePageHead = some i := by
  obtain ⟨i, hi, hhead⟩ := (h.links _ .head).resolve_left h0
  refine ⟨i, hi, hhead, ?_⟩
  rw [hhead]
  exact indexOf_element h.count hi

/-- On a formed list, the next allocation is right. -/
theorem Formed.oneForm (h : s.Formed) : s.OneForm := by
  refine ⟨h.links, fun h0 => ?_⟩
  obtain ⟨i, hi, hhead, hindex⟩ := h.head h0
  obtain ⟨h1, h2, h3⟩ := alloc_eq h.count h0 hindex
  exact ⟨i, hi, hhead, s.takeHead i, h1, h2, h3, rfl⟩

/-- An allocation keeps the rest of the list. -/
theorem Formed.takeHead (h : s.Formed) (h0 : s.freePageHead ≠ 0)
    (hi : s.indexOf s.freePageHead = some i) :
    (s.takeHead i).Formed ∧ ∀ j, (s.takeHead i).OnList j → s.OnList j := by
  have hon : s.OnList i := ⟨_, .head, h0, deref_getViraddr.trans hi⟩
  exact Formed.of_leads (K := s.OnList) h.count (h.leads_next hon) fun j hj => h.leads_next hj

/-- A release keeps the list, where the list does not reach the element of `free_page_end`. -/
theorem Formed.linked (h : s.Formed) (hend : ¬ s.EndOnList) (f : ℕ) :
    (s.linked f).Formed ∧ ∀ j, (s.linked f).OnList j → s.OnList j := by
  refine Formed.of_leads (K := s.OnList) h.count (h.leads .head) fun j hj => ?_
  show s.Leads s.OnList (s.linkBehind (getViraddr (s.element f)) f j)
  rcases s.linkBehind_cases (getViraddr (s.element f)) f j with ⟨-, heq⟩ | ⟨he, -⟩ | ⟨-, -, heq⟩
  · rw [heq]
    exact leads_zero s _
  · exact (hend ⟨j, deref_getViraddr.trans he, hj⟩).elim
  · rw [heq]
    exact h.leads_next hj

/-- A change of the counts changes no link. -/
theorem Formed.setRefCount (h : s.Formed) (count : ℕ → ℕ) :
    Formed { s with refCount := count } ∧ ∀ j, OnList { s with refCount := count } j → s.OnList j :=
  Formed.of_leads (K := s.OnList) h.count (h.leads .head) fun _ hj => h.leads_next hj

/-! ## Runs -/

/-- `create_page_list` writes the physical address of the page into the head or into a link, and ends
the list behind it. -/
theorem Formed.appendFree (h : s.Formed) (hn : n < s.pageCount) :
    (s.appendFree n).Formed ∧ (s.appendFree n).pageCount = s.pageCount := by
  by_cases h0 : s.freePageHead = 0
  · -- The list starts with the page.
    unfold PageMem.appendFree
    rw [if_pos h0]
    refine ⟨And.left (Formed.of_leads (K := fun i => i = n) h.count ?_ ?_), rfl⟩
    · exact leads_element h.count hn rfl
    · rintro i rfl
      show s.Leads _ (Function.update s.next i 0 i)
      rw [Function.update_self]
      exact leads_zero s _
  · -- The page comes behind the element of `free_page_end`.
    have hold : ∀ w, s.Leads s.OnList w → s.Leads (fun i => s.OnList i ∨ i = n) w :=
      fun w hw => ⟨hw.1, fun h0 i hi => .inl (hw.2 h0 i hi)⟩
    rw [appendFree_eq h0]
    refine ⟨And.left (Formed.of_leads (K := fun i => s.OnList i ∨ i = n) h.count (hold _ (h.leads .head))
      fun i hi => ?_), rfl⟩
    show s.Leads _ (s.linkBehind (s.element n) n i)
    rcases s.linkBehind_cases (s.element n) n i with ⟨-, heq⟩ | ⟨-, heq⟩ | ⟨hin, -, heq⟩
    · rw [heq]
      exact leads_zero s _
    · rw [heq]
      exact leads_element h.count hn (.inr rfl)
    · rw [heq]
      exact hold _ (h.leads_next (hi.resolve_right hin))

/-- One page of `create_page_list` keeps the form, over all regions that hold it. -/
theorem Formed.markPage (physfree : Word) (smaps : List Smap) (h : s.Formed) (hn : n < s.pageCount) :
    (s.markPage physfree smaps n).Formed ∧ (s.markPage physfree smaps n).pageCount = s.pageCount := by
  have hfold : ∀ (a b : Word) (smaps : List Smap) (r : PageMem × Bool),
      r.1.Formed ∧ r.1.pageCount = s.pageCount →
      (smaps.foldl (fun (r : PageMem × Bool) smap =>
        if smap.holds a b then (r.1.appendFree n, true) else r) r).1.Formed ∧
      (smaps.foldl (fun (r : PageMem × Bool) smap =>
        if smap.holds a b then (r.1.appendFree n, true) else r) r).1.pageCount = s.pageCount := by
    intro a b smaps
    induction smaps with
    | nil => exact fun r hr => hr
    | cons smap smaps ih =>
      intro r hr
      rw [List.foldl_cons]
      refine ih _ ?_
      split_ifs
      · obtain ⟨hf, hc⟩ := hr.1.appendFree (hr.2 ▸ hn)
        exact ⟨hf, hc.trans hr.2⟩
      · exact hr
  simp only [PageMem.markPage]
  split_ifs with hlow hmark
  · exact ⟨(h.setRefCount _).1, rfl⟩
  · exact hfold _ _ smaps (s, false) ⟨h, rfl⟩
  · obtain ⟨hf, hc⟩ := hfold (pageOffset n) (pageOffset n + pageSize - 1) smaps (s, false) ⟨h, rfl⟩
    exact ⟨(hf.setRefCount _).1, hc⟩

/-- The list at boot. -/
theorem formed_boot (s : PageMem) (physfree : Word) (smaps : List Smap) (memEnd : Word) :
    (s.boot physfree smaps memEnd).Formed := by
  have hloop : ∀ (n : ℕ) (physfree : Word) (s₀ : PageMem), s₀.Formed → n ≤ s₀.pageCount →
      ((List.range n).foldl (PageMem.markPage physfree smaps) s₀).Formed ∧
        ((List.range n).foldl (PageMem.markPage physfree smaps) s₀).pageCount = s₀.pageCount := by
    intro n physfree s₀ h₀
    induction n with
    | zero => exact fun _ => ⟨h₀, rfl⟩
    | succ n ih =>
      intro hn
      obtain ⟨hf, hc⟩ := ih (Nat.le_of_succ_le hn)
      rw [List.range_succ, List.foldl_append]
      obtain ⟨hf', hc'⟩ := hf.markPage physfree smaps (n := n) (by omega)
      exact ⟨hf', hc'.trans hc⟩
  refine (hloop _ _ _ ?_ le_rfl).1
  exact (Formed.of_leads (K := fun _ => False) (Mm.bootCount_lt memEnd) (leads_zero _ _)
    fun _ hi => hi.elim).1

/-- What an action can do: take the head, drop one of several references, link a frame behind
`free_page_end`, or count one more reference. -/
theorem step_cases (hc : s.pageCount < 2^31) (hs : s.step a = some s') :
    (∃ i, s.freePageHead ≠ 0 ∧ s.indexOf s.freePageHead = some i ∧ s' = s.takeHead i) ∨
      (∃ f, a = .freePage f ∧ f < s.pageCount ∧ 1 < s.refCount f ∧
        s' = { s with refCount := Function.update s.refCount f (s.refCount f - 1) }) ∨
      (∃ f, a = .freePage f ∧ f < s.pageCount ∧ s.refCount f ≤ 1 ∧ s' = s.linked f) ∨
      (∃ f, a = .incRef f ∧ f < s.pageCount ∧
        s' = { s with refCount := Function.update s.refCount f (s.refCount f + 1) }) := by
  -- The three allocators agree, and give nothing where the head points to no element.
  have hnone : s.freePageHead = 0 ∨ s.indexOf s.freePageHead = none →
      s.pageAlloc = none ∧ s.kmalloc = none ∧ s.fetchFreePage = none := by
    rintro (h0 | h0)
    · simp [PageMem.pageAlloc, PageMem.kmalloc, PageMem.fetchFreePage, h0]
    · simp [PageMem.pageAlloc, PageMem.kmalloc, PageMem.fetchFreePage, h0]
  have halloc : (∃ v, s.pageAlloc = some (v, s') ∨ s.kmalloc = some (v, s') ∨
      s.fetchFreePage = some (v, s')) →
      ∃ i, s.freePageHead ≠ 0 ∧ s.indexOf s.freePageHead = some i ∧ s' = s.takeHead i := by
    rintro ⟨v, hv⟩
    by_cases h0 : s.freePageHead = 0
    · obtain ⟨h1, h2, h3⟩ := hnone (.inl h0)
      simp [h1, h2, h3] at hv
    cases hi : s.indexOf s.freePageHead with
    | none =>
      obtain ⟨h1, h2, h3⟩ := hnone (.inr hi)
      simp [h1, h2, h3] at hv
    | some i =>
      obtain ⟨h1, h2, h3⟩ := alloc_eq hc h0 hi
      refine ⟨i, h0, rfl, ?_⟩
      rw [h1, h2, h3] at hv
      simp only [Option.some.injEq, Prod.mk.injEq] at hv
      rcases hv with ⟨-, hv⟩ | ⟨-, hv⟩ | ⟨-, hv⟩ <;> exact hv.symm
  cases a with
  | pageAlloc =>
    obtain ⟨⟨v, t⟩, hv, rfl⟩ := Option.map_eq_some_iff.mp hs
    exact .inl (halloc ⟨v, .inl hv⟩)
  | kmalloc =>
    obtain ⟨⟨v, t⟩, hv, rfl⟩ := Option.map_eq_some_iff.mp hs
    exact .inl (halloc ⟨v, .inr (.inl hv)⟩)
  | fetchFreePage =>
    obtain ⟨⟨v, t⟩, hv, rfl⟩ := Option.map_eq_some_iff.mp hs
    exact .inl (halloc ⟨v, .inr (.inr hv)⟩)
  | freePage f =>
    simp only [step, Option.ite_none_right_eq_some] at hs
    obtain ⟨hf, hs⟩ := hs
    rcases Nat.lt_or_ge 1 (s.refCount f) with hr | hr
    · rw [freePage_of_shared hc hf hr] at hs
      exact .inr (.inl ⟨f, rfl, hf, hr, (Option.some.inj hs).symm⟩)
    · rw [freePage_of_last hc hf hr] at hs
      exact .inr (.inr (.inl ⟨f, rfl, hf, hr, (Option.some.inj hs).symm⟩))
  | incRef f =>
    simp only [step, Option.ite_none_right_eq_some, Option.some.injEq] at hs
    exact .inr (.inr (.inr ⟨f, rfl, hs.1, hs.2.symm⟩))

/-- An action that meets the condition keeps the form. -/
theorem Formed.step (h : s.Formed) (hk : s.KeepsForm a) (hs : s.step a = some s') : s'.Formed := by
  rcases step_cases h.count hs with ⟨i, h0, hi, rfl⟩ | ⟨f, -, -, -, rfl⟩ | ⟨f, rfl, -, hr, rfl⟩ |
    ⟨f, -, -, rfl⟩
  · exact (h.takeHead h0 hi).1
  · exact (h.setRefCount _).1
  · exact (h.linked (hk.resolve_left (Nat.not_lt.mpr hr)) f).1
  · exact (h.setRefCount _).1

/-- The links of the free list keep one form, as long as no frame is released for good while the list
reaches the element of `free_page_end`. In every state that such a run from boot visits, the head and
every link up to the first NULL is NULL or the physical address of an element, and the next allocation
takes the element of the head and returns its frame. -/
theorem links_one_form (s : PageMem) (physfree : Word) (smaps : List Smap) (memEnd : Word)
    (ops : List AllocOp) (hk : Along step KeepsForm (s.boot physfree smaps memEnd) ops) (t : PageMem)
    (ht : Visits step (s.boot physfree smaps memEnd) ops t) : t.OneForm :=
  (ht.invariant hk (fun _ _ _ h hk hs => h.step hk hs) (formed_boot s physfree smaps memEnd)).oneForm

/-- The address of an element of an array that the direct map reaches. -/
theorem toNat_element (hp : s.pages.toNat + 16 * s.pageCount ≤ 2^31) (hi : i < s.pageCount) :
    (s.element i).toNat = s.pages.toNat + 16 * i := by
  rw [element, BitVec.toNat_add, BitVec.toNat_mul, BitVec.toNat_ofNat, show (16 : Word).toNat = 16 from rfl]
  omega

/-- The condition is exact for frames in use, where the direct map reaches the array: the release of a
frame's last reference, while the list reaches the element of `free_page_end`, leaves a link of the list
in the other form. -/
theorem not_oneForm_freePage (h : s.Formed) (hp : s.pages.toNat + 16 * s.pageCount ≤ 2^31)
    (hf : f < s.pageCount) (hoff : ¬ s.OnList f) (hr : s.refCount f ≤ 1) (hend : s.EndOnList) :
    ∃ s', s.step (.freePage f) = some s' ∧ ¬ s'.OneForm := by
  obtain ⟨e, he, w, hw, h0, hi⟩ := hend
  rw [deref_getViraddr] at he
  refine ⟨s.linked f, (if_pos hf).trans (freePage_of_last h.count hf hr), fun hform => ?_⟩
  have hne : e ≠ f := fun hef => hoff (hef ▸ ⟨w, hw, h0, hi⟩)
  -- The list still reaches the element of `free_page_end`: no link before it has changed.
  have hkept : ∀ w, s.Link w → (s.linked f).Link w ∨ (s.linked f).OnList e := by
    intro w hw
    induction hw with
    | head => exact .inl .head
    | @next w j hw h0 hj ih =>
      rcases ih with ih | ih
      · rcases s.linkBehind_cases (getViraddr (s.element f)) f j with ⟨rfl, -⟩ | ⟨hej, -⟩ | ⟨-, -, heq⟩
        · exact (hoff ⟨w, hw, h0, hj⟩).elim
        · obtain rfl : e = j := Option.some.inj (he.symm.trans hej)
          exact .inr ⟨w, ih, h0, hj⟩
        · left
          rw [← heq]
          exact ih.next h0 hj
      · exact .inr ih
  have hon : (s.linked f).OnList e := (hkept w hw).elim (fun hw' => ⟨w, hw', h0, hi⟩) id
  obtain ⟨w', hw', h0', hi'⟩ := hon
  -- Its link is the kernel address of the released element.
  have hlink : (s.linked f).InForm (getViraddr (s.element f)) := by
    rcases s.linkBehind_cases (getViraddr (s.element f)) f e with ⟨hef, -⟩ | ⟨-, heq⟩ | ⟨-, hee, -⟩
    · exact (hne hef).elim
    · exact heq ▸ hform.links _ (hw'.next h0' hi')
    · exact (hee he).elim
  have hva : (getViraddr (s.element f)).toNat = 2^64 - 2^31 + (s.pages.toNat + 16 * f) := by
    rw [getViraddr, BitVec.toNat_add, toNat_element hp hf,
      show kernBase.toNat = 2^64 - 2^31 from by decide]
    omega
  rcases hlink with hnull | ⟨i, hlt, heq⟩
  · rw [hnull] at hva
    have hzero : (0 : Word).toNat = 0 := rfl
    omega
  · have hlow : (s.element i).toNat = s.pages.toNat + 16 * i := toNat_element hp hlt
    have heq' : getViraddr (s.element f) = s.element i := heq
    rw [heq', hlow] at hva
    have hlt' : i < s.pageCount := hlt
    omega

/-- Four pages, of which the kernel and `pages` take two. -/
def small : PageMem :=
  boot ⟨fun _ => Bytes.zero, fun _ => 0, fun _ => 0, 0, 0, 0, 0⟩ 0x1000 [⟨0, 0x100000, 1⟩] 0x4000

/-- An empty list reaches no element. -/
theorem not_endOnList (h0 : s.freePageHead = 0) : ¬ s.EndOnList := by
  rintro ⟨e, -, hon⟩
  have hlead : ∀ w, s.Link w → s.Leads (fun _ => False) w :=
    fun w hw => hw.leads (h0 ▸ leads_zero s _) fun _ hi => hi.elim
  obtain ⟨w, hw, hne, hi⟩ := hon
  exact (hlead w hw).2 hne e (deref_getViraddr ▸ hi)

/-- A run that takes both free frames, shares one, and releases it only then. -/
theorem links_one_form_run : ∃ t, Visits step small
    [.pageAlloc, .incRef 2, .freePage 2, .kmalloc, .freePage 2] t ∧ t.refCount 2 = 0 ∧ t.OneForm := by
  have hkeeps : Along step KeepsForm small
      ([.pageAlloc, .incRef 2] ++ [.freePage 2] ++ [.kmalloc] ++ [.freePage 2]) := by
    refine Along.concat (Along.concat (Along.concat ?_ fun t ht => .inl ?_) fun _ _ => trivial)
      fun t ht => .inr (not_endOnList ?_)
    · exact ⟨trivial, fun _ _ => ⟨trivial, fun _ _ => trivial⟩⟩
    · have hshared : ((run step small [.pageAlloc, .incRef 2]).map fun t => t.refCount 2) = some 2 := by
        decide +kernel
      rw [Option.mem_def.mp ht] at hshared
      have htwo : t.refCount 2 = 2 := Option.some.inj hshared
      omega
    · have hempty : ((run step small ([.pageAlloc, .incRef 2] ++ [.freePage 2] ++ [.kmalloc])).map fun t =>
          t.freePageHead) = some 0 := by decide +kernel
      rw [Option.mem_def.mp ht] at hempty
      exact Option.some.inj hempty
  have hrun : ((run step small [.pageAlloc, .incRef 2, .freePage 2, .kmalloc, .freePage 2]).map fun t =>
      t.refCount 2) = some 0 := by decide +kernel
  obtain ⟨t, ht, hcount⟩ := Option.map_eq_some_iff.mp hrun
  have hv := Runs.visits_of_run ht
  exact ⟨t, hv, hcount, links_one_form _ _ _ _ _ hkeeps t hv⟩

/-- Frame 2 is released while frame 3 is on the list: the link of frame 3 is the kernel address of an
element. -/
theorem release_breaks_form :
    ¬ ∀ (s : PageMem) (physfree : Word) (smaps : List Smap) (memEnd : Word) (ops : List AllocOp)
      (t : PageMem), Visits step (s.boot physfree smaps memEnd) ops t → t.OneForm := by
  intro hall
  have hrun : ((run step small [.pageAlloc, .freePage 2]).map fun t =>
      (t.freePageHead, t.next 3, t.pages, t.pageCount)) =
      some (0x1030, 0xffffffff80001020, 0x1000, 4) := by decide +kernel
  obtain ⟨t, ht, hval⟩ := Option.map_eq_some_iff.mp hrun
  simp only [Prod.mk.injEq] at hval
  obtain ⟨hhead, hnext, hpages, hcount⟩ := hval
  have hindex : t.deref (getViraddr t.freePageHead) = some 3 := by
    rw [deref_getViraddr, indexOf, hhead, hpages, hcount]
    decide
  have hlink : t.Link (t.next 3) := .next .head (by rw [hhead]; decide) hindex
  rcases (hall _ _ _ _ _ t (Runs.visits_of_run ht)).links _ hlink with h0 | ⟨i, hi, hi'⟩
  · rw [hnext] at h0
    exact absurd h0 (by decide)
  · rw [hnext, element, hpages] at hi'
    rw [hcount] at hi
    revert i
    decide

end PageMem

end Nascent
