import Nascent.Page.Address

/-!
# The free list under allocation and release

`FreeChain s l` says that the free list, from `free_page_head`, is `l`, and that its frames are
frames of the machine with a count of 0. An allocation takes the head of `l`, and a release of a
frame that is not on `l` may append it: `add_to_free_pages` writes through `free_page_end`, which
it never moves, so what it does to the list depends on whether the frame that this pointer names
is still on it. `FreeChain.addToFreePages` covers both cases. It is all that safety needs, and it
does not say where `free_page_end` points.
-/

namespace Nascent

open Linked (Chain)

namespace Mm

variable {s : Mm} {f g : ℕ} {l : List ℕ}

/-- The free list is `l`, a list of frames of the machine with a count of 0. -/
structure FreeChain (s : Mm) (l : List ℕ) : Prop where
  /-- The links from `free_page_head` visit `l`. -/
  chain : Chain s.next s.freePageHead l
  /-- The frames of the list are not in use. -/
  unused : ∀ f ∈ l, s.refCount f = 0
  /-- The frames of the list have an element in `pages`. -/
  lt : ∀ f ∈ l, f < s.pageCount
  /-- `page_count` is an `int`. -/
  bound : s.pageCount < 2^31

/-- A frame of the machine has a number that its physical address holds. -/
theorem FreeChain.lt_two_pow (h : FreeChain s l) (hf : f < s.pageCount) : f < 2^52 := by
  have := h.bound
  omega

/-- A frame in use is not on the free list. -/
theorem FreeChain.notMem (h : FreeChain s l) (hf : s.refCount f ≠ 0) : f ∉ l :=
  fun hm => hf (h.unused f hm)

/-! ## Allocation -/

/-- An allocation with a non-empty list takes the head, by each of the three functions, with one
and the same state change. -/
theorem alloc_eq (hf : s.freePageHead = some f) :
    s.pageAlloc = some (convertVA f, s.takeHead f (convertVA f)) ∧
      s.kmalloc = some (getPA f, s.takeHead f (convertVA f)) ∧
      s.fetchFreePage = some (getPA f, s.takeHead f (convertVA f)) := by
  simp [pageAlloc, kmalloc, fetchFreePage, hf, convertVA]

/-- An allocation clears the frame that it takes. -/
theorem takeHead_eq (hf : f < 2^52) :
    s.takeHead f (convertVA f) = { s with
      refCount := Function.update s.refCount f 1
      freePageHead := s.next f
      mem := Function.update s.mem f Bytes.zero } := by
  rw [takeHead, memsetPage, kframe_convertVA hf]

/-- An allocation leaves the rest of the free list. -/
theorem FreeChain.takeHead (h : FreeChain s (f :: l)) :
    FreeChain (s.takeHead f (convertVA f)) l := by
  have hf : f < 2^52 := h.lt_two_pow (h.lt f (List.mem_cons_self ..))
  obtain ⟨hfl, -⟩ := List.nodup_cons.mp h.chain.nodup
  rw [takeHead_eq hf]
  refine ⟨h.chain.2, fun g hg => ?_, fun g hg => ?_, h.bound⟩
  · show Function.update s.refCount f 1 g = 0
    rw [Function.update_of_ne (ne_of_mem_of_not_mem hg hfl)]
    exact h.unused g (List.mem_cons_of_mem _ hg)
  · exact h.lt g (List.mem_cons_of_mem _ hg)

/-! ## Release -/

/-- The release of one of several references only lowers the count. -/
theorem freePage_of_shared (hf : f < 2^52) (hr : 1 < s.refCount f) :
    s.freePage (convertVA f) =
      { s with refCount := Function.update s.refCount f (s.refCount f - 1) } := by
  simp [freePage, convertVA_sub_kernBase, frameOf_getPA hf, hr]

/-- The release of the last reference clears the frame and adds it to the list. -/
theorem freePage_of_last (hf : f < 2^52) (hr : s.refCount f ≤ 1) :
    s.freePage (convertVA f) = addToFreePages { s with
      refCount := Function.update s.refCount f 0
      mem := Function.update s.mem f Bytes.zero } f := by
  simp [freePage, convertVA_sub_kernBase, frameOf_getPA hf, Nat.not_lt.mpr hr, memsetPage,
    kframe_convertVA hf]

/-- A release lowers the count of the frame. -/
theorem refCount_freePage (hf : f < 2^52) :
    (s.freePage (convertVA f)).refCount = Function.update s.refCount f (s.refCount f - 1) := by
  by_cases hr : 1 < s.refCount f
  · rw [freePage_of_shared hf hr]
  · rw [freePage_of_last hf (by omega), show s.refCount f - 1 = 0 by omega]
    rfl

/-- A release leaves the memory of the other frames. -/
theorem mem_freePage_of_ne (hf : f < 2^52) (hg : g ≠ f) :
    (s.freePage (convertVA f)).mem g = s.mem g := by
  by_cases hr : 1 < s.refCount f
  · rw [freePage_of_shared hf hr]
  · rw [freePage_of_last hf (by omega)]
    exact Function.update_of_ne hg ..

/-- A release leaves the memory of a frame that is still in use. -/
theorem mem_freePage_of_shared (hf : f < 2^52) (hr : 1 < s.refCount f) :
    (s.freePage (convertVA f)).mem = s.mem := by
  rw [freePage_of_shared hf hr]

/-- The last release clears the frame. -/
theorem mem_freePage_of_last (hf : f < 2^52) (hr : s.refCount f ≤ 1) :
    (s.freePage (convertVA f)).mem f = Bytes.zero := by
  rw [freePage_of_last hf hr]
  exact Function.update_self ..

/-- A release leaves the number of frames and the kernel's PML4. -/
theorem consts_freePage (hf : f < 2^52) : (s.freePage (convertVA f)).pageCount = s.pageCount ∧
    (s.freePage (convertVA f)).kpmlAddr = s.kpmlAddr := by
  by_cases hr : 1 < s.refCount f
  · rw [freePage_of_shared hf hr]
    exact ⟨rfl, rfl⟩
  · rw [freePage_of_last hf (by omega)]
    exact ⟨rfl, rfl⟩

/-- A frame that is added to the free list becomes its last frame where the list reaches the frame
of `free_page_end`, and is not on the list otherwise. -/
theorem chain_addToFreePages (h : Chain s.next s.freePageHead l) (hf : f ∉ l) :
    (∃ l₁ l₂ e, l = l₁ ++ e :: l₂ ∧ s.freePageEnd = some e ∧
      Chain (s.addToFreePages f).next s.freePageHead (l₁ ++ [e, f])) ∨
    (∀ e ∈ l, s.freePageEnd ≠ some e) ∧ Chain (s.addToFreePages f).next s.freePageHead l := by
  by_cases he : ∃ e ∈ l, s.freePageEnd = some e
  · -- The list reaches the frame of `free_page_end`, and now ends in it and `f`.
    obtain ⟨e, hel, he⟩ := he
    obtain ⟨l₁, l₂, rfl⟩ := List.append_of_mem hel
    refine .inl ⟨l₁, l₂, e, rfl, he, ?_⟩
    simp only [addToFreePages, he]
    exact h.set_last (fun hm => hf (by simp [hm])) (fun hfe => hf (by simp [hfe]))
  · -- Both links that are written belong to frames off the list.
    push Not at he
    refine .inr ⟨he, ?_⟩
    cases hend : s.freePageEnd with
    | none =>
      simp only [addToFreePages, hend]
      exact h.update_of_notMem hf _
    | some e =>
      simp only [addToFreePages, hend]
      exact (h.update_of_notMem (fun hm => he e hm hend) _).update_of_notMem hf _

/-- The free list after a frame with a count of 0 that is not on it is added: it holds no other
new frame. -/
theorem FreeChain.addToFreePages (h : FreeChain s l) (hf : f ∉ l) (h0 : s.refCount f = 0)
    (hlt : f < s.pageCount) : ∃ l', FreeChain (s.addToFreePages f) l' ∧ ∀ g ∈ l', g ∈ l ∨ g = f := by
  rcases chain_addToFreePages h.chain hf with ⟨l₁, l₂, e, rfl, -, hc⟩ | ⟨-, hc⟩
  · have hsub : ∀ g ∈ l₁ ++ [e, f], g ∈ l₁ ++ e :: l₂ ∨ g = f := by
      intro g hg
      simp only [List.mem_append, List.mem_cons, List.not_mem_nil, or_false] at hg ⊢
      tauto
    refine ⟨_, ⟨hc, fun g hg => ?_, fun g hg => ?_, h.bound⟩, hsub⟩
    · rcases hsub g hg with hg | rfl
      · exact h.unused g hg
      · exact h0
    · rcases hsub g hg with hg | rfl
      · exact h.lt g hg
      · exact hlt
  · exact ⟨l, ⟨hc, h.unused, h.lt, h.bound⟩, fun g hg => .inl hg⟩

/-- A change of the counts of frames off the list, and of the memory, leaves the free list. -/
theorem FreeChain.congr {s' : Mm} (h : FreeChain s l) (hn : s'.next = s.next)
    (hh : s'.freePageHead = s.freePageHead) (hp : s'.pageCount = s.pageCount)
    (hr : ∀ g ∈ l, s'.refCount g = 0) : FreeChain s' l := by
  refine ⟨?_, hr, ?_, ?_⟩
  · rw [hn, hh]
    exact h.chain
  · rw [hp]
    exact h.lt
  · rw [hp]
    exact h.bound

/-- The free list after the release of a frame in use: it holds at most that frame more, and only
where its count drops to 0. -/
theorem FreeChain.freePage (h : FreeChain s l) (hf : s.refCount f ≠ 0) (hlt : f < s.pageCount) :
    ∃ l', FreeChain (s.freePage (convertVA f)) l' ∧
      ∀ g ∈ l', g ∈ l ∨ g = f ∧ s.refCount f = 1 := by
  have hfl : f ∉ l := h.notMem hf
  have hb := h.lt_two_pow hlt
  by_cases hr : 1 < s.refCount f
  · rw [freePage_of_shared hb hr]
    refine ⟨l, h.congr rfl rfl rfl fun g hg => ?_, fun g hg => .inl hg⟩
    show Function.update s.refCount f _ g = 0
    rw [Function.update_of_ne (ne_of_mem_of_not_mem hg hfl)]
    exact h.unused g hg
  · rw [freePage_of_last hb (by omega)]
    have hc : FreeChain { s with
        refCount := Function.update s.refCount f 0
        mem := Function.update s.mem f Bytes.zero } l := by
      refine h.congr rfl rfl rfl fun g hg => ?_
      show Function.update s.refCount f 0 g = 0
      rw [Function.update_of_ne (ne_of_mem_of_not_mem hg hfl)]
      exact h.unused g hg
    obtain ⟨l', hl', hsub⟩ := hc.addToFreePages hfl (Function.update_self ..) hlt
    refine ⟨l', hl', fun g hg => (hsub g hg).imp id fun hgf => ⟨hgf, by omega⟩⟩

end Mm

end Nascent
