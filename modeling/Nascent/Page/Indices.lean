import Nascent.Page.Pointers

/-!
# Pointers and indices

The model of `Page/Model.lean` is an abstraction of the one of `Page/Pointers.lean`: it names an element
of `pages` by its index, in both address forms. `Refines` relates the two. It holds at boot
(`refines_boot`), where each page of `create_page_list` does the same on both levels, and every action
that keeps the form of the links keeps it (`Refines.step`). So the results on the free list of indices
are results on the source's list, for the runs of `links_one_form` (`run_refines`).

The links of elements off the list are not related: `free_page` leaves a kernel address in one of them.
-/

namespace Nascent

open Runs (run Along)

namespace PageMem

variable {s s' : PageMem} {f n : ℕ} {a : AllocOp}

/-- The state with indices for pointers. A pointer to no element has none. -/
def toMm (s : PageMem) : Mm where
  mem := s.mem
  refCount := s.refCount
  next := s.indexOf ∘ s.next
  freePageHead := s.indexOf s.freePageHead
  freePageEnd := s.indexOf s.freePageEnd
  pageCount := s.pageCount
  kpmlAddr := 0

/-- A state by indices is that of the pointers, but for the links of elements off the list. NULL is the
address of no element. -/
structure Refines (s : PageMem) (m : Mm) : Prop where
  /-- The links of the pointers are in form. -/
  formed : s.Formed
  /-- NULL. -/
  null : s.indexOf 0 = none
  /-- Physical memory. -/
  mem : m.mem = s.mem
  /-- The counts. -/
  refCount : m.refCount = s.refCount
  /-- The number of pages. -/
  pageCount : m.pageCount = s.pageCount
  /-- The head of the list. -/
  head : m.freePageHead = s.indexOf s.freePageHead
  /-- `free_page_end`. -/
  last : m.freePageEnd = s.indexOf s.freePageEnd
  /-- The links of the list. -/
  next : ∀ i, s.OnList i → m.next i = s.indexOf (s.next i)

/-- A stored link, in indices. -/
theorem indexOf_linkBehind (hnull : s.indexOf 0 = none) (p : Word) (f : ℕ) :
    s.indexOf ∘ s.linkBehind p f =
      Function.update (match s.indexOf s.freePageEnd with
        | none => s.indexOf ∘ s.next
        | some e => Function.update (s.indexOf ∘ s.next) e (s.indexOf p)) f none := by
  unfold linkBehind
  rw [Function.comp_update, hnull]
  cases s.indexOf s.freePageEnd with
  | none => rfl
  | some e => exact congrArg (Function.update · f none) (Function.comp_update ..)

/-! ## The list at boot -/

/-- What the list needs for an append: it ends in the element of `free_page_end`, if it is not empty. -/
structure Appendable (s : PageMem) : Prop where
  /-- The links are in form. -/
  formed : s.Formed
  /-- NULL is the address of no element. -/
  null : s.indexOf 0 = none
  /-- `free_page_end`. -/
  last : s.freePageHead ≠ 0 → ∃ e, s.indexOf s.freePageEnd = some e

/-- An append, in indices. -/
theorem Appendable.appendFree (h : s.Appendable) (hn : n < s.pageCount) :
    (s.appendFree n).Appendable ∧ (s.appendFree n).pageCount = s.pageCount ∧
      (s.appendFree n).toMm = s.toMm.appendFree n := by
  obtain ⟨hformed, hcount⟩ := h.formed.appendFree hn
  have hindex := indexOf_element h.formed.count hn
  by_cases h0 : s.freePageHead = 0
  · have happ : s.appendFree n = { s with
        refCount := Function.update s.refCount n 0
        freePageHead := s.element n
        next := Function.update s.next n 0
        freePageEnd := s.element n } := by
      unfold PageMem.appendFree
      exact if_pos h0
    have hhead : s.toMm.freePageHead = none := (congrArg s.indexOf h0).trans h.null
    have hnext : s.indexOf ∘ Function.update s.next n 0 =
        Function.update (s.indexOf ∘ s.next) n none := by rw [Function.comp_update, h.null]
    refine ⟨⟨hformed, ?_, ?_⟩, hcount, ?_⟩
    · rw [happ]
      exact h.null
    · rw [happ]
      exact fun _ => ⟨n, hindex⟩
    · rw [happ, Mm.appendFree, hhead]
      simp only [toMm, ← hnext, ← hindex]
      rfl
  · obtain ⟨e, he⟩ := h.last h0
    obtain ⟨i, -, -, hi⟩ := h.formed.head h0
    have happ := appendFree_eq (n := n) h0
    have hnext := indexOf_linkBehind h.null (s.element n) n
    rw [he, hindex] at hnext
    refine ⟨⟨hformed, ?_, ?_⟩, hcount, ?_⟩
    · rw [happ]
      exact h.null
    · rw [happ]
      exact fun _ => ⟨n, hindex⟩
    · rw [happ, Mm.appendFree, show s.toMm.freePageHead = some i from hi,
        show s.toMm.freePageEnd = some e from he]
      show ({ s.toMm with
        refCount := Function.update s.refCount n 0
        next := s.indexOf ∘ s.linkBehind (s.element n) n
        freePageHead := s.indexOf s.freePageHead
        freePageEnd := s.indexOf (s.element n) } : Mm) = _
      rw [hnext, hindex, hi]
      rfl

/-- A change of the counts, in indices. -/
theorem Appendable.setRefCount (h : s.Appendable) (count : ℕ → ℕ) :
    Appendable { s with refCount := count } :=
  ⟨(h.formed.setRefCount count).1, h.null, h.last⟩

/-- One page of `create_page_list`, in indices. -/
theorem Appendable.markPage (physfree : Word) (smaps : List Smap) (h : s.Appendable) (hn : n < s.pageCount) :
    (s.markPage physfree smaps n).Appendable ∧ (s.markPage physfree smaps n).pageCount = s.pageCount ∧
      (s.markPage physfree smaps n).toMm = s.toMm.markPage physfree smaps n := by
  -- The two scans of the regions agree on the state and on the mark.
  have hfold : ∀ (a b : Word) (smaps : List Smap) (r : PageMem × Bool),
      r.1.Appendable → r.1.pageCount = s.pageCount →
      let r' := smaps.foldl (fun (r : PageMem × Bool) smap =>
        if smap.holds a b then (r.1.appendFree n, true) else r) r
      r'.1.Appendable ∧ r'.1.pageCount = s.pageCount ∧
        smaps.foldl (fun (r : Mm × Bool) smap =>
          if smap.holds a b then (r.1.appendFree n, true) else r) (r.1.toMm, r.2) = (r'.1.toMm, r'.2) := by
    intro a b smaps
    induction smaps with
    | nil => exact fun r ha hc => ⟨ha, hc, rfl⟩
    | cons smap smaps ih =>
      intro r ha hc
      simp only [List.foldl_cons]
      split_ifs with hs
      · obtain ⟨ha', hc', hm'⟩ := ha.appendFree (hc ▸ hn)
        rw [← hm']
        exact ih (r.1.appendFree n, true) ha' (hc'.trans hc)
      · exact ih r ha hc
  obtain ⟨ha, hc, hm⟩ :=
    hfold (pageOffset n) (pageOffset n + pageSize - 1) smaps (s, false) h rfl
  simp only [PageMem.markPage, Mm.markPage]
  simp only at ha hc hm
  rw [hm]
  split_ifs with hlow hmark
  · exact ⟨h.setRefCount _, rfl, rfl⟩
  · exact ⟨ha, hc, rfl⟩
  · exact ⟨ha.setRefCount _, hc, rfl⟩

/-- The loop of `create_page_list`, in indices. -/
theorem Appendable.foldl (physfree : Word) (smaps : List Smap) (h : s.Appendable) (hn : n ≤ s.pageCount) :
    ((List.range n).foldl (PageMem.markPage physfree smaps) s).Appendable ∧
      ((List.range n).foldl (PageMem.markPage physfree smaps) s).pageCount = s.pageCount ∧
      ((List.range n).foldl (PageMem.markPage physfree smaps) s).toMm =
        (List.range n).foldl (Mm.markPage physfree smaps) s.toMm := by
  induction n with
  | zero => exact ⟨h, rfl, rfl⟩
  | succ n ih =>
    obtain ⟨ha, hc, hm⟩ := ih (Nat.le_of_succ_le hn)
    obtain ⟨ha', hc', hm'⟩ := ha.markPage physfree smaps (n := n) (by omega)
    simp only [List.range_succ, List.foldl_append, List.foldl_cons, List.foldl_nil]
    exact ⟨ha', hc'.trans hc, hm'.trans (congrArg (Mm.markPage physfree smaps · n) hm)⟩

/-- The state in which the loop of `create_page_list` starts. -/
def unlisted (s : PageMem) (physfree memEnd : Word) : PageMem :=
  { s with
    pages := physfree
    freePageHead := 0
    freePageEnd := 0
    pageCount := Mm.bootCount memEnd
    mem := fun f => if frameOf (Mm.bootFree physfree memEnd) ≤ f ∧
      f < frameOf (Mm.bootFree physfree memEnd) + 5 then Bytes.zero else s.mem f }

/-- The model by indices has the list that the pointers have at boot. -/
theorem refines_boot (s : PageMem) {physfree memEnd : Word} (smaps : List Smap)
    (hnull : (s.unlisted physfree memEnd).indexOf 0 = none) :
    ∃ mm, (s.boot physfree smaps memEnd).Refines (AllocSys.boot mm physfree smaps memEnd).mm := by
  have happ : (s.unlisted physfree memEnd).Appendable := by
    refine ⟨And.left (Formed.of_leads (K := fun _ => False) (Mm.bootCount_lt memEnd) (leads_zero _ _)
      fun _ hi => hi.elim), hnull, fun h0 => (h0 rfl).elim⟩
  obtain ⟨ha, hc, hm⟩ := happ.foldl (Mm.bootFree physfree memEnd) smaps le_rfl
  refine ⟨{ (s.unlisted physfree memEnd).toMm with mem := s.mem }, ?_⟩
  have hmm : (AllocSys.boot { (s.unlisted physfree memEnd).toMm with mem := s.mem } physfree smaps
      memEnd).mm = (s.boot physfree smaps memEnd).toMm := by
    have hstart : { (s.unlisted physfree memEnd).toMm with freePageHead := none, freePageEnd := none } =
        (s.unlisted physfree memEnd).toMm := by rw [← hnull]; rfl
    refine Eq.trans ?_ hm.symm
    rw [← hstart]
    rfl
  rw [hmm]
  exact ⟨ha.formed, ha.null, rfl, rfl, rfl, rfl, rfl, fun _ _ => rfl⟩

/-! ## Actions -/

section Refines

variable {m m' : Mm} {u u' : AllocSys} {v : Word}

/-- An allocation takes the same head. -/
theorem Refines.takeHead (h : s.Refines m) (hf : m.freePageHead = some f) :
    s.freePageHead ≠ 0 ∧ s.indexOf s.freePageHead = some f ∧
      (s.takeHead f).Refines (m.takeHead f (Nascent.convertVA f)) := by
  have hi : s.indexOf s.freePageHead = some f := h.head.symm.trans hf
  have h0 : s.freePageHead ≠ 0 := by
    intro h0
    rw [h0, h.null] at hi
    cases hi
  have hc := h.formed.count
  obtain ⟨-, hlt⟩ := eq_element_of_indexOf hi
  obtain ⟨hform, hon⟩ := h.formed.takeHead h0 hi
  refine ⟨h0, hi, ?_⟩
  rw [Mm.takeHead_eq (by omega)]
  refine ⟨hform, h.null, ?_, ?_, h.pageCount, ?_, h.last, fun j hj => h.next j (hon j hj)⟩
  · exact congrArg (Function.update · f Bytes.zero) h.mem
  · exact congrArg (Function.update · f 1) h.refCount
  · exact h.next f ⟨_, .head, h0, deref_getViraddr.trans hi⟩

/-- The three allocators do the same on both levels. -/
theorem Refines.alloc (h : s.Refines m)
    (hv : m.pageAlloc = some (v, m') ∨ m.kmalloc = some (v, m') ∨ m.fetchFreePage = some (v, m')) :
    ∃ s', s'.Refines m' ∧ s.step .pageAlloc = some s' ∧ s.step .kmalloc = some s' ∧
      s.step .fetchFreePage = some s' := by
  cases hf : m.freePageHead with
  | none => simp [Mm.pageAlloc, Mm.kmalloc, Mm.fetchFreePage, hf] at hv
  | some f =>
    obtain ⟨h1, h2, h3⟩ := Mm.alloc_eq hf
    have hm : m' = m.takeHead f (Nascent.convertVA f) := by
      simp only [h1, h2, h3, Option.some.injEq, Prod.mk.injEq] at hv
      rcases hv with ⟨-, hv⟩ | ⟨-, hv⟩ | ⟨-, hv⟩ <;> exact hv.symm
    obtain ⟨h0, hi, href⟩ := h.takeHead hf
    obtain ⟨h1', h2', h3'⟩ := alloc_eq h.formed.count h0 hi
    refine ⟨s.takeHead f, hm ▸ href, ?_, ?_, ?_⟩
    · exact congrArg (Option.map Prod.snd) h1'
    · exact congrArg (Option.map Prod.snd) h2'
    · exact congrArg (Option.map Prod.snd) h3'

/-- A change of the counts on both levels. -/
theorem Refines.setRefCount (h : s.Refines m) {count count' : ℕ → ℕ} (hcount : count' = count) :
    Refines { s with refCount := count } { m with refCount := count' } := by
  obtain ⟨hform, hon⟩ := h.formed.setRefCount count
  exact ⟨hform, h.null, h.mem, hcount, h.pageCount, h.head, h.last, fun j hj => h.next j (hon j hj)⟩

/-- A release of the last reference, with the element of `free_page_end` off the list. -/
theorem Refines.linked (h : s.Refines m) (hend : ¬ s.EndOnList) (f : ℕ) :
    (s.linked f).Refines (Mm.addToFreePages { m with
      refCount := Function.update m.refCount f 0
      mem := Function.update m.mem f Bytes.zero } f) := by
  obtain ⟨hform, hon⟩ := h.formed.linked hend f
  refine ⟨hform, h.null, ?_, ?_, h.pageCount, h.head, h.last, fun j hj => ?_⟩
  · exact congrArg (Function.update · f Bytes.zero) h.mem
  · exact congrArg (Function.update · f 0) h.refCount
  · show (Mm.addToFreePages _ f).next j = s.indexOf (s.linkBehind (getViraddr (s.element f)) f j)
    simp only [Mm.addToFreePages, h.last]
    rcases s.linkBehind_cases (getViraddr (s.element f)) f j with ⟨rfl, heq⟩ | ⟨he, -⟩ | ⟨hjf, he, heq⟩
    · rw [heq, h.null, Function.update_self]
    · exact (hend ⟨j, deref_getViraddr.trans he, hon j hj⟩).elim
    · rw [heq, Function.update_of_ne hjf, ← h.next j (hon j hj)]
      cases hlast : s.indexOf s.freePageEnd with
      | none => rfl
      | some e =>
        have hje : j ≠ e := fun hje => he (hlast.trans (congrArg some hje.symm))
        exact Function.update_of_ne hje ..

/-- An action of the model by indices is one of the pointers, where it meets the condition. -/
theorem Refines.step (h : s.Refines u.mm) (hk : s.KeepsForm a) (hs : u.step a = some u') :
    ∃ s', s.step a = some s' ∧ s'.Refines u'.mm := by
  cases a with
  | pageAlloc =>
    obtain ⟨r, hr, rfl⟩ := Option.map_eq_some_iff.mp hs
    obtain ⟨s', href, hs', -, -⟩ := h.alloc (.inl hr)
    exact ⟨s', hs', href⟩
  | kmalloc =>
    obtain ⟨r, hr, rfl⟩ := Option.map_eq_some_iff.mp hs
    obtain ⟨s', href, -, hs', -⟩ := h.alloc (.inr (.inl hr))
    exact ⟨s', hs', href⟩
  | fetchFreePage =>
    obtain ⟨r, hr, rfl⟩ := Option.map_eq_some_iff.mp hs
    obtain ⟨s', href, -, -, hs'⟩ := h.alloc (.inr (.inr hr))
    exact ⟨s', hs', href⟩
  | freePage f =>
    simp only [AllocSys.step, Option.ite_none_right_eq_some, Option.some.injEq] at hs
    obtain ⟨⟨hf, -⟩, rfl⟩ := hs
    rw [h.pageCount] at hf
    have hc := h.formed.count
    have hstep : s.step (.freePage f) = s.freePage (Nascent.convertVA f) := if_pos hf
    show ∃ s' : PageMem, _ ∧ s'.Refines (u.mm.freePage (Nascent.convertVA f))
    rw [hstep]
    rcases Nat.lt_or_ge 1 (s.refCount f) with hr | hr
    · rw [freePage_of_shared hc hf hr, Mm.freePage_of_shared (by omega) (h.refCount ▸ hr)]
      exact ⟨_, rfl, h.setRefCount (by rw [h.refCount])⟩
    · rw [freePage_of_last hc hf hr, Mm.freePage_of_last (by omega) (h.refCount ▸ hr)]
      exact ⟨_, rfl, h.linked (hk.resolve_left (Nat.not_lt.mpr hr)) f⟩
  | incRef f =>
    simp only [AllocSys.step, Option.ite_none_right_eq_some, Option.some.injEq] at hs
    obtain ⟨⟨hf, -⟩, rfl⟩ := hs
    rw [h.pageCount] at hf
    exact ⟨_, if_pos hf, h.setRefCount (by rw [h.refCount])⟩

end Refines

/-- The model by indices is right for the runs that meet the condition, where the array does not hold
the address NULL: each of its runs is a run of the pointers, through the same lists, counts, and frames. -/
theorem run_refines (s : PageMem) {physfree memEnd : Word} {smaps : List Smap}
    (hnull : (s.unlisted physfree memEnd).indexOf 0 = none) :
    ∃ mm, ∀ ops u, Along step KeepsForm (s.boot physfree smaps memEnd) ops →
      run AllocSys.step (AllocSys.boot mm physfree smaps memEnd) ops = some u →
      ∃ t, run step (s.boot physfree smaps memEnd) ops = some t ∧ t.Refines u.mm := by
  obtain ⟨mm, href⟩ := refines_boot s smaps hnull
  refine ⟨mm, fun ops u hk hu => ?_⟩
  refine Runs.run_simulates (R := fun u s => Refines s u.mm) ?_ href
    (Runs.along_of_forall fun _ _ => trivial) hk hu
  exact fun u s a u' h _ hk hs => h.step hk hs

end PageMem

end Nascent
