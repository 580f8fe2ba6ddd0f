import Nascent.Cow.Exact

/-!
# What the operations do to the views

One lemma for each operation of the system: it keeps the counts exact, and its effect on the views
is the one that it would have if no page were shared. A write to a page (`Exact.writeByte`) is where
the sharing shows: the entry must have the write bit, so the frame has no other reference.
-/

namespace Nascent

open Bytes (Byte Block)

namespace Mm

variable {s s' : Mm} {roots : Finset ℕ} {held : ℕ → ℕ} {c f g n r : ℕ} {v w : VPage} {e va : Word}

namespace Exact

variable (h : s.Exact roots held)

include h

omit h in
/-- A page with an entry has a page table. -/
theorem exists_table (he : s.leaf r v = some e) : ∃ t, s.table r v.dir = some t := by
  rw [leaf] at he
  obtain ⟨t, ht, -⟩ := Option.bind_eq_some_iff.mp he
  exact ⟨t, ht⟩

/-- An allocation, and the contents of the frame. -/
theorem alloc (data : Block) (hg : s.freePageHead = some g) :
    ∃ s₁, (s.takeHead g (convertVA g)).setBlock g data = s₁ ∧
      s₁.Exact roots (Function.update held g 1) ∧ SameViews s s₁ roots ∧
      s₁.Loose roots (Function.update held g 1) g ∧ s₁.mem g = data ∧
      (∀ f, s.refCount f ≠ 0 → s₁.refCount f = s.refCount f) ∧
      ∀ n ∈ roots, ∀ v : VPage, v.InUser → s₁.leaf n v = s.leaf n v := by
  obtain ⟨hgrown, hloose⟩ := h.account.grown_alloc hg
  obtain ⟨h₁, hv₁⟩ := h.grown hgrown
  obtain ⟨hv₂, hloose₂⟩ := hloose.setBlock (b := data)
  exact ⟨_, rfl, h₁.setBlock hloose.not_isTable, hv₁.trans hv₂, hloose₂, Function.update_self ..,
    fun f hf => (hgrown.used f hf).1,
    fun n hn v hv => (leaf_setBlock hloose.not_isTable hn hv).trans (hgrown.leaf n hn v hv)⟩

/-- `set_mapping` of a loose frame at a page without an entry. -/
theorem setMapping_loose (hr : r ∈ roots) (hv : (vpage va).InUser)
    (hnone : s.leaf r (vpage va) = none) (hloose : s.Loose roots held g)
    (hs : s.setMapping (convertVA r) va (getPA g) 7 = some s') :
    ∃ held', s'.Exact roots held' ∧ SetsView s s' roots r (vpage va) (some (s.mem g)) ∧
      ∃ e, s'.leaf r (vpage va) = some e ∧ writable e = true := by
  have hframe : frameOf (getPA g ||| 7) = g := by
    rw [frameOf_or (by decide), frameOf_getPA (h.account.lt_two_pow hloose.lt)]
  obtain ⟨s₁, held₁, t, hgrown, hw, rfl⟩ := h.account.setMapping hr hv hs
  obtain ⟨h₁, hv₁⟩ := h.grown hgrown
  obtain ⟨hloose₁, hmem₁⟩ := hloose.grown h.account hgrown
  rw [← hframe] at hloose₁
  obtain ⟨h₂, hv₂⟩ := h₁.mapPage hr hv hw ((hgrown.leaf r hr _ hv).trans hnone)
    (present_or_seven _) hloose₁
  rw [hframe, hmem₁] at hv₂
  refine ⟨_, h₂, hv₁.sets hv₂, getPA g ||| 7, ?_, ?_⟩
  · rw [h₁.account.leaf_setEntry hr hv hw hr hv, if_pos ⟨rfl, rfl⟩, present?, if_pos (present_or_seven _)]
  · rw [writable_eq]
    simp

/-- A fresh frame is mapped at a page without an entry. -/
theorem mapFresh {data : Block} (hr : r ∈ roots) (hv : (vpage va).InUser)
    (hnone : s.leaf r (vpage va) = none) (hs : s.mapFresh (convertVA r) va data = some s') :
    ∃ held', s'.Exact roots held' ∧ SetsView s s' roots r (vpage va) (some data) ∧
      ∃ e, s'.leaf r (vpage va) = some e ∧ writable e = true := by
  cases hg : s.freePageHead with
  | none =>
    have : s.kmalloc = none := by simp [kmalloc, hg]
    simp [Mm.mapFresh, this] at hs
  | some g =>
    have hb := h.account.lt_two_pow (h.account.head hg).1
    simp only [Mm.mapFresh, (alloc_eq hg).2.1, frameOf_getPA hb, Option.bind_eq_bind,
      Option.bind_some] at hs
    obtain ⟨s₁, hs₁, h₁, hv₁, hloose, hmem, -, hleaf⟩ := h.alloc data hg
    rw [hs₁] at hs
    obtain ⟨held', h', hv', hwr⟩ :=
      h₁.setMapping_loose hr hv ((hleaf r hr _ hv).trans hnone) hloose hs
    rw [hmem] at hv'
    exact ⟨held', h', hv₁.sets hv', hwr⟩

/-- `page_fault_handler` with error code 7 changes no view, and makes a present page writable. -/
theorem cowFault (hr : r ∈ roots) (hv : (vpage va).InUser)
    (hs : s.cowFault (convertVA r) va = some s') :
    ∃ held', s'.Exact roots held' ∧ SameViews s s' roots ∧
      (s.leaf r (vpage va) ≠ none → ∃ e, s'.leaf r (vpage va) = some e ∧ writable e = true) := by
  rw [Mm.cowFault, getPteEntry_eq (h.account.root_lt hr)] at hs
  cases he : s.leaf r (vpage va) with
  | none =>
    simp only [he, Option.some.injEq] at hs
    subst hs
    exact ⟨held, h, fun _ _ _ _ => rfl, fun hne => (hne rfl).elim⟩
  | some e =>
    simp only [he, getPageFromPA_eq] at hs
    split_ifs at hs with h1 h2
    · -- The frame has one reference: the entry gets the write bit.
      obtain ⟨s₁, held₁, t, hgrown, hw, rfl⟩ := h.account.setMapping hr hv hs
      obtain ⟨h₁, hv₁⟩ := h.grown hgrown
      have he₁ := (hgrown.leaf r hr _ hv).trans he
      have hrc := (hgrown.used _ (h.account.refCount_leaf_ne hr hv he)).1.trans h1
      obtain ⟨h₂, hv₂⟩ := h₁.remap hr hv hw _ he₁ (present_ownEntry e) (frameOf_ownEntry e)
        fun _ => hrc
      refine ⟨_, h₂, hv₁.trans hv₂, fun _ => ⟨ownEntry e, ?_, writable_ownEntry e⟩⟩
      refine (h₁.account.leaf_setEntry hr hv hw hr hv).trans ?_
      rw [if_pos ⟨rfl, rfl⟩, present?]
      exact if_pos (present_ownEntry e)
    · -- The frame is shared: the page moves to a copy.
      cases hg : s.freePageHead with
      | none =>
        have : s.pageAlloc = none := by simp [pageAlloc, hg]
        simp [this] at hs
      | some g =>
        have hb := h.account.lt_two_pow (h.account.head hg).1
        simp only [(alloc_eq hg).1, kframe_convertVA hb, convertVA_sub_kernBase, Option.bind_eq_bind,
          Option.bind_some, Option.bind_eq_some_iff, Option.some.injEq] at hs
        obtain ⟨s₂, hs₂, rfl⟩ := hs
        have hcopy : (s.takeHead g (convertVA g)).mem (frameOf e) = s.mem (frameOf e) := by
          have hne : frameOf e ≠ g := fun hc => by
            have := (h.account.head hg).2.1
            rw [hc] at h2
            omega
          rw [takeHead_eq hb]
          exact Function.update_of_ne hne ..
        rw [hcopy] at hs₂
        obtain ⟨s₁, hs₁, h₁, hv₁, hloose, hmem, hrc, hleaf⟩ := h.alloc (s.mem (frameOf e)) hg
        rw [hs₁] at hs₂
        obtain ⟨s₃, held₃, t, hgrown, hw, rfl⟩ := h₁.account.setMapping hr hv hs₂
        obtain ⟨h₃, hv₃⟩ := h₁.grown hgrown
        obtain ⟨hloose₃, hmem₃⟩ := hloose.grown h₁.account hgrown
        have he₁ := (hleaf r hr _ hv).trans he
        have he₃ := (hgrown.leaf r hr _ hv).trans he₁
        have hrc₃ := (hgrown.used _ (h₁.account.refCount_leaf_ne hr hv he₁)).1.trans
          (hrc _ (h.account.refCount_leaf_ne hr hv he))
        have hframe : frameOf (getPA g ||| 7) = g := by
          rw [frameOf_or (by decide), frameOf_getPA hb]
        -- The view of the page has not changed yet, so the copy is a copy of its frame.
        have hsrc : s₃.mem (frameOf e) = s.mem (frameOf e) := by
          have hview := (hv₁.trans hv₃) r hr _ hv
          rw [view, view, he₃, he, Option.map_some, Option.map_some] at hview
          exact Option.some.inj hview
        obtain ⟨h₄, hv₄⟩ := h₃.movePage hr hv hw he₃ (hrc₃ ▸ h2) (present_or_seven (getPA g))
          (hframe.symm ▸ hloose₃) (by rw [hframe, hmem₃, hmem, hsrc])
        refine ⟨_, h₄, (hv₁.trans hv₃).trans hv₄, fun _ => ⟨getPA g ||| 7, ?_, ?_⟩⟩
        · refine (h₃.account.leaf_setEntry hr hv hw hr hv).trans ?_
          rw [if_pos ⟨rfl, rfl⟩, present?, if_pos (present_or_seven _)]
        · rw [writable_eq]
          simp
    · -- A mapped frame has a positive count.
      have := h.account.refCount_leaf_ne hr hv he
      omega

/-- One page of `fork_process`: the child sees at the page what the parent does. -/
theorem forkPage (hr : r ∈ roots) (hc : c ∈ roots) (hv : (vpage va).InUser)
    (hnone : s.view c (vpage va) = none)
    (hs : s.forkPage (convertVA r) (convertVA c) va = some s') :
    ∃ held', s'.Exact roots held' ∧ SetsView s s' roots c (vpage va) (s.view r (vpage va)) := by
  rw [Mm.forkPage, getPteEntry_eq (h.account.root_lt hr)] at hs
  cases he : s.leaf r (vpage va) with
  | none =>
    simp only [he, Option.some.injEq] at hs
    subst hs
    refine ⟨held, h, ?_, fun _ _ _ _ _ => rfl⟩
    rw [hnone, view, he, Option.map_none]
  | some e =>
    simp only [he, getPageFromPA_eq, Option.bind_eq_bind, Option.bind_eq_some_iff,
      Option.some.injEq] at hs
    obtain ⟨s₂, hs₂, s₄, hs₄, rfl⟩ := hs
    have hpres : present e = true := by
      obtain ⟨t, ht⟩ := exists_table he
      rw [leaf, ht, Option.bind_some, present?] at he
      split_ifs at he with hp
      exact Option.some.inj he ▸ hp
    -- The parent's entry loses the write bit.
    obtain ⟨s₁, held₁, t, hgrown, hw, rfl⟩ := h.account.setMapping hr hv hs₂
    obtain ⟨h₁, hv₁⟩ := h.grown hgrown
    have he₁ := (hgrown.leaf r hr _ hv).trans he
    obtain ⟨h₂, hv₂⟩ := h₁.remap hr hv hw (cowEntry e) he₁ (present_cowEntry hpres)
      (frameOf_cowEntry e) fun hwr => by
        rw [writable_cowEntry] at hwr
        cases hwr
    have hleaf₂ : ∀ n ∈ roots, ∀ w : VPage, w.InUser →
        (s₁.setEntry t (vpage va).pte (cowEntry e)).leaf n w =
        if n = r ∧ w = vpage va then present? (cowEntry e) else s₁.leaf n w :=
      fun n hn w hwu => h₁.account.leaf_setEntry hr hv hw hn hwu
    have he₂ : (s₁.setEntry t (vpage va).pte (cowEntry e)).leaf r (vpage va) = some (cowEntry e) := by
      rw [hleaf₂ r hr _ hv, if_pos ⟨rfl, rfl⟩, present?, if_pos (present_cowEntry hpres)]
    -- No entry that refers to the frame has the write bit now.
    have hro₂ : ∀ n ∈ roots, ∀ w : VPage, w.InUser → ∀ e',
        (s₁.setEntry t (vpage va).pte (cowEntry e)).leaf n w = some e' →
        frameOf e' = frameOf e → writable e' = false := by
      intro n hn w hwu e' he' hf
      rw [hleaf₂ n hn w hwu] at he'
      split_ifs at he' with hcase
      · rw [← present?_eq_some he', writable_cowEntry]
      · by_contra hwr
        rw [Bool.not_eq_false] at hwr
        have h1 := h₁.exclusive n hn w hwu e' he' hwr
        exact hcase (h₁.eq_of_refCount_one hr hv he₁ (hf ▸ h1) hn hwu he' hf)
    -- The child gets the same entry, and the count goes up.
    change (s₁.setEntry t (vpage va).pte (cowEntry e)).setMapping (convertVA c) va _ _ = _ at hs₄
    obtain ⟨s₃, held₃, tc, hgrown₃, hw₃, rfl⟩ := h₂.account.setMapping hc hv hs₄
    obtain ⟨h₃, hv₃⟩ := h₂.grown hgrown₃
    have hview₃ := (hv₁.trans hv₂).trans hv₃
    have he₃ := (hgrown₃.leaf r hr _ hv).trans he₂
    have hnone₃ : s₃.leaf c (vpage va) = none := by
      have := hview₃ c hc _ hv
      rw [hnone, view, Option.map_eq_none_iff] at this
      exact this
    have hframe := frameOf_cowEntry e
    obtain ⟨h₄, hv₄⟩ := h₃.sharePage (e := cowEntry e) hc hv hw₃ hnone₃ (present_cowEntry hpres)
      (writable_cowEntry e) (leafCount_pos hr hv he₃) fun n hn w hwu e' he' hf =>
        hro₂ n hn w hwu e' ((hgrown₃.leaf n hn w hwu).symm.trans he') (hf.trans hframe)
    have hpage : some (s₃.mem (frameOf (cowEntry e))) = s.view r (vpage va) := by
      rw [← hview₃ r hr _ hv, view, he₃, Option.map_some]
    rw [hpage, hframe] at hv₄
    rw [hframe] at h₄
    exact ⟨_, h₄, hview₃.sets hv₄⟩

/-- A write to a present, writable page changes the view of this page only. -/
theorem writeByte {b : Byte} (hr : r ∈ roots) (hs : s.writeByte (convertVA r) va b = some s') :
    s'.Exact roots held ∧ (vpage va).InUser ∧ ∃ blk, s.view r (vpage va) = some blk ∧
      SetsView s s' roots r (vpage va) (some (Function.update blk (pageOff va) b)) := by
  rw [Mm.writeByte, getPteEntry_eq (h.account.root_lt hr)] at hs
  cases he : s.leaf r (vpage va) with
  | none => simp [he] at hs
  | some e =>
    simp only [he, Option.ite_none_right_eq_some, Option.some.injEq] at hs
    obtain ⟨⟨hwr, hv⟩, rfl⟩ := hs
    have h1 := h.exclusive r hr _ hv e he hwr
    have hnot := h.account.not_isTable hr hv he
    have hleaf : ∀ n ∈ roots, ∀ w : VPage, w.InUser →
        (s.setByte (frameOf e) (pageOff va) b).leaf n w = s.leaf n w := fun n hn w hwu =>
      leaf_setBlock hnot hn hwu
    refine ⟨h.setBlock hnot, hv, s.mem (frameOf e), ?_, ?_, fun n hn w hwu hne => ?_⟩
    · rw [view, he, Option.map_some]
    · rw [view, hleaf r hr _ hv, he, Option.map_some]
      exact congrArg some (Function.update_self ..)
    · -- The frame is mapped nowhere else.
      refine view_congr (hleaf n hn w hwu) fun e' he' => Function.update_of_ne ?_ ..
      exact fun hf => hne (h.eq_of_refCount_one hr hv he h1 hn hwu he' hf)

/-- `clear_mapping` empties one address space. -/
theorem clearMapping (hr : r ∈ roots) :
    ∃ held', (s.clearMapping (convertVA r)).Exact roots held' ∧
      ∀ n ∈ roots, ∀ w : VPage, w.InUser → (s.clearMapping (convertVA r)).view n w =
        if n = r then none else s.view n w := by
  have hp := h.account.clearMapping hr
  generalize s.clearMapping (convertVA r) = s' at hp
  obtain ⟨held', ha, hheld⟩ := hp.account
  have hleaf : ∀ n ∈ roots, ∀ w : VPage, w.InUser →
      s'.leaf n w = if n = r then none else s.leaf n w := by
    intro n hn w hwu
    split_ifs with hnr
    · rw [hnr]
      exact hp.leaf_gone w hwu (by simp [VPage.path])
    · exact hp.leaf_kept n hn w hwu fun hc => hnr hc.1
  -- What is still mapped was mapped before.
  have hold : ∀ n ∈ roots, ∀ w : VPage, w.InUser → ∀ e, s'.leaf n w = some e →
      n ≠ r ∧ s.leaf n w = some e := by
    intro n hn w hwu e he
    rw [hleaf n hn w hwu] at he
    split_ifs at he with hnr
    exact ⟨hnr, he⟩
  have hused : ∀ n ∈ roots, ∀ w : VPage, w.InUser → ∀ e, s'.leaf n w = some e →
      s'.refCount (frameOf e) ≠ 0 := by
    intro n hn w hwu e he
    have := ha.count _ (ha.frameOf_leaf_lt hn hwu he)
    have := leafCount_pos hn hwu he
    omega
  refine ⟨held', ⟨ha, fun f hf => ?_, fun n hn w hwu e he hwr => ?_⟩, fun n hn w hwu => ?_⟩
  · obtain ⟨n, w, e, hn, hwu, he, rfl⟩ := exists_of_leafCount_pos hf
    obtain ⟨-, he'⟩ := hold n hn w hwu e he
    rw [hheld _ (h.account.not_isTable hn hwu he')]
    exact h.unheld _ (leafCount_pos hn hwu he')
  · obtain ⟨-, he'⟩ := hold n hn w hwu e he
    have h1 := h.exclusive n hn w hwu e he' hwr
    have h2 := hp.refCount_le (frameOf e)
    have h3 := hused n hn w hwu e he
    omega
  · by_cases hnr : n = r
    · rw [if_pos hnr, view, hleaf n hn w hwu, if_pos hnr, Option.map_none]
    · rw [if_neg hnr]
      have hsame : s'.leaf n w = s.leaf n w := (hleaf n hn w hwu).trans (if_neg hnr)
      exact view_congr hsame fun e he => hp.mem_of_used (h.account.not_isTable hn hwu he)
        (hused n hn w hwu e (hsame.trans he))

/-- A fresh PML4 is a new, empty address space. -/
theorem newPml (hg : s.freePageHead = some g) :
    (s.newPml g e).Exact (insert g roots) (Function.update held g 1) ∧
      SameViews s (s.newPml g e) roots ∧
      ∀ v : VPage, v.InUser → (s.newPml g e).view g v = none := by
  obtain ⟨hlt, h0, -⟩ := h.account.head hg
  have hb := h.account.lt_two_pow hlt
  have hleafg := fun (w : VPage) (hwu : w.InUser) => leaf_newPml_self (s := s) (e := e) hb hwu
  have hleaf := fun n (hn : n ∈ roots) (w : VPage) (hwu : w.InUser) =>
    h.account.leaf_newPml (e := e) hg hn hwu
  -- What is mapped was mapped before, and its frame is not the fresh one.
  have hold : ∀ n ∈ insert g roots, ∀ w : VPage, w.InUser →
      ∀ e', (s.newPml g e).leaf n w = some e' →
      n ∈ roots ∧ s.leaf n w = some e' ∧ frameOf e' ≠ g := by
    intro n hn w hwu e' he'
    rcases Finset.mem_insert.mp hn with rfl | hn
    · rw [hleafg w hwu] at he'
      cases he'
    · rw [hleaf n hn w hwu] at he'
      exact ⟨hn, he', fun hc => h.account.refCount_leaf_ne hn hwu he' (hc ▸ h0)⟩
  refine ⟨⟨h.account.newPml hg, fun f hf => ?_, fun n hn w hwu e' he' hwr => ?_⟩,
    fun n hn w hwu => ?_, fun v hv => ?_⟩
  · obtain ⟨n, w, e', hn, hwu, he', rfl⟩ := exists_of_leafCount_pos hf
    obtain ⟨hn', he, hne⟩ := hold n hn w hwu e' he'
    rw [Function.update_of_ne hne]
    exact h.unheld _ (leafCount_pos hn' hwu he)
  · obtain ⟨hn', he, hne⟩ := hold n hn w hwu e' he'
    rw [refCount_newPml hb, Function.update_of_ne hne]
    exact h.exclusive n hn' w hwu e' he hwr
  · refine view_congr (hleaf n hn w hwu) fun e' he' => mem_newPml_of_ne hb ?_
    exact (hold n (Finset.mem_insert_of_mem hn) w hwu e' ((hleaf n hn w hwu).trans he')).2.2
  · rw [view, hleafg v hv, Option.map_none]

/-- The memory part of `fetch_free_pcb` gives a new, empty address space. -/
theorem fetchFreePcb {pml : Word} (hs : s.fetchFreePcb = some (pml, s')) :
    ∃ g held', pml = convertVA g ∧ g < 2^52 ∧ g ∉ roots ∧ s'.Exact (insert g roots) held' ∧
      SameViews s s' roots ∧ ∀ v : VPage, v.InUser → s'.view g v = none := by
  rw [Mm.fetchFreePcb] at hs
  simp only [Option.bind_eq_bind, Option.bind_eq_some_iff, Prod.exists] at hs
  obtain ⟨mm, s₁, hs₁, hs⟩ := hs
  -- The page of the `mm_struct`.
  cases hg₁ : s.freePageHead with
  | none => simp [pageAlloc, hg₁] at hs₁
  | some g₁ =>
    rw [(alloc_eq hg₁).1] at hs₁
    obtain ⟨-, rfl⟩ := Prod.mk.inj (Option.some.inj hs₁)
    obtain ⟨h₁, hv₁⟩ := h.grown (h.account.grown_alloc hg₁).1
    generalize s.takeHead g₁ (convertVA g₁) = s₁ at *
    -- The PML4.
    cases hg : s₁.freePageHead with
    | none => simp [createNewPmlTable, pageAlloc, hg] at hs
    | some g =>
      have hlt := (h₁.account.head hg).1
      have hb := h₁.account.lt_two_pow hlt
      rw [createNewPmlTable_eq hg hb] at hs
      obtain ⟨rfl, rfl⟩ := Prod.mk.inj (Option.some.inj hs)
      obtain ⟨h', hv', hnew⟩ := h₁.newPml hg
      exact ⟨g, _, rfl, hb, h₁.account.notMem_roots hg, h', hv₁.trans hv', hnew⟩

end Exact

end Mm

end Nascent
