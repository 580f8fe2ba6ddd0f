import Nascent.Cow.Model
import Nascent.Virmem.Mapping
import Nascent.Virmem.Teardown

/-!
# Exact reference counts

`Exact` is the invariant of shared pages, on top of the account of references: the kernel holds no
reference to a mapped frame, so `ref_count` is the number of entries that refer to it, and an entry
with the write bit is the only reference to its frame. `view` is what a process sees at a page.
Each operation below keeps `Exact`, and is described by its effect on the views, which do not show
what is shared.
-/

namespace Nascent

open Bytes (Byte Block)

/-! ## The bits of an entry -/

/-- A mask that keeps the bits of the frame number keeps the frame. -/
theorem frameOf_and {e m : Word} (hm : m >>> 12 = 0xFFFFFFFFFFFFF#64) :
    frameOf (e &&& m) = frameOf e := by
  have hlt := frameOf_lt e
  rw [frameOf, BitVec.ushiftRight_and_distrib, hm, BitVec.toNat_and]
  have hmod := Nat.and_two_pow_sub_one_eq_mod (e >>> 12).toNat 52
  refine hmod.trans (Nat.mod_eq_of_lt hlt)

/-- The entry that `fork_process` makes of the entry of a page. -/
def cowEntry (e : Word) : Word := setCow (unsetWrite e) ||| 0

/-- The entry that a write to a page with one reference makes. -/
def ownEntry (e : Word) : Word := setWrite (unsetCow e) ||| 1

theorem frameOf_cowEntry (e : Word) : frameOf (cowEntry e) = frameOf e := by
  rw [cowEntry, Mm.frameOf_or (by decide), setCow, Mm.frameOf_or (by decide), unsetWrite,
    frameOf_and (by decide)]

theorem frameOf_ownEntry (e : Word) : frameOf (ownEntry e) = frameOf e := by
  rw [ownEntry, Mm.frameOf_or (by decide), setWrite, Mm.frameOf_or (by decide), unsetCow,
    frameOf_and (by decide)]

/-- A test of one bit. -/
theorem and_twoPow_bne_zero (e : Word) {k : ℕ} (hk : BitVec.twoPow 64 k ≠ 0) :
    (e &&& BitVec.twoPow 64 k != 0) = e.getLsbD k := by
  rw [BitVec.and_twoPow]
  cases e.getLsbD k with
  | false => rfl
  | true => exact bne_iff_ne.mpr hk

/-- The present bit is bit 0. -/
theorem present_eq (e : Word) : Mm.present e = e.getLsbD 0 :=
  and_twoPow_bne_zero e (k := 0) (by decide)

/-- The write bit is bit 1. -/
theorem writable_eq (e : Word) : writable e = e.getLsbD 1 :=
  and_twoPow_bne_zero e (k := 1) (by decide)

theorem present_cowEntry {e : Word} (h : Mm.present e = true) : Mm.present (cowEntry e) = true := by
  rw [present_eq] at h ⊢
  simp [cowEntry, setCow, unsetWrite, h]

theorem writable_cowEntry (e : Word) : writable (cowEntry e) = false := by
  rw [writable_eq]
  simp [cowEntry, setCow, unsetWrite]

theorem present_ownEntry (e : Word) : Mm.present (ownEntry e) = true := by
  rw [present_eq]
  simp [ownEntry, setWrite, unsetCow]

theorem writable_ownEntry (e : Word) : writable (ownEntry e) = true := by
  rw [writable_eq]
  simp [ownEntry, setWrite, unsetCow]

namespace Mm

variable {s s' s₁ : Mm} {roots : Finset ℕ} {held held₁ : ℕ → ℕ} {f g n r t : ℕ} {v w : VPage}
  {e va : Word}

/-- What the address space in frame `r` has at a page. -/
def view (s : Mm) (r : ℕ) (v : VPage) : Option Block := (s.leaf r v).map fun e => s.mem (frameOf e)

/-- The counts of mapped frames are exact, and an entry with the write bit is the only one that
refers to its frame. -/
structure Exact (s : Mm) (roots : Finset ℕ) (held : ℕ → ℕ) : Prop where
  /-- The account balances. -/
  account : s.Accounted roots held
  /-- The kernel holds no reference to a mapped frame. -/
  unheld : ∀ f, 0 < s.leafCount roots f → held f = 0
  /-- A writable page is not shared. -/
  exclusive : ∀ n ∈ roots, ∀ v : VPage, v.InUser → ∀ e, s.leaf n v = some e →
    writable e = true → s.refCount (frameOf e) = 1

/-- The views of the user halves are the same. -/
def SameViews (s s' : Mm) (roots : Finset ℕ) : Prop :=
  ∀ n ∈ roots, ∀ v : VPage, v.InUser → s'.view n v = s.view n v

/-- The views of the user halves are the same but for one page. -/
def SetsView (s s' : Mm) (roots : Finset ℕ) (r : ℕ) (v : VPage) (b : Option Block) : Prop :=
  s'.view r v = b ∧ ∀ n ∈ roots, ∀ w : VPage, w.InUser → ¬ (n = r ∧ w = v) →
    s'.view n w = s.view n w

theorem SameViews.trans (h₁ : SameViews s s₁ roots) (h₂ : SameViews s₁ s' roots) :
    SameViews s s' roots := fun n hn v hv => (h₂ n hn v hv).trans (h₁ n hn v hv)

theorem SameViews.sets {b : Option Block} (h₁ : SameViews s s₁ roots)
    (h₂ : SetsView s₁ s' roots r v b) : SetsView s s' roots r v b :=
  ⟨h₂.1, fun n hn w hw hne => (h₂.2 n hn w hw hne).trans (h₁ n hn w hw)⟩

/-- The view of a page does not change where its entry and the contents of its frame do not. -/
theorem view_congr (hleaf : s'.leaf n v = s.leaf n v)
    (hmem : ∀ e, s.leaf n v = some e → s'.mem (frameOf e) = s.mem (frameOf e)) :
    s'.view n v = s.view n v := by
  rw [view, view, hleaf]
  cases he : s.leaf n v with
  | none => rfl
  | some e => rw [Option.map_some, Option.map_some, hmem e he]

/-- The contents of a loose frame do not matter. -/
theorem Loose.setBlock {b : Block} (hloose : s.Loose roots held f) :
    SameViews s (s.setBlock f b) roots ∧ (s.setBlock f b).Loose roots held f := by
  obtain ⟨hlt, hnot, hheld, h0⟩ := hloose
  refine ⟨fun n hn v hv => ?_, hlt, fun ht => hnot ((isTable_setBlock hnot).mp ht), hheld,
    (leafCount_congr fun n hn v hv => leaf_setBlock hnot hn hv).trans h0⟩
  refine view_congr (leaf_setBlock hnot hn hv) fun e he => Function.update_of_ne ?_ ..
  intro hef
  have hpos := leafCount_pos hn hv he
  rw [hef, h0] at hpos
  exact absurd hpos (Nat.lt_irrefl 0)

namespace Accounted

variable (h : s.Accounted roots held)

include h

/-- A mapped frame is in use. -/
theorem refCount_leaf_ne (hn : n ∈ roots) (hv : v.InUser) (he : s.leaf n v = some e) :
    s.refCount (frameOf e) ≠ 0 := by
  have hpos := leafCount_pos hn hv he
  have hcount := h.count _ (h.leaf_lt _ hpos)
  omega

/-- Allocations, some of them as tables, keep the views. -/
theorem sameViews_grown (hg : s.Grown roots held s₁ held₁) : SameViews s s₁ roots :=
  fun n hn v hv => view_congr (hg.leaf n hn v hv) fun _ he =>
    hg.mem _ (h.refCount_leaf_ne hn hv he) (h.not_isTable hn hv he)

section Entry

variable (hr : r ∈ roots) (hv : v.InUser) (hw : s.table r v.dir = some t)

include hr hv hw

/-- The entries after the entry of a page is written. -/
theorem leaf_setEntry (hn : n ∈ roots) (hwu : w.InUser) :
    (s.setEntry t v.pte e).leaf n w = if n = r ∧ w = v then present? e else s.leaf n w :=
  leaf_setLeaf (positions_user roots) h.separate (user_dir hr hv) hw (user_dir hn hwu)

/-- The views after the entry of a page is written. -/
theorem setsView_setEntry (hp : present e = true) (hnot : ¬ s.IsTable (User roots) (frameOf e)) :
    SetsView s (s.setEntry t v.pte e) roots r v (some (s.mem (frameOf e))) := by
  have ht : s.IsTable (User roots) t := ⟨r, v.dir, user_dir hr hv, hw⟩
  refine ⟨?_, fun n hn w hwu hne => ?_⟩
  · have het : frameOf e ≠ t := fun het => hnot (het ▸ ht)
    rw [view, h.leaf_setEntry hr hv hw hr hv, if_pos ⟨rfl, rfl⟩, present?, if_pos hp, Option.map_some]
    exact congrArg some (Function.update_of_ne het ..)
  · refine view_congr ?_ fun e' he' => Function.update_of_ne ?_ ..
    · rw [h.leaf_setEntry hr hv hw hn hwu, if_neg hne]
    · exact fun het => h.not_isTable hn hwu he' (het ▸ ht)

end Entry

end Accounted

namespace Exact

variable (h : s.Exact roots held)

include h

/-- The count of a mapped frame is the number of entries that refer to it. -/
theorem refCount_eq (hf : 0 < s.leafCount roots f) : s.refCount f = s.leafCount roots f := by
  have := h.account.count f (h.account.leaf_lt f hf)
  have := h.unheld f hf
  omega

/-- A frame with one reference is mapped at one page only. -/
theorem eq_of_refCount_one {e' : Word} (hr : r ∈ roots) (hv : v.InUser) (he : s.leaf r v = some e)
    (h1 : s.refCount (frameOf e) = 1) (hn : n ∈ roots) (hw : w.InUser) (he' : s.leaf n w = some e')
    (hf : frameOf e' = frameOf e) : n = r ∧ w = v := by
  have hc : s.leafCount roots (frameOf e) = 1 :=
    (h.refCount_eq (leafCount_pos hr hv he)).symm.trans h1
  have heq := Count.eq_of_count_eq_one (r, v) (n, w) hc
    (Finset.mem_product.mpr ⟨hr, mem_userPages.mpr hv⟩) (by rw [leafFrame, he, Option.map_some])
    (Finset.mem_product.mpr ⟨hn, mem_userPages.mpr hw⟩)
    (by rw [leafFrame, he', Option.map_some, hf])
  exact Prod.mk.inj heq

/-- Allocations, some of them as tables, keep the counts exact and the views. -/
theorem grown (hg : s.Grown roots held s₁ held₁) :
    s₁.Exact roots held₁ ∧ SameViews s s₁ roots := by
  refine ⟨⟨hg.account, fun f hf => ?_, fun n hn v hv e he hwr => ?_⟩, h.account.sameViews_grown hg⟩
  · rw [hg.leafCount] at hf
    have h0 : s.refCount f ≠ 0 := by
      rw [h.refCount_eq hf]
      omega
    rw [(hg.used f h0).2]
    exact h.unheld f hf
  · rw [hg.leaf n hn v hv] at he
    rw [(hg.used _ (h.account.refCount_leaf_ne hn hv he)).1]
    exact h.exclusive n hn v hv e he hwr

/-- A write to a frame that is no table keeps the counts exact. -/
theorem setBlock {b : Block} (hnot : ¬ s.IsTable (User roots) f) : (s.setBlock f b).Exact roots held := by
  have hleaf := fun n (hn : n ∈ roots) (v : VPage) (hv : v.InUser) => leaf_setBlock (b := b) hnot hn hv
  refine ⟨h.account.setBlock hnot, fun f' hf' => ?_, fun n hn v hv e he hwr => ?_⟩
  · exact h.unheld f' (leafCount_congr hleaf ▸ hf')
  · rw [hleaf n hn v hv] at he
    exact h.exclusive n hn v hv e he hwr

/-! ## One entry -/

section Entry

variable (hr : r ∈ roots) (hv : v.InUser) (hw : s.table r v.dir = some t)

include hr hv hw

/-- A page gets a frame that the kernel holds, and to which nothing else refers. -/
theorem mapPage (hnone : s.leaf r v = none) (hp : present e = true)
    (hloose : s.Loose roots held (frameOf e)) :
    (s.setEntry t v.pte e).Exact roots (Function.update held (frameOf e) 0) ∧
      SetsView s (s.setEntry t v.pte e) roots r v (some (s.mem (frameOf e))) := by
  obtain ⟨hlt, hnot, hheld, h0⟩ := hloose
  have hframe : (present? e).map frameOf = some (frameOf e) := by
    rw [present?, if_pos hp, Option.map_some]
  have hold : s.leafFrame (r, v) = none := by rw [leafFrame, hnone, Option.map_none]
  have ha : (s.setEntry t v.pte e).Accounted roots (Function.update held (frameOf e) 0) := by
    refine h.account.setLeaf hr hv hw (fun f => ?_) fun f hf => ?_
    · rw [hframe, hold, if_neg (c := none = some f) (by simp)]
      by_cases hf : f = frameOf e
      · rw [hf, Function.update_self, if_pos rfl, hheld]
      · rw [Function.update_of_ne hf, if_neg fun hc => hf (Option.some.inj hc).symm]
    · rw [hframe] at hf
      obtain rfl := Option.some.inj hf
      exact ⟨hlt, hnot⟩
  have hrc : s.refCount (frameOf e) = 1 := by
    rw [h.account.count _ hlt, h0, hheld]
  refine ⟨⟨ha, fun f hf => ?_, fun n hn w hwu e' he' hwr => ?_⟩,
    h.account.setsView_setEntry hr hv hw hp hnot⟩
  · by_cases hfe : f = frameOf e
    · rw [hfe, Function.update_self]
    · -- Another frame is mapped where it was.
      rw [Function.update_of_ne hfe]
      obtain ⟨n, w, e', hn, hwu, he', rfl⟩ := exists_of_leafCount_pos hf
      rw [h.account.leaf_setEntry hr hv hw hn hwu] at he'
      split_ifs at he'
      · exact (hfe (congrArg frameOf (present?_eq_some he')).symm).elim
      · exact h.unheld _ (leafCount_pos hn hwu he')
  · rw [h.account.leaf_setEntry hr hv hw hn hwu] at he'
    split_ifs at he'
    · rw [← present?_eq_some he']
      exact hrc
    · exact h.exclusive n hn w hwu e' he' hwr

/-- A page gets another entry with the same frame, writable only where the frame is not shared. -/
theorem remap (e' : Word) (he : s.leaf r v = some e) (hp : present e' = true)
    (hf : frameOf e' = frameOf e) (hwr : writable e' = true → s.refCount (frameOf e) = 1) :
    (s.setEntry t v.pte e').Exact roots held ∧ SameViews s (s.setEntry t v.pte e') roots := by
  have hframe : (present? e').map frameOf = some (frameOf e) := by
    rw [present?, if_pos hp, Option.map_some, hf]
  have hold : s.leafFrame (r, v) = some (frameOf e) := by rw [leafFrame, he, Option.map_some]
  have hlt := h.account.frameOf_leaf_lt hr hv he
  have hnot := h.account.not_isTable hr hv he
  have ha : (s.setEntry t v.pte e').Accounted roots held := by
    refine h.account.setLeaf hr hv hw (fun f => by rw [hframe, hold]) fun f hf' => ?_
    rw [hframe] at hf'
    obtain rfl := Option.some.inj hf'
    exact ⟨hlt, hnot⟩
  refine ⟨⟨ha, fun f hf' => ?_, fun n hn w hwu e₁ he₁ hwr₁ => ?_⟩, fun n hn w hwu => ?_⟩
  · -- The same frames are mapped as before.
    obtain ⟨n, w, e₁, hn, hwu, he₁, rfl⟩ := exists_of_leafCount_pos hf'
    rw [h.account.leaf_setEntry hr hv hw hn hwu] at he₁
    split_ifs at he₁
    · rw [← present?_eq_some he₁, hf]
      exact h.unheld _ (leafCount_pos hr hv he)
    · exact h.unheld _ (leafCount_pos hn hwu he₁)
  · rw [h.account.leaf_setEntry hr hv hw hn hwu] at he₁
    split_ifs at he₁
    · obtain rfl := present?_eq_some he₁
      show s.refCount (frameOf e') = 1
      rw [hf]
      exact hwr hwr₁
    · exact h.exclusive n hn w hwu e₁ he₁ hwr₁
  · have hset := h.account.setsView_setEntry hr hv hw hp (hf.symm ▸ hnot)
    by_cases hc : n = r ∧ w = v
    · obtain ⟨rfl, rfl⟩ := hc
      rw [hset.1, view, he, Option.map_some, hf]
    · exact hset.2 n hn w hwu hc

/-- A page moves from a shared frame to a copy that the kernel holds, and to which nothing else
refers. -/
theorem movePage {e' : Word} (he : s.leaf r v = some e) (h2 : 1 < s.refCount (frameOf e))
    (hp : present e' = true) (hloose : s.Loose roots held (frameOf e'))
    (hcopy : s.mem (frameOf e') = s.mem (frameOf e)) :
    ((s.setEntry t v.pte e').setRef (frameOf e) (s.refCount (frameOf e) - 1)).Exact roots
        (Function.update held (frameOf e') 0) ∧
      SameViews s ((s.setEntry t v.pte e').setRef (frameOf e) (s.refCount (frameOf e) - 1))
        roots := by
  obtain ⟨hlt, hnot, hheld, h0⟩ := hloose
  have hpos := leafCount_pos hr hv he
  have hh0 := h.unheld _ hpos
  have hne : frameOf e ≠ frameOf e' := fun hc => by rw [← hc] at h0; omega
  have hframe : (present? e').map frameOf = some (frameOf e') := by
    rw [present?, if_pos hp, Option.map_some]
  have hold : s.leafFrame (r, v) = some (frameOf e) := by rw [leafFrame, he, Option.map_some]
  have hleaf : ∀ n ∈ roots, ∀ w : VPage, w.InUser → (s.setEntry t v.pte e').leaf n w =
      if n = r ∧ w = v then present? e' else s.leaf n w :=
    fun n hn w hwu => h.account.leaf_setEntry hr hv hw hn hwu
  -- The kernel takes over the reference to the shared frame, and drops it.
  have ha : (s.setEntry t v.pte e').Accounted roots
      (Function.update (Function.update held (frameOf e') 0) (frameOf e) 1) := by
    refine h.account.setLeaf hr hv hw (fun f => ?_) fun f hf => ?_
    · rw [hframe, hold]
      by_cases hf : f = frameOf e
      · rw [hf, Function.update_self, if_neg fun hc => hne (Option.some.inj hc).symm, if_pos rfl, hh0]
      · rw [Function.update_of_ne hf, if_neg (c := some (frameOf e) = some f)
          fun hc => hf (Option.some.inj hc).symm]
        by_cases hf' : f = frameOf e'
        · rw [hf', Function.update_self, if_pos rfl, hheld]
        · rw [Function.update_of_ne hf', if_neg fun hc => hf' (Option.some.inj hc).symm]
    · rw [hframe] at hf
      obtain rfl := Option.some.inj hf
      exact ⟨hlt, hnot⟩
  have hnotf : ¬ (s.setEntry t v.pte e').IsTable (User roots) (frameOf e) := by
    rintro ⟨n, p, hn, hm⟩
    rw [table_setLeaf (positions_user roots) h.account.separate (user_dir hr hv) hw hn] at hm
    exact h.account.not_isTable hr hv he ⟨n, p, hn, hm⟩
  have hdrop := ha.setRef (f := frameOf e) (n := s.refCount (frameOf e) - 1) (k := 0)
    (by
      show s.refCount (frameOf e) + 0 = _
      rw [Function.update_self]
      omega)
    (by
      show s.refCount (frameOf e) ≠ 0
      omega) hnotf
  have hheld' : Function.update (Function.update (Function.update held (frameOf e') 0) (frameOf e) 1)
      (frameOf e) 0 = Function.update held (frameOf e') 0 := by
    rw [Function.update_idem]
    refine Function.update_eq_self_iff.mpr ?_
    rw [Function.update_of_ne hne, hh0]
  rw [hheld'] at hdrop
  have hrc' : s.refCount (frameOf e') = 1 := by rw [h.account.count _ hlt, h0, hheld]
  refine ⟨⟨hdrop, fun f hf => ?_, fun n hn w hwu e₁ he₁ hwr₁ => ?_⟩, fun n hn w hwu => ?_⟩
  · by_cases hfe : f = frameOf e'
    · rw [hfe, Function.update_self]
    · rw [Function.update_of_ne hfe]
      obtain ⟨n, w, e₁, hn, hwu, he₁, rfl⟩ := exists_of_leafCount_pos hf
      have he₁ := (hleaf n hn w hwu).symm.trans he₁
      split_ifs at he₁
      · exact (hfe (congrArg frameOf (present?_eq_some he₁)).symm).elim
      · exact h.unheld _ (leafCount_pos hn hwu he₁)
  · have he₁ := (hleaf n hn w hwu).symm.trans he₁
    show Function.update s.refCount (frameOf e) _ (frameOf e₁) = 1
    split_ifs at he₁
    · rw [← present?_eq_some he₁, Function.update_of_ne hne.symm, hrc']
    · -- A writable entry does not refer to the shared frame.
      have h1 := h.exclusive n hn w hwu e₁ he₁ hwr₁
      have hne₁ : frameOf e₁ ≠ frameOf e := fun hc => by
        rw [hc] at h1
        omega
      rw [Function.update_of_ne hne₁, h1]
  · have hset := h.account.setsView_setEntry hr hv hw hp hnot
    by_cases hc : n = r ∧ w = v
    · obtain ⟨rfl, rfl⟩ := hc
      exact hset.1.trans (by rw [view, he, Option.map_some, hcopy])
    · exact hset.2 n hn w hwu hc

/-- A page gets a frame that is mapped elsewhere, by entries without the write bit, and the count of
the frame goes up. -/
theorem sharePage (hnone : s.leaf r v = none) (hp : present e = true) (hwr : writable e = false)
    (hpos : 0 < s.leafCount roots (frameOf e))
    (hro : ∀ n ∈ roots, ∀ w : VPage, w.InUser → ∀ e', s.leaf n w = some e' →
      frameOf e' = frameOf e → writable e' = false) :
    ((s.setEntry t v.pte e).setRef (frameOf e) (s.refCount (frameOf e) + 1)).Exact roots held ∧
      SetsView s ((s.setEntry t v.pte e).setRef (frameOf e) (s.refCount (frameOf e) + 1)) roots r v
        (some (s.mem (frameOf e))) := by
  have hlt := h.account.leaf_lt _ hpos
  have hh0 := h.unheld _ hpos
  have hnot : ¬ s.IsTable (User roots) (frameOf e) := fun ht => by
    have := h.account.leafCount_table ht
    omega
  have hframe : (present? e).map frameOf = some (frameOf e) := by
    rw [present?, if_pos hp, Option.map_some]
  have hold : s.leafFrame (r, v) = none := by rw [leafFrame, hnone, Option.map_none]
  -- The count may as well go up before the entry is written, with a reference for the kernel.
  have hinc := h.account.setRef (f := frameOf e) (n := s.refCount (frameOf e) + 1) (k := 1)
    (by omega) (by rw [h.refCount_eq hpos]; omega) hnot
  have ha : ((s.setEntry t v.pte e).setRef (frameOf e) (s.refCount (frameOf e) + 1)).Accounted
      roots held := by
    refine hinc.setLeaf hr hv hw (fun f => ?_) fun f hf => ?_
    · rw [hframe]
      show _ = _ + if s.leafFrame (r, v) = some f then 1 else 0
      rw [hold, if_neg (c := none = some f) (by simp)]
      by_cases hf : f = frameOf e
      · rw [hf, Function.update_self, if_pos rfl, hh0]
      · rw [Function.update_of_ne hf, if_neg fun hc => hf (Option.some.inj hc).symm]
    · rw [hframe] at hf
      obtain rfl := Option.some.inj hf
      exact ⟨hlt, hnot⟩
  have hleaf : ∀ n ∈ roots, ∀ w : VPage, w.InUser → (s.setEntry t v.pte e).leaf n w =
      if n = r ∧ w = v then present? e else s.leaf n w :=
    fun n hn w hwu => h.account.leaf_setEntry hr hv hw hn hwu
  refine ⟨⟨ha, fun f hf => ?_, fun n hn w hwu e₁ he₁ hwr₁ => ?_⟩,
    h.account.setsView_setEntry hr hv hw hp hnot⟩
  · obtain ⟨n, w, e₁, hn, hwu, he₁, rfl⟩ := exists_of_leafCount_pos hf
    have he₁ := (hleaf n hn w hwu).symm.trans he₁
    split_ifs at he₁
    · rw [← present?_eq_some he₁]
      exact hh0
    · exact h.unheld _ (leafCount_pos hn hwu he₁)
  · have he₁ := (hleaf n hn w hwu).symm.trans he₁
    show Function.update s.refCount (frameOf e) _ (frameOf e₁) = 1
    split_ifs at he₁
    · rw [← present?_eq_some he₁, hwr] at hwr₁
      cases hwr₁
    · have hne : frameOf e₁ ≠ frameOf e := fun hc => by
        rw [hro n hn w hwu e₁ he₁ hc] at hwr₁
        cases hwr₁
      rw [Function.update_of_ne hne]
      exact h.exclusive n hn w hwu e₁ he₁ hwr₁

end Entry

end Exact

end Mm

end Nascent
