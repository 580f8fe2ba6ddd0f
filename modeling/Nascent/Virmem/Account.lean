import Mathlib.Data.Finset.Prod
import Nascent.Lib.Count
import Nascent.Virmem.Write

/-!
# The account of references

A frame in use is referred to by entries of page tables and by the kernel itself, which holds the
page tables, the pages of `mm_struct`s, and frames that it has allocated and not mapped yet. The
account of a state says that `ref_count` is the sum of the two: `leafCount` is the number of
entries, over the user halves of all address spaces, and `held` says how many references the kernel
holds. `held` is not in the source: each operation below says what it does to it.

An address space is named by the frame of its PML4, and `roots` are the address spaces. The last
entry of a PML4, index 511, is the kernel's and is shared by all of them, so the account looks at
the other entries only (`User`).
-/

namespace Nascent

open Nascent.Count (count)

/-- The index of the kernel's entry in a PML4. -/
def kernelIdx : Idx := 511

/-- The positions of the tables of the user halves. -/
def User (roots : Finset ℕ) (n : ℕ) (p : List Idx) : Prop :=
  n ∈ roots ∧ p.length ≤ 3 ∧ p.head? ≠ some kernelIdx

theorem positions_user (roots : Finset ℕ) : Positions (User roots) where
  prefixClosed := by
    rintro n p q ⟨hn, hlen, hhead⟩
    refine ⟨hn, ?_, ?_⟩
    · rw [List.length_append] at hlen
      omega
    · cases p with
      | nil => simp
      | cons i p => simpa using hhead
  short := fun _ _ h => h.2.1

/-- The page lies in the user half. -/
def VPage.InUser (v : VPage) : Prop := v.pml4 ≠ kernelIdx

instance (v : VPage) : Decidable v.InUser := inferInstanceAs (Decidable (v.pml4 ≠ kernelIdx))

/-- The pages of the user half end 2^39 bytes before the next multiple of 2^48. -/
theorem inUser_iff {x : Word} : (vpage x).InUser ↔ x.toNat % 2^48 < 2^48 - 2^39 := by
  have hidx : (kernelIdx : ℕ) = 511 := rfl
  rw [VPage.InUser, vpage, ne_eq, Fin.ext_iff, vidx_val, hidx]
  omega

/-- The pages of the user half. They are too many to be listed by evaluation. -/
@[irreducible]
def userPages : Finset VPage := Finset.univ.filter VPage.InUser

variable {roots : Finset ℕ} {held held' : ℕ → ℕ} {f g r t : ℕ} {v : VPage} {i : Idx} {e : Word}
  {q : List Idx}

theorem mem_userPages : v ∈ userPages ↔ v.InUser := by
  unfold userPages
  exact Finset.mem_filter_univ v

theorem user_dir (hr : r ∈ roots) (hv : v.InUser) : User roots r v.dir :=
  ⟨hr, le_refl _, fun h => hv (Option.some.inj h)⟩

namespace Mm

variable {s s' : Mm}

/-- The count of a frame set to `n`. -/
def setRef (s : Mm) (f n : ℕ) : Mm := { s with refCount := Function.update s.refCount f n }

/-- The contents of a frame set to `b`. -/
def setBlock (s : Mm) (f : ℕ) (b : Bytes.Block) : Mm :=
  { s with mem := Function.update s.mem f b }

/-- The frame that the entry of a page in an address space refers to. -/
def leafFrame (s : Mm) (x : ℕ × VPage) : Option ℕ := (s.leaf x.1 x.2).map frameOf

/-- The number of entries in the user halves that refer to a frame. -/
def leafCount (s : Mm) (roots : Finset ℕ) (f : ℕ) : ℕ := count (roots ×ˢ userPages) s.leafFrame f

/-- The account of references. -/
structure Accounted (s : Mm) (roots : Finset ℕ) (held : ℕ → ℕ) : Prop where
  /-- The free list. -/
  free : ∃ l, s.FreeChain l
  /-- No table is reached in two ways. -/
  separate : s.Separate (User roots)
  /-- A reference count is the number of entries and of references that the kernel holds. -/
  count : ∀ f < s.pageCount, s.refCount f = s.leafCount roots f + held f
  /-- A table has one reference, which the kernel holds. -/
  table : ∀ t, s.IsTable (User roots) t → t < s.pageCount ∧ s.refCount t = 1 ∧ held t = 1
  /-- Entries refer to frames of the machine. -/
  leaf_lt : ∀ f, 0 < s.leafCount roots f → f < s.pageCount

/-- An entry of a user page counts. -/
theorem leafCount_pos (hr : r ∈ roots) (hv : v.InUser) (h : s.leaf r v = some e) :
    0 < s.leafCount roots (frameOf e) :=
  Count.count_pos.mpr ⟨(r, v), Finset.mem_product.mpr ⟨hr, mem_userPages.mpr hv⟩, by
    simp [leafFrame, h]⟩

/-- Only the entries of user pages count. -/
theorem exists_of_leafCount_pos (h : 0 < s.leafCount roots f) :
    ∃ r v e, r ∈ roots ∧ v.InUser ∧ s.leaf r v = some e ∧ frameOf e = f := by
  obtain ⟨⟨r, v⟩, hx, hf⟩ := Count.count_pos.mp h
  obtain ⟨hr, hv⟩ := Finset.mem_product.mp hx
  obtain ⟨e, he, hef⟩ := Option.map_eq_some_iff.mp hf
  exact ⟨r, v, e, hr, mem_userPages.mp hv, he, hef⟩

/-- The number of entries only depends on the entries of user pages. -/
theorem leafCount_congr (h : ∀ r ∈ roots, ∀ v : VPage, v.InUser → s'.leaf r v = s.leaf r v) :
    s'.leafCount roots f = s.leafCount roots f := by
  refine Count.count_congr ?_
  rintro ⟨r, v⟩ hx
  obtain ⟨hr, hv⟩ := Finset.mem_product.mp hx
  rw [leafFrame, leafFrame, h r hr v (mem_userPages.mp hv)]

/-- Without address spaces, the kernel holds everything. -/
theorem accounted_empty {l : List ℕ} (h : s.FreeChain l) : s.Accounted ∅ s.refCount := by
  have hleaf : ∀ f, s.leafCount ∅ f = 0 := fun f => by
    refine Count.count_eq_zero ?_
    rintro ⟨r, v⟩ hx
    exact absurd (Finset.mem_product.mp hx).1 (Finset.notMem_empty r)
  refine ⟨⟨l, h⟩, ?_, fun f _ => ?_, ?_, fun f hf => ?_⟩
  · intro n p n' p' t hn
    exact absurd hn.1 (Finset.notMem_empty n)
  · rw [hleaf, Nat.zero_add]
  · rintro t ⟨n, p, hn, -⟩
    exact absurd hn.1 (Finset.notMem_empty n)
  · rw [hleaf] at hf
    exact absurd hf (Nat.lt_irrefl 0)

/-- A write to a frame that is no table leaves the tables. -/
theorem tbl_setBlock {b : Bytes.Block} (hnot : ¬ s.IsTable (User roots) f) :
    ∀ m, s.IsTable (User roots) m → (s.setBlock f b).tbl m = s.tbl m := by
  intro m hm
  have hmf : m ≠ f := fun hmf => hnot (hmf ▸ hm)
  exact tbl_congr (Function.update_of_ne hmf ..)

/-- It keeps the entries of the user pages. -/
theorem leaf_setBlock {b : Bytes.Block} (hnot : ¬ s.IsTable (User roots) f) {n : ℕ} (hn : n ∈ roots)
    (hv : v.InUser) : (s.setBlock f b).leaf n v = s.leaf n v :=
  leaf_frame (positions_user roots) (tbl_setBlock hnot) (user_dir hn hv)

/-- It keeps the frames that are tables. -/
theorem isTable_setBlock {b : Bytes.Block} (hnot : ¬ s.IsTable (User roots) f) :
    (s.setBlock f b).IsTable (User roots) g ↔ s.IsTable (User roots) g :=
  isTable_frame (positions_user roots) (tbl_setBlock hnot)

namespace Accounted

variable (h : s.Accounted roots held)

include h

/-- Frames of the machine have physical addresses. -/
theorem lt_two_pow (hf : f < s.pageCount) : f < 2^52 := by
  obtain ⟨l, hl⟩ := h.free
  exact hl.lt_two_pow hf

/-- No entry refers to a table. -/
theorem leafCount_table (ht : s.IsTable (User roots) t) : s.leafCount roots t = 0 := by
  obtain ⟨hlt, hr, hh⟩ := h.table t ht
  have := h.count t hlt
  omega

/-- The frame of an entry is not a table. -/
theorem not_isTable (hr : r ∈ roots) (hv : v.InUser) (hl : s.leaf r v = some e) :
    ¬ s.IsTable (User roots) (frameOf e) := fun ht => by
  have h1 := leafCount_pos hr hv hl
  have h2 := h.leafCount_table ht
  omega

/-- The frame of an entry is a frame of the machine. -/
theorem frameOf_leaf_lt (hr : r ∈ roots) (hv : v.InUser) (hl : s.leaf r v = some e) :
    frameOf e < s.pageCount := h.leaf_lt _ (leafCount_pos hr hv hl)

/-- A frame with a count of 0 is not referred to at all. -/
theorem of_refCount_zero (hf : f < s.pageCount) (h0 : s.refCount f = 0) :
    s.leafCount roots f = 0 ∧ held f = 0 ∧ ¬ s.IsTable (User roots) f := by
  have hc := h.count f hf
  refine ⟨by omega, by omega, fun ht => ?_⟩
  have := (h.table f ht).2.1
  omega

omit h in
/-- An address space is a table. -/
theorem isTable_root (hr : r ∈ roots) : s.IsTable (User roots) r :=
  ⟨r, [], ⟨hr, by simp, by simp⟩, rfl⟩

/-- Address spaces have physical addresses. -/
theorem root_lt (hr : r ∈ roots) : r < 2^52 := h.lt_two_pow (h.table r (isTable_root hr)).1

/-- An operation that does not write to tables keeps the account where it keeps the sums and the
counts of the tables. -/
theorem frame (htbl : ∀ m, s.IsTable (User roots) m → s'.tbl m = s.tbl m)
    (hfree : ∃ l, s'.FreeChain l) (hpc : s'.pageCount = s.pageCount)
    (hcount : ∀ f < s.pageCount, s'.refCount f = s.leafCount roots f + held' f)
    (htable : ∀ t, s.IsTable (User roots) t → s'.refCount t = 1 ∧ held' t = 1) :
    s'.Accounted roots held' := by
  have hO := positions_user roots
  have hleaf : ∀ f, s'.leafCount roots f = s.leafCount roots f := fun f =>
    leafCount_congr fun r hr v hv => leaf_frame hO htbl (user_dir hr hv)
  refine ⟨hfree, h.separate.frame hO htbl, fun f hf => ?_, fun t ht => ?_, fun f hf => ?_⟩
  · rw [hleaf, hcount f (hpc ▸ hf)]
  · have ht := (isTable_frame hO htbl).mp ht
    exact ⟨hpc ▸ (h.table t ht).1, htable t ht⟩
  · rw [hpc]
    exact h.leaf_lt f (hleaf f ▸ hf)

/-! ## Operations that write to no table -/

/-- The head of the free list is a frame that is not in use. -/
theorem head (hg : s.freePageHead = some g) :
    g < s.pageCount ∧ s.refCount g = 0 ∧ ∃ l, s.FreeChain (g :: l) := by
  obtain ⟨l, hl⟩ := h.free
  cases l with
  | nil =>
    rw [hl.chain.start_eq] at hg
    cases hg
  | cons g' l =>
    obtain rfl : g' = g := Option.some.inj (hl.chain.1.symm.trans hg)
    exact ⟨hl.lt _ (List.mem_cons_self ..), hl.unused _ (List.mem_cons_self ..), l, hl⟩

/-- An allocation does not change the tables of the address spaces. -/
theorem tbl_takeHead (hg : s.freePageHead = some g) :
    ∀ m, s.IsTable (User roots) m → (s.takeHead g (convertVA g)).tbl m = s.tbl m := by
  intro m hm
  obtain ⟨hlt, h0, -⟩ := h.head hg
  have hmg : m ≠ g := fun hmg => (h.of_refCount_zero hlt h0).2.2 (hmg ▸ hm)
  rw [takeHead_eq (h.lt_two_pow hlt)]
  exact tbl_congr (Function.update_of_ne hmg ..)

/-- The kernel holds a reference to a frame that it allocates. -/
theorem alloc (hg : s.freePageHead = some g) :
    (s.takeHead g (convertVA g)).Accounted roots (Function.update held g 1) := by
  obtain ⟨hlt, h0, l, hl⟩ := h.head hg
  obtain ⟨hleaf, hheld, hnot⟩ := h.of_refCount_zero hlt h0
  have hb := h.lt_two_pow hlt
  refine h.frame (h.tbl_takeHead hg) ⟨l, hl.takeHead⟩ rfl (fun f hf => ?_) fun t ht => ?_
  · rw [takeHead_eq hb]
    show Function.update s.refCount g 1 f = _
    by_cases hfg : f = g
    · rw [hfg, Function.update_self, Function.update_self, hleaf]
    · rw [Function.update_of_ne hfg, Function.update_of_ne hfg, h.count f hf]
  · have htg : t ≠ g := fun htg => hnot (htg ▸ ht)
    rw [takeHead_eq hb]
    show Function.update s.refCount g 1 t = 1 ∧ _
    rw [Function.update_of_ne htg, Function.update_of_ne htg]
    exact (h.table t ht).2

/-- The kernel gives up a reference that it holds. -/
theorem freePage (hlt : f < s.pageCount) (hheld : 1 ≤ held f) (hnot : ¬ s.IsTable (User roots) f) :
    (s.freePage (convertVA f)).Accounted roots (Function.update held f (held f - 1)) := by
  have hb := h.lt_two_pow hlt
  have hc := h.count f hlt
  obtain ⟨l, hl⟩ := h.free
  obtain ⟨l', hl', -⟩ := hl.freePage (f := f) (by omega) hlt
  refine h.frame (fun m hm => ?_) ⟨l', hl'⟩ (consts_freePage hb).1 (fun f' hf' => ?_) fun t ht => ?_
  · exact tbl_congr (mem_freePage_of_ne hb fun hmf => hnot (hmf ▸ hm))
  · rw [refCount_freePage hb]
    by_cases hff : f' = f
    · rw [hff, Function.update_self, Function.update_self]
      omega
    · rw [Function.update_of_ne hff, Function.update_of_ne hff, h.count f' hf']
  · have htf : t ≠ f := fun htf => hnot (htf ▸ ht)
    rw [refCount_freePage hb, Function.update_of_ne htf, Function.update_of_ne htf]
    exact (h.table t ht).2

/-- The count of a frame in use changes with the references that the kernel holds. -/
theorem setRef {n k : ℕ} (hn : s.refCount f + k = n + held f) (h0 : s.refCount f ≠ 0)
    (hnot : ¬ s.IsTable (User roots) f) :
    (s.setRef f n).Accounted roots (Function.update held f k) := by
  obtain ⟨l, hl⟩ := h.free
  refine h.frame (fun m hm => rfl) ⟨l, hl.congr rfl rfl rfl fun g hg => ?_⟩ rfl (fun f' hf' => ?_)
    fun t ht => ?_
  · show Function.update s.refCount f n g = 0
    rw [Function.update_of_ne (ne_of_mem_of_not_mem hg (hl.notMem h0))]
    exact hl.unused g hg
  · show Function.update s.refCount f n f' = _
    have hc := h.count f' hf'
    by_cases hff : f' = f
    · subst hff
      rw [Function.update_self, Function.update_self]
      omega
    · rw [Function.update_of_ne hff, Function.update_of_ne hff, hc]
  · have htf : t ≠ f := fun htf => hnot (htf ▸ ht)
    show Function.update s.refCount f n t = 1 ∧ _
    rw [Function.update_of_ne htf, Function.update_of_ne htf]
    exact (h.table t ht).2

/-- The contents of a frame that is not a table do not matter. -/
theorem setBlock {b : Bytes.Block} (hnot : ¬ s.IsTable (User roots) f) :
    (s.setBlock f b).Accounted roots held := by
  obtain ⟨l, hl⟩ := h.free
  exact h.frame (tbl_setBlock hnot) ⟨l, hl.congr rfl rfl rfl hl.unused⟩ rfl h.count
    fun t ht => (h.table t ht).2

/-! ## Writes to tables -/

/-- A write of an entry keeps the free list. -/
theorem free_setEntry : ∃ l, (s.setEntry t i e).FreeChain l := by
  obtain ⟨l, hl⟩ := h.free
  exact ⟨l, hl.congr rfl rfl rfl hl.unused⟩

/-- A fresh table is held by the kernel. -/
theorem install (hq : User roots r q) (hw : s.table r q = some t) (hlen : q.length ≤ 2)
    (habs : child (s.tbl t i) = none) (hg : s.freePageHead = some g) :
    (s.install t i g).Accounted roots (Function.update held g 1) := by
  have hO := positions_user roots
  obtain ⟨hlt, h0, -⟩ := h.head hg
  obtain ⟨-, -, hnot⟩ := h.of_refCount_zero hlt h0
  have hb := h.lt_two_pow hlt
  have halloc := h.alloc hg
  have hleaf : ∀ f, (s.install t i g).leafCount roots f = s.leafCount roots f := fun f =>
    leafCount_congr fun r' hr' v hv =>
      leaf_install hO h.separate hq hw hnot hb habs hlen (user_dir hr' hv)
  have hleaf' : ∀ f, (s.takeHead g (convertVA g)).leafCount roots f = s.leafCount roots f := fun f =>
    leafCount_congr fun r' hr' v hv => leaf_frame hO (h.tbl_takeHead hg) (user_dir hr' hv)
  refine ⟨halloc.free_setEntry, separate_install hO h.separate hq hw hnot hb, fun f hf => ?_,
    fun t' ht' => ?_, fun f hf => h.leaf_lt f (hleaf f ▸ hf)⟩
  · rw [hleaf, ← hleaf']
    exact halloc.count f hf
  · obtain ⟨n, p, hn, hp⟩ := ht'
    have hrc : (s.install t i g).refCount = Function.update s.refCount g 1 := by
      rw [Mm.install, takeHead_eq hb]
      rfl
    rw [table_install hO h.separate hq hw hnot hb habs hn] at hp
    rw [hrc]
    by_cases htg : t' = g
    · rw [htg, Function.update_self, Function.update_self]
      exact ⟨hlt, rfl, rfl⟩
    · rw [Function.update_of_ne htg, Function.update_of_ne htg]
      split_ifs at hp
      · exact (htg (Option.some.inj hp).symm).elim
      · exact h.table t' ⟨n, p, hn, hp⟩

/-- An entry that leads to an empty table, or to none, may be zeroed. The kernel still holds the
table. -/
theorem drop (hq : User roots r q) (hw : s.table r q = some t) (hlen : q.length ≤ 2)
    (hblank : ∀ g, child (s.tbl t i) = some g → ∀ j, present (s.tbl g j) = false) :
    (s.setEntry t i 0).Accounted roots held := by
  have hO := positions_user roots
  have hleaf : ∀ f, (s.setEntry t i 0).leafCount roots f = s.leafCount roots f := fun f =>
    leafCount_congr fun r' hr' v hv =>
      leaf_drop hO h.separate hq hw hblank hlen (user_dir hr' hv)
  refine ⟨h.free_setEntry, separate_drop hO h.separate hq hw, fun f hf => ?_, fun t' ht' => ?_,
    fun f hf => h.leaf_lt f (hleaf f ▸ hf)⟩
  · rw [hleaf]
    exact h.count f hf
  · obtain ⟨n, p, hn, hp⟩ := ht'
    rw [table_drop hO h.separate hq hw hn] at hp
    split_ifs at hp
    exact h.table t' ⟨n, p, hn, hp⟩

/-- The entry of a page moves one reference: the kernel gets the one to the frame that the entry
referred to, and gives the one to the frame that it refers to now. -/
theorem setLeaf (hr : r ∈ roots) (hv : v.InUser) (hw : s.table r v.dir = some t)
    (hheld : ∀ f, held' f + (if (present? e).map frameOf = some f then 1 else 0) =
      held f + if s.leafFrame (r, v) = some f then 1 else 0)
    (hnew : ∀ f, (present? e).map frameOf = some f →
      f < s.pageCount ∧ ¬ s.IsTable (User roots) f) :
    (s.setEntry t v.pte e).Accounted roots held' := by
  have hO := positions_user roots
  have hdir := user_dir hr hv
  have hleaf := fun r' (hr' : r' ∈ roots) (w : VPage) (hw' : w.InUser) =>
    leaf_setLeaf (e := e) hO h.separate hdir hw (user_dir hr' hw')
  have hself : (s.setEntry t v.pte e).leafFrame (r, v) = (present? e).map frameOf := by
    rw [leafFrame, hleaf r hr v hv, if_pos ⟨rfl, rfl⟩]
  -- The counts of entries change by one reference each.
  have hcount : ∀ f, (s.setEntry t v.pte e).leafCount roots f +
      (if s.leafFrame (r, v) = some f then 1 else 0) =
      s.leafCount roots f + if (present? e).map frameOf = some f then 1 else 0 := by
    intro f
    rw [← hself]
    refine Count.count_update (Finset.mem_product.mpr ⟨hr, mem_userPages.mpr hv⟩) ?_
    rintro ⟨r', w⟩ hx hne
    obtain ⟨hr', hw'⟩ := Finset.mem_product.mp hx
    rw [leafFrame, leafFrame, hleaf r' hr' w (mem_userPages.mp hw'), if_neg]
    rintro ⟨rfl, rfl⟩
    exact hne rfl
  refine ⟨h.free_setEntry, separate_setLeaf hO h.separate hdir hw, fun f hf => ?_, fun t' ht' => ?_,
    fun f hf => ?_⟩
  · have h1 := hcount f
    have h2 := hheld f
    have h3 : (s.setEntry t v.pte e).refCount f = s.refCount f := rfl
    have h4 := h.count f hf
    omega
  · obtain ⟨n, p, hn, hp⟩ := ht'
    rw [table_setLeaf hO h.separate hdir hw hn] at hp
    have ht : s.IsTable (User roots) t' := ⟨n, p, hn, hp⟩
    obtain ⟨hlt, href, hone⟩ := h.table t' ht
    have h0 := h.leafCount_table ht
    have hnot : ¬ (present? e).map frameOf = some t' := fun he => (hnew t' he).2 ht
    have h1 := hcount t'
    have h2 := hheld t'
    rw [if_neg hnot] at h1 h2
    exact ⟨hlt, href, by omega⟩
  · by_cases he : (present? e).map frameOf = some f
    · exact (hnew f he).1
    · have h1 := hcount f
      rw [if_neg he] at h1
      exact h.leaf_lt f (by omega)

end Accounted

/-! ## A fresh PML4 -/

/-- The head `g` of the free list becomes a PML4 with the kernel's entry `e`. -/
def newPml (s : Mm) (g : ℕ) (e : Word) : Mm :=
  (s.takeHead g (convertVA g)).setEntry g kernelIdx e

theorem refCount_newPml (hb : g < 2^52) :
    (s.newPml g e).refCount = Function.update s.refCount g 1 := by
  rw [newPml, takeHead_eq hb]
  rfl

theorem mem_newPml_of_ne (hb : g < 2^52) (hf : f ≠ g) : (s.newPml g e).mem f = s.mem f := by
  rw [newPml, takeHead_eq hb]
  show Function.update (Function.update s.mem g _) g _ f = s.mem f
  rw [Function.update_of_ne hf, Function.update_of_ne hf]

/-- There are no tables below a fresh PML4. -/
theorem table_newPml_self (hb : g < 2^52) (hhead : q.head? ≠ some kernelIdx) (hq : q ≠ []) :
    (s.newPml g e).table g q = none := by
  cases q with
  | nil => exact (hq rfl).elim
  | cons j q =>
    have hj : j ≠ kernelIdx := fun hj => hhead (by rw [hj]; rfl)
    have hzero : (s.newPml g e).tbl g j = 0 := by
      rw [newPml, tbl_setEntry_of_ne _ (.inr hj), takeHead_eq hb]
      exact tbl_of_zero (Function.update_self ..) j
    rw [Mm.table, Radix.walk_cons, hzero, child_zero, Option.bind_none]

/-- There are no pages below a fresh PML4. -/
theorem leaf_newPml_self (hb : g < 2^52) (hv : v.InUser) : (s.newPml g e).leaf g v = none := by
  have hhead : v.dir.head? ≠ some kernelIdx := fun h => hv (Option.some.inj h)
  rw [leaf, table_newPml_self hb hhead (by simp [VPage.dir])]
  rfl

namespace Accounted

variable (h : s.Accounted roots held)

include h

/-- A free frame is not the PML4 of an address space. -/
theorem notMem_roots (hg : s.freePageHead = some g) : g ∉ roots := fun hm => by
  obtain ⟨hlt, h0, -⟩ := h.head hg
  exact (h.of_refCount_zero hlt h0).2.2 (isTable_root hm)

/-- A fresh PML4 does not change the tables of the address spaces. -/
theorem tbl_newPml (hg : s.freePageHead = some g) :
    ∀ m, s.IsTable (User roots) m → (s.newPml g e).tbl m = s.tbl m := by
  intro m hm
  obtain ⟨hlt, h0, -⟩ := h.head hg
  have hmg : m ≠ g := fun hmg => (h.of_refCount_zero hlt h0).2.2 (hmg ▸ hm)
  exact tbl_congr (mem_newPml_of_ne (h.lt_two_pow hlt) hmg)

/-- A fresh PML4 does not change the pages of the address spaces. -/
theorem leaf_newPml (hg : s.freePageHead = some g) (hr : r ∈ roots) (hv : v.InUser) :
    (s.newPml g e).leaf r v = s.leaf r v :=
  leaf_frame (positions_user roots) (h.tbl_newPml hg) (user_dir hr hv)

/-- A table is the fresh PML4 or was a table before. -/
theorem table_newPml {n : ℕ} (hg : s.freePageHead = some g) (hn : User (insert g roots) n q)
    (hw : (s.newPml g e).table n q = some t) :
    (n = g ∧ q = [] ∧ t = g) ∨ (User roots n q ∧ s.table n q = some t ∧ t ≠ g) := by
  obtain ⟨hlt, h0, -⟩ := h.head hg
  by_cases hng : n = g
  · subst hng
    by_cases hq : q = []
    · subst hq
      exact .inl ⟨rfl, rfl, (Option.some.inj hw).symm⟩
    · rw [table_newPml_self (h.lt_two_pow hlt) hn.2.2 hq] at hw
      cases hw
  · have hu : User roots n q := ⟨(Finset.mem_insert.mp hn.1).resolve_left hng, hn.2⟩
    rw [table_frame (positions_user roots) (h.tbl_newPml hg) hu] at hw
    exact .inr ⟨hu, hw, fun htg => (h.of_refCount_zero hlt h0).2.2 (htg ▸ ⟨n, q, hu, hw⟩)⟩

/-- A fresh PML4 refers to no frame. -/
theorem leafCount_newPml (hg : s.freePageHead = some g) (f : ℕ) :
    (s.newPml g e).leafCount (insert g roots) f = s.leafCount roots f := by
  have hb := h.lt_two_pow (h.head hg).1
  have hdom : insert g roots ×ˢ userPages = roots ×ˢ userPages ∪ {g} ×ˢ userPages := by
    ext ⟨r', w⟩
    simp only [Finset.mem_product, Finset.mem_insert, Finset.mem_union, Finset.mem_singleton]
    tauto
  rw [leafCount, hdom, Count.count_union_of_none]
  · exact leafCount_congr fun r' hr' w hw => h.leaf_newPml hg hr' hw
  · rintro ⟨r', w⟩ hx
    obtain ⟨hr', hw⟩ := Finset.mem_product.mp hx
    obtain rfl := Finset.mem_singleton.mp hr'
    rw [leafFrame, leaf_newPml_self hb (mem_userPages.mp hw), Option.map_none]

/-- A fresh PML4 is a new address space, which the kernel holds. -/
theorem newPml (hg : s.freePageHead = some g) :
    (s.newPml g e).Accounted (insert g roots) (Function.update held g 1) := by
  obtain ⟨hlt, h0, -⟩ := h.head hg
  obtain ⟨hleaf, -, -⟩ := h.of_refCount_zero hlt h0
  refine ⟨(h.alloc hg).free_setEntry, ?_, fun f hf => ?_, fun t ht => ?_, fun f hf => ?_⟩
  · intro n p n' p' t hn hn' hp hp'
    rcases h.table_newPml hg hn hp with ⟨rfl, rfl, rfl⟩ | ⟨hu, hw, hne⟩
    · rcases h.table_newPml hg hn' hp' with ⟨rfl, rfl, -⟩ | ⟨-, -, hne'⟩
      · exact ⟨rfl, rfl⟩
      · exact (hne' rfl).elim
    · rcases h.table_newPml hg hn' hp' with ⟨-, -, rfl⟩ | ⟨hu', hw', -⟩
      · exact (hne rfl).elim
      · exact h.separate n p n' p' t hu hu' hw hw'
  · rw [h.leafCount_newPml hg, refCount_newPml (h.lt_two_pow hlt)]
    by_cases hfg : f = g
    · rw [hfg, Function.update_self, Function.update_self, hleaf]
    · rw [Function.update_of_ne hfg, Function.update_of_ne hfg]
      exact h.count f hf
  · obtain ⟨n, p, hn, hp⟩ := ht
    rw [refCount_newPml (h.lt_two_pow hlt)]
    rcases h.table_newPml hg hn hp with ⟨-, -, rfl⟩ | ⟨hu, hw, hne⟩
    · rw [Function.update_self, Function.update_self]
      exact ⟨hlt, rfl, rfl⟩
    · rw [Function.update_of_ne hne, Function.update_of_ne hne]
      exact h.table t ⟨n, p, hu, hw⟩
  · exact h.leaf_lt f (h.leafCount_newPml hg f ▸ hf)

end Accounted

end Mm

end Nascent
