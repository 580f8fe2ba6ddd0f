import Nascent.Lib.Runs
import Nascent.Virmem.DirectMap
import Nascent.Virmem.Mapping
import Nascent.Virmem.Teardown

/-!
# The direct map survives

The system of the kernel's operations on frames and address spaces, after `init_mem`. The direct map
lives in the tables below entry 511 of the kernel's PML4, and every other PML4 has a copy of this
entry. So the map survives as long as nothing writes to these tables: they must not be handed out,
be cleared by a release, or become tables of the user half of an address space.

The functions do not check any of this. What they rely on is that their callers only map and release
frames that they hold a reference to. The references that callers hold are the field `loose` of a
state, which is not in the source, and `Owned` is the condition on an action. The account of
`Virmem/Account.lean` has the references that the kernel holds, among which are those of the callers
and one for each table, so a table always has a reference that no caller can give up (`Kept`).
-/

namespace Nascent

open Runs (run Along Visits)

/-- The actions. An address space is named by the frame of its PML4. -/
inductive KernelOp
  /-- `page_alloc`. -/
  | pageAlloc
  /-- `kmalloc`. -/
  | kmalloc
  /-- `fetch_free_page`. -/
  | fetchFreePage
  /-- `ref_count++` for the frame of a present page, as in `fork_process`. -/
  | share (r : ℕ) (va : Word)
  /-- `free_page`. -/
  | freePage (f : ℕ)
  /-- `create_new_pml_table`. -/
  | createNewPmlTable
  /-- `set_mapping` for an address of the user half. -/
  | setMapping (r : ℕ) (va phyaddr flags : Word)
  /-- `clear_mapping`. -/
  | clearMapping (r : ℕ)

/-- The memory, the address spaces, and the references that callers hold. -/
structure KernelSys where
  /-- The memory. -/
  mm : Mm
  /-- The frames of the PML4s of the processes. -/
  roots : Finset ℕ
  /-- The number of references to a frame that callers got and neither mapped nor released. -/
  loose : ℕ → ℕ

namespace KernelSys

/-- The state right after `init_mem`. -/
def boot (mm : Mm) : KernelSys := ⟨mm, ∅, fun _ => 0⟩

/-- The frame that an entry refers to. -/
def entryFrame (e : Word) : Option ℕ := (Mm.present? e).map frameOf

/-- The number of references to each frame after the one to `old` is gained and the one to `new` is
given up. -/
def exchange (refs : ℕ → ℕ) (old new : Option ℕ) (f : ℕ) : ℕ :=
  refs f + (if old = some f then 1 else 0) - if new = some f then 1 else 0

/-- A caller gets a reference. -/
def gain (s : KernelSys) (mm : Mm) (f : ℕ) : KernelSys :=
  ⟨mm, s.roots, Function.update s.loose f (s.loose f + 1)⟩

/-- One action. -/
def step (s : KernelSys) : KernelOp → Option KernelSys
  | .pageAlloc => s.mm.pageAlloc.map fun a => s.gain a.2 (Mm.kframe a.1)
  | .kmalloc => s.mm.kmalloc.map fun a => s.gain a.2 (frameOf a.1)
  | .fetchFreePage => s.mm.fetchFreePage.map fun a => s.gain a.2 (frameOf a.1)
  | .share r va =>
    if r ∈ s.roots ∧ (vpage va).InUser then
      (s.mm.getPteEntry (convertVA r) va).map fun e =>
        s.gain (s.mm.setRef (frameOf e) (s.mm.refCount (frameOf e) + 1)) (frameOf e)
    else none
  | .freePage f =>
    if f < s.mm.pageCount then
      some ⟨s.mm.freePage (convertVA f), s.roots, Function.update s.loose f (s.loose f - 1)⟩
    else none
  | .createNewPmlTable => s.mm.createNewPmlTable.map fun a =>
    ⟨a.2, insert (Mm.kframe a.1) s.roots, s.loose⟩
  | .setMapping r va phyaddr flags =>
    if r ∈ s.roots ∧ (vpage va).InUser then
      -- The caller gets the reference of the old entry, and gives one to the new entry.
      (s.mm.setMapping (convertVA r) va phyaddr flags).map fun mm => ⟨mm, s.roots,
        exchange s.loose (s.mm.leafFrame (r, vpage va)) (entryFrame (phyaddr ||| flags))⟩
    else none
  | .clearMapping r =>
    if r ∈ s.roots then some ⟨s.mm.clearMapping (convertVA r), s.roots, s.loose⟩ else none

/-- The caller of an action holds the references that the action gives up. -/
def Owned (s : KernelSys) : KernelOp → Prop
  | .freePage f => 1 ≤ s.loose f
  | .setMapping r va phyaddr flags => ∀ f ∈ entryFrame (phyaddr ||| flags),
    1 ≤ s.loose f + if s.mm.leafFrame (r, vpage va) = some f then 1 else 0
  | _ => True

instance (s : KernelSys) : ∀ op, Decidable (s.Owned op)
  | .freePage f => inferInstanceAs (Decidable (1 ≤ s.loose f))
  | .setMapping r va phyaddr flags => inferInstanceAs (Decidable
    (∀ f ∈ entryFrame (phyaddr ||| flags),
      1 ≤ s.loose f + if s.mm.leafFrame (r, vpage va) = some f then 1 else 0))
  | .pageAlloc | .kmalloc | .fetchFreePage | .share _ _ | .createNewPmlTable | .clearMapping _ =>
    isTrue trivial

/-- An exchange for which callers hold the reference that is given up. -/
theorem exchange_add {refs held : ℕ → ℕ} {old new : Option ℕ} {f : ℕ} (hle : refs f ≤ held f)
    (hnew : new = some f → 1 ≤ refs f + if old = some f then 1 else 0) :
    exchange held old new f + (if new = some f then 1 else 0) =
      held f + if old = some f then 1 else 0 := by
  rw [exchange]
  by_cases hf : new = some f
  · have := hnew hf
    rw [if_pos hf]
    omega
  · rw [if_neg hf]
    omega

/-- The references of callers and of the kernel change by the same numbers. -/
theorem exchange_add_le {refs held : ℕ → ℕ} {old new : Option ℕ} {f c : ℕ}
    (hle : refs f + c ≤ held f)
    (hnew : new = some f → 1 ≤ refs f + if old = some f then 1 else 0) :
    exchange refs old new f + c ≤ exchange held old new f := by
  rw [exchange, exchange]
  by_cases hf : new = some f
  · have := hnew hf
    rw [if_pos hf]
    omega
  · rw [if_neg hf]
    omega

/-! ## The invariant -/

variable {s s' : KernelSys} {b mm : Mm} {k r f g t : ℕ} {held held₁ : ℕ → ℕ} {va : Word}

/-- The kernel's tables, which are those below the PML4 in frame `k` in the state `b`, are as they
were in `b`. -/
structure Kept (b : Mm) (k : ℕ) (s : KernelSys) (held : ℕ → ℕ) : Prop where
  /-- The account balances. -/
  account : s.mm.Accounted s.roots held
  /-- The references of callers are among those that the kernel holds. -/
  loose_le : ∀ f, s.loose f ≤ held f
  /-- Callers hold references to frames of the machine. -/
  loose_lt : ∀ f, 0 < s.loose f → f < s.mm.pageCount
  /-- A table of an address space has a reference that callers do not hold. -/
  user : ∀ t, s.mm.IsTable (User s.roots) t → s.loose t + 1 ≤ held t
  /-- So does a table of the kernel. -/
  kernel : ∀ t, b.IsTable (Below k) t → t < s.mm.pageCount ∧ s.loose t + 1 ≤ held t
  /-- The kernel's tables are not tables of an address space. -/
  apart : ∀ t, b.IsTable (Below k) t → ¬ s.mm.IsTable (User s.roots) t
  /-- The kernel's tables are as they were. -/
  mem : ∀ t, b.IsTable (Below k) t → s.mm.mem t = b.mem t
  /-- Every PML4 has the kernel's entry. -/
  entry : ∀ r ∈ s.roots, s.mm.tbl r kernelIdx = b.tbl k kernelIdx
  /-- The number of frames and the kernel's PML4 stay. -/
  consts : s.mm.pageCount = b.pageCount ∧ s.mm.kpmlAddr = convertVA k

namespace Kept

variable (h : Kept b k s held)

include h

/-- A kernel table is in use. -/
theorem refCount_kernel (ht : b.IsTable (Below k) t) : s.mm.refCount t ≠ 0 := by
  have hlt := h.kernel t ht
  have := h.account.count t hlt.1
  omega

/-- Callers hold no reference to a frame that is not in use. -/
theorem loose_of_unused (h0 : s.mm.refCount f = 0) : s.loose f = 0 := by
  by_contra hne
  have hlt := h.loose_lt f (Nat.pos_of_ne_zero hne)
  have := h.loose_le f
  have := (h.account.of_refCount_zero hlt h0).2.1
  omega

/-- A frame that callers hold a reference to is not a table of an address space. -/
theorem not_isTable_of_loose (hl : 1 ≤ s.loose f) : ¬ s.mm.IsTable (User s.roots) f := fun ht => by
  have := h.user f ht
  have := (h.account.table f ht).2.2
  omega

/-- Allocations, some of them as tables. -/
theorem grown (hg : s.mm.Grown s.roots held mm held₁) : Kept b k ⟨mm, s.roots, s.loose⟩ held₁ := by
  have hheld : ∀ f, s.loose f ≤ held₁ f := fun f => by
    by_cases h0 : s.mm.refCount f = 0
    · rw [h.loose_of_unused h0]
      exact Nat.zero_le _
    · rw [(hg.used f h0).2]
      exact h.loose_le f
  refine ⟨hg.account, hheld, fun f hf => ?_, fun t ht => ?_, fun t ht => ⟨?_, ?_⟩, fun t ht => ?_,
    fun t ht => ?_, fun r hr => ?_, ?_, ?_⟩
  · exact hg.consts.1 ▸ h.loose_lt f hf
  · -- A new table was a free frame, to which callers hold no reference.
    by_cases h0 : s.mm.refCount t = 0
    · have hone := (hg.account.table t ht).2.2
      have := h.loose_of_unused h0
      show s.loose t + 1 ≤ held₁ t
      omega
    · have hold : s.mm.IsTable (User s.roots) t := by
        by_contra hnot
        exact hg.not_isTable t h0 hnot ht
      rw [(hg.used t h0).2]
      exact h.user t hold
  · exact hg.consts.1 ▸ (h.kernel t ht).1
  · rw [(hg.used t (h.refCount_kernel ht)).2]
    exact (h.kernel t ht).2
  · exact hg.not_isTable t (h.refCount_kernel ht) (h.apart t ht)
  · exact (hg.mem t (h.refCount_kernel ht) (h.apart t ht)).trans (h.mem t ht)
  · exact (hg.kernel r hr).trans (h.entry r hr)
  · exact hg.consts.1.trans h.consts.1
  · exact hg.consts.2.trans h.consts.2

/-- An operation that writes to no table, changes one reference, and keeps the kernel's tables. -/
theorem change {n m : ℕ} (ha : mm.Accounted s.roots (Function.update held f m))
    (htbl : ∀ t, s.mm.IsTable (User s.roots) t → mm.tbl t = s.mm.tbl t)
    (hmem : ∀ t, b.IsTable (Below k) t → mm.mem t = s.mm.mem t)
    (hnm : n + held f = s.loose f + m) (hlt : f < s.mm.pageCount)
    (hconsts : mm.pageCount = s.mm.pageCount ∧ mm.kpmlAddr = s.mm.kpmlAddr) :
    Kept b k ⟨mm, s.roots, Function.update s.loose f n⟩ (Function.update held f m) := by
  have hO := positions_user s.roots
  have htable : ∀ t, mm.IsTable (User s.roots) t → s.mm.IsTable (User s.roots) t := fun t ht =>
    (Mm.isTable_frame hO htbl).mp ht
  -- A reference that callers do not hold stays with the kernel.
  have hle : ∀ f' c, s.loose f' + c ≤ held f' →
      Function.update s.loose f n f' + c ≤ Function.update held f m f' := by
    intro f' c hc
    by_cases hff : f' = f
    · subst hff
      rw [Function.update_self, Function.update_self]
      omega
    · rw [Function.update_of_ne hff, Function.update_of_ne hff]
      exact hc
  refine ⟨ha, fun f' => hle f' 0 (h.loose_le f'), fun f' hf' => ?_, fun t ht =>
    hle t 1 (h.user t (htable t ht)), fun t ht => ⟨?_, hle t 1 (h.kernel t ht).2⟩,
    fun t ht hu => h.apart t ht (htable t hu), fun t ht => (hmem t ht).trans (h.mem t ht),
    fun r hr => ?_, hconsts.1.trans h.consts.1, hconsts.2.trans h.consts.2⟩
  · by_cases hff : f' = f
    · rw [hff]
      exact hconsts.1 ▸ hlt
    · have hpos : 0 < Function.update s.loose f n f' := hf'
      rw [Function.update_of_ne hff] at hpos
      exact hconsts.1 ▸ h.loose_lt f' hpos
  · exact hconsts.1 ▸ (h.kernel t ht).1
  · exact (congrFun (htbl r (Mm.Accounted.isTable_root hr)) _).trans (h.entry r hr)

/-! ## The actions -/

/-- A caller gets a frame. -/
theorem alloc (hg : s.mm.freePageHead = some g) :
    ∃ held', Kept b k (s.gain (s.mm.takeHead g (convertVA g)) g) held' := by
  obtain ⟨hlt, h0, -⟩ := h.account.head hg
  obtain ⟨-, hheld, hnot⟩ := h.account.of_refCount_zero hlt h0
  have hloose := h.loose_of_unused h0
  have hb := h.account.lt_two_pow hlt
  have hne : ∀ t, s.mm.refCount t ≠ 0 → t ≠ g := fun t ht htg => ht (htg ▸ h0)
  refine ⟨_, h.change (h.account.alloc hg) (fun t ht => ?_) (fun t ht => ?_) ?_ hlt ⟨rfl, rfl⟩⟩
  · have htg : t ≠ g := fun htg => hnot (htg ▸ ht)
    rw [Mm.takeHead_eq hb]
    exact Mm.tbl_congr (Function.update_of_ne htg ..)
  · rw [Mm.takeHead_eq hb]
    exact Function.update_of_ne (hne t (h.refCount_kernel ht)) ..
  · omega

/-- Each of the three allocators, with the way it names the frame. -/
theorem gain {alloc : Option (Word × Mm)} {addr : ℕ → Word} {name : Word → ℕ} {a : Word × Mm}
    (hs : alloc = some a) (hnone : s.mm.freePageHead = none → alloc = none)
    (hsome : ∀ g, s.mm.freePageHead = some g →
      alloc = some (addr g, s.mm.takeHead g (convertVA g)))
    (hname : ∀ g, g < 2^52 → name (addr g) = g) :
    ∃ held', Kept b k (s.gain a.2 (name a.1)) held' := by
  cases hg : s.mm.freePageHead with
  | none =>
    rw [hnone hg] at hs
    cases hs
  | some g =>
    rw [hsome g hg] at hs
    obtain rfl := Option.some.inj hs
    rw [hname g (h.account.lt_two_pow (h.account.head hg).1)]
    exact h.alloc hg

/-- A caller gets a reference to the frame of a page. -/
theorem share {e : Word} (hr : r ∈ s.roots) (hv : (vpage va).InUser)
    (he : s.mm.getPteEntry (convertVA r) va = some e) :
    ∃ held', Kept b k (s.gain (s.mm.setRef (frameOf e) (s.mm.refCount (frameOf e) + 1))
      (frameOf e)) held' := by
  have hroot := h.account.root_lt hr
  rw [Mm.getPteEntry_eq hroot] at he
  have hlt := h.account.frameOf_leaf_lt hr hv he
  have hpos := Mm.leafCount_pos hr hv he
  have hcount := h.account.count _ hlt
  have ha := h.account.setRef (f := frameOf e) (n := s.mm.refCount (frameOf e) + 1)
    (k := held (frameOf e) + 1) (by omega) (by omega) (h.account.not_isTable hr hv he)
  exact ⟨_, h.change ha (fun _ _ => rfl) (fun _ _ => rfl) (by omega) hlt ⟨rfl, rfl⟩⟩

/-- A caller gives up a reference. -/
theorem freePage (hlt : f < s.mm.pageCount) (hl : 1 ≤ s.loose f) :
    ∃ held', Kept b k
      ⟨s.mm.freePage (convertVA f), s.roots, Function.update s.loose f (s.loose f - 1)⟩ held' := by
  have hb := h.account.lt_two_pow hlt
  have hle := h.loose_le f
  have hnot := h.not_isTable_of_loose hl
  refine ⟨_, h.change (h.account.freePage hlt (by omega) hnot) (fun t ht => ?_) (fun t ht => ?_)
    (by omega) hlt (Mm.consts_freePage hb)⟩
  · exact Mm.tbl_congr (Mm.mem_freePage_of_ne hb fun htf => hnot (htf ▸ ht))
  · by_cases htf : t = f
    · -- A kernel table has one more reference, so it is not cleared.
      have hone := (h.kernel t ht).2
      have := h.account.count f hlt
      rw [htf] at hone
      rw [Mm.mem_freePage_of_shared hb (by omega)]
    · exact Mm.mem_freePage_of_ne hb htf

/-- A new address space. -/
theorem createNewPmlTable {a : Word × Mm} (hs : s.mm.createNewPmlTable = some a) :
    ∃ held', Kept b k ⟨a.2, insert (Mm.kframe a.1) s.roots, s.loose⟩ held' := by
  cases hg : s.mm.freePageHead with
  | none => simp [Mm.createNewPmlTable, Mm.pageAlloc, hg] at hs
  | some g =>
    obtain ⟨hlt, h0, -⟩ := h.account.head hg
    have hb := h.account.lt_two_pow hlt
    have hloose := h.loose_of_unused h0
    have hne : ∀ t, b.IsTable (Below k) t → t ≠ g := fun t ht htg =>
      h.refCount_kernel ht (htg ▸ h0)
    -- The entry that is copied is the kernel's.
    have hk : b.IsTable (Below k) k := ⟨k, [], ⟨rfl, by simp⟩, rfl⟩
    have hentry : (s.mm.takeHead g (convertVA g)).kread (s.mm.kpmlAddr + 8 * 511) =
        b.tbl k kernelIdx := by
      rw [h.consts.2]
      refine (Mm.kread_entry (h.account.lt_two_pow (h.kernel k hk).1) kernelIdx).trans ?_
      rw [Mm.takeHead_eq hb]
      exact congrFun (Mm.tbl_congr ((Function.update_of_ne (hne k hk) ..).trans (h.mem k hk))) _
    rw [Mm.createNewPmlTable_eq hg hb, hentry] at hs
    obtain rfl := (Option.some.inj hs).symm
    have hle : ∀ f c, s.loose f + c ≤ held f → s.loose f + c ≤ Function.update held g 1 f ∨
        f = g := by
      intro f c hc
      by_cases hfg : f = g
      · exact .inr hfg
      · rw [Function.update_of_ne hfg]
        exact .inl hc
    rw [kframe_convertVA hb]
    refine ⟨Function.update held g 1, h.account.newPml hg, fun f => ?_, h.loose_lt, ?_,
      fun t ht => ⟨(h.kernel t ht).1, ?_⟩, ?_, fun t ht => ?_, fun r hr => ?_, h.consts⟩
    · show s.loose f ≤ Function.update held g 1 f
      rcases hle f 0 (h.loose_le f) with hf | rfl
      · exact hf
      · rw [hloose]
        exact Nat.zero_le _
    · rintro t ⟨n, p, hn, hw⟩
      show s.loose t + 1 ≤ Function.update held g 1 t
      rcases h.account.table_newPml hg hn hw with ⟨-, -, rfl⟩ | ⟨hu, hw, hne⟩
      · rw [hloose, Function.update_self]
      · exact (hle t 1 (h.user t ⟨n, p, hu, hw⟩)).resolve_right hne
    · exact (hle t 1 (h.kernel t ht).2).resolve_right (hne t ht)
    · rintro t ht ⟨n, p, hn, hw⟩
      rcases h.account.table_newPml hg hn hw with ⟨-, -, htg⟩ | ⟨hu, hw, -⟩
      · exact hne t ht htg
      · exact h.apart t ht ⟨n, p, hu, hw⟩
    · exact (Mm.mem_newPml_of_ne hb (hne t ht)).trans (h.mem t ht)
    · rcases Finset.mem_insert.mp hr with rfl | hr
      · exact Mm.tbl_setEntry_self _
      · have htbl := h.account.tbl_newPml (e := b.tbl k kernelIdx) hg r
          (Mm.Accounted.isTable_root hr)
        exact (congrFun htbl _).trans (h.entry r hr)

/-- An entry of a page. -/
theorem setMapping {phyaddr flags : Word} (hr : r ∈ s.roots) (hv : (vpage va).InUser)
    (hown : s.Owned (.setMapping r va phyaddr flags))
    (hs : s.mm.setMapping (convertVA r) va phyaddr flags = some mm) :
    ∃ held', Kept b k ⟨mm, s.roots, exchange s.loose (s.mm.leafFrame (r, vpage va))
      (entryFrame (phyaddr ||| flags))⟩ held' := by
  obtain ⟨s₁, held₁, t, hgrown, hw, rfl⟩ := h.account.setMapping hr hv hs
  have hk := h.grown hgrown
  have hO := positions_user s.roots
  have hdir := user_dir hr hv
  have hleaf : s₁.leafFrame (r, vpage va) = s.mm.leafFrame (r, vpage va) := by
    rw [Mm.leafFrame, Mm.leafFrame, hgrown.leaf r hr _ hv]
  have hown' : ∀ f, entryFrame (phyaddr ||| flags) = some f →
      1 ≤ s.loose f + if s.mm.leafFrame (r, vpage va) = some f then 1 else 0 := hown
  -- The frames of the old entry and of the new one are frames of the machine, and no tables.
  have hold : ∀ f, s.mm.leafFrame (r, vpage va) = some f →
      f < s₁.pageCount ∧ ¬ s₁.IsTable (User s.roots) f := by
    intro f hf
    rw [← hleaf] at hf
    obtain ⟨e, he, rfl⟩ := Option.map_eq_some_iff.mp hf
    exact ⟨hk.account.frameOf_leaf_lt hr hv he, hk.account.not_isTable hr hv he⟩
  have hnew : ∀ f, entryFrame (phyaddr ||| flags) = some f →
      f < s₁.pageCount ∧ ¬ s₁.IsTable (User s.roots) f := by
    intro f hf
    have hone := hown' f hf
    split_ifs at hone with hc
    · exact hold f hc
    · exact ⟨hk.loose_lt f hone, hk.not_isTable_of_loose hone⟩
  have htable := fun n p (hn : User s.roots n p) => Mm.table_setLeaf
    (e := phyaddr ||| flags) hO hk.account.separate hdir hw hn
  have hsame : ∀ t', (s₁.setEntry t (vpage va).pte (phyaddr ||| flags)).IsTable (User s.roots) t' →
      s₁.IsTable (User s.roots) t' := by
    rintro t' ⟨n, p, hn, hw'⟩
    exact ⟨n, p, hn, (htable n p hn).symm.trans hw'⟩
  have hle := fun f c (hc : s.loose f + c ≤ held₁ f) => exchange_add_le hc (hown' f)
  have ha := hk.account.setLeaf hr hv hw (fun f => by
    have hone := exchange_add (hk.loose_le f) (hown' f)
    rw [hleaf]
    exact hone) hnew
  refine ⟨_, ha, fun f => hle f 0 (hk.loose_le f), fun f hf => ?_, fun t' ht' => ?_,
    fun t' ht' => ⟨(hk.kernel t' ht').1, hle t' 1 (hk.kernel t' ht').2⟩,
    fun t' ht' hu => hk.apart t' ht' (hsame t' hu), fun t' ht' => ?_, fun r' hr' => ?_, hk.consts⟩
  · have hpos : 0 < s.loose f + (if s.mm.leafFrame (r, vpage va) = some f then 1 else 0) :=
      Nat.lt_of_lt_of_le hf (Nat.sub_le ..)
    split_ifs at hpos with hc
    · exact (hold f hc).1
    · exact hk.loose_lt f hpos
  · exact hle t' 1 (hk.user t' (hsame t' ht'))
  · have htt : t' ≠ t := fun htt => hk.apart t' ht' (htt ▸ ⟨r, _, hdir, hw⟩)
    exact (Function.update_of_ne htt ..).trans (hk.mem t' ht')
  · have hhead : ((vpage va).dir ++ [(vpage va).pte]).head? ≠ some kernelIdx := fun hh =>
      hv (Option.some.inj hh)
    exact (hk.account.tbl_kernelIdx hdir hhead hw r' hr').trans (hk.entry r' hr')

/-- An address space is torn down. -/
theorem clearMapping (hr : r ∈ s.roots) :
    ∃ held', Kept b k ⟨s.mm.clearMapping (convertVA r), s.roots, s.loose⟩ held' := by
  have hp := h.account.clearMapping hr
  generalize s.mm.clearMapping (convertVA r) = s' at hp
  obtain ⟨held', ha, hheld⟩ := hp.account
  have hloose : ∀ t, s.mm.IsTable (User s.roots) t → s.loose t = 0 := fun t ht => by
    have := h.user t ht
    have := (h.account.table t ht).2.2
    omega
  refine ⟨held', ha, fun f => ?_, fun f hf => hp.consts.1 ▸ h.loose_lt f hf, fun t ht => ?_,
    fun t ht => ⟨hp.consts.1 ▸ (h.kernel t ht).1, ?_⟩, fun t ht hu => h.apart t ht (hp.isTable hu),
    fun t ht => ?_, fun r hr => (hp.kernel r hr).trans (h.entry r hr),
    hp.consts.1.trans h.consts.1, hp.consts.2.trans h.consts.2⟩
  · show s.loose f ≤ held' f
    by_cases ht : s.mm.IsTable (User s.roots) f
    · rw [hloose f ht]
      exact Nat.zero_le _
    · rw [hheld f ht]
      exact h.loose_le f
  · show s.loose t + 1 ≤ held' t
    rw [hloose t (hp.isTable ht), (ha.table t ht).2.2]
  · rw [hheld t (h.apart t ht)]
    exact (h.kernel t ht).2
  · -- The kernel still holds its tables.
    have hused : s'.refCount t ≠ 0 := by
      rw [ha.count t (hp.consts.1 ▸ (h.kernel t ht).1), hheld t (h.apart t ht)]
      have := (h.kernel t ht).2
      omega
    exact (hp.mem_of_used (h.apart t ht) hused).trans (h.mem t ht)

/-- Every action of a caller that holds the references it gives up keeps the kernel's tables. -/
theorem step {op : KernelOp} (hown : s.Owned op) (hs : s.step op = some s') :
    ∃ held', Kept b k s' held' := by
  cases op with
  | pageAlloc =>
    obtain ⟨a, ha, rfl⟩ := Option.map_eq_some_iff.mp hs
    exact h.gain ha (fun hn => by simp [Mm.pageAlloc, hn]) (fun g hg => (Mm.alloc_eq hg).1)
      fun g => kframe_convertVA
  | kmalloc =>
    obtain ⟨a, ha, rfl⟩ := Option.map_eq_some_iff.mp hs
    exact h.gain ha (fun hn => by simp [Mm.kmalloc, hn]) (fun g hg => (Mm.alloc_eq hg).2.1)
      fun g => frameOf_getPA
  | fetchFreePage =>
    obtain ⟨a, ha, rfl⟩ := Option.map_eq_some_iff.mp hs
    exact h.gain ha (fun hn => by simp [Mm.fetchFreePage, hn]) (fun g hg => (Mm.alloc_eq hg).2.2)
      fun g => frameOf_getPA
  | share r va =>
    simp only [KernelSys.step, Option.ite_none_right_eq_some, Option.map_eq_some_iff] at hs
    obtain ⟨⟨hr, hv⟩, e, he, rfl⟩ := hs
    exact h.share hr hv he
  | freePage f =>
    simp only [KernelSys.step, Option.ite_none_right_eq_some, Option.some.injEq] at hs
    obtain ⟨hlt, rfl⟩ := hs
    exact h.freePage hlt hown
  | createNewPmlTable =>
    obtain ⟨a, ha, rfl⟩ := Option.map_eq_some_iff.mp hs
    exact h.createNewPmlTable ha
  | setMapping r va phyaddr flags =>
    simp only [KernelSys.step, Option.ite_none_right_eq_some, Option.map_eq_some_iff] at hs
    obtain ⟨⟨hr, hv⟩, mm, hmm, rfl⟩ := hs
    exact h.setMapping hr hv hown hmm
  | clearMapping r =>
    simp only [KernelSys.step, Option.ite_none_right_eq_some, Option.some.injEq] at hs
    obtain ⟨hr, rfl⟩ := hs
    exact h.clearMapping hr

/-- The pages of the kernel have the entries they had, in every PML4 with the kernel's entry. -/
theorem leaf_eq {v : VPage} (hv : v.pml4 = kernelIdx) (hr : r ∈ s.roots ∨ r = k) :
    s.mm.leaf r v = b.leaf k v := by
  have htbl : ∀ t, b.IsTable (Below k) t → s.mm.tbl t = b.tbl t := fun t ht =>
    Mm.tbl_congr (h.mem t ht)
  have hk : b.IsTable (Below k) k := ⟨k, [], ⟨rfl, by simp⟩, rfl⟩
  -- Below the first index, the two walks are the same.
  have hfirst : s.mm.tbl r v.pml4 = s.mm.tbl k v.pml4 := by
    rcases hr with hr | rfl
    · rw [hv, h.entry r hr, htbl k hk]
    · rfl
  rw [← Mm.leaf_frame (positions_below k) htbl ⟨rfl, le_refl _⟩, Mm.leaf, Mm.leaf, Mm.table,
    Mm.table, VPage.dir, Radix.walk_cons, Radix.walk_cons, hfirst]

end Kept

/-! ## Every run from boot -/

/-- The kernel's tables are in order at boot. -/
theorem kept_boot (hd : mm.Direct k mm.pageCount) (hk : mm.kpmlAddr = convertVA k) :
    Kept mm k (boot mm) mm.refCount := by
  obtain ⟨l, hl⟩ := hd.inUse.free
  have hnone : ∀ t, ¬ mm.IsTable (User ∅) t := by
    rintro t ⟨n, p, hn, -⟩
    exact absurd hn.1 (Finset.notMem_empty n)
  refine ⟨Mm.accounted_empty hl, fun f => Nat.zero_le _, fun f hf => absurd hf (Nat.lt_irrefl 0),
    fun t ht => (hnone t ht).elim, fun t ht => ?_, fun t _ => hnone t, fun _ _ => rfl,
    fun r hr => absurd hr (Finset.notMem_empty r), rfl, hk⟩
  obtain ⟨hlt, h0⟩ := hd.inUse.used t ht
  exact ⟨hlt, Nat.succ_le_of_lt (Nat.pos_of_ne_zero h0)⟩

/-- An address of the direct map lies on a page of the kernel. -/
theorem vpage_kernBase {x : Word} (hx : x.toNat < 2^31) :
    vpage (kernBase + x) = vpage (kernBase + getPA (frameOf x)) ∧
      (vpage (kernBase + x)).pml4 = kernelIdx ∧ (kernBase + x) &&& 0xFFF = x &&& 0xFFF := by
  have hK : kernBase.toNat = 0xffffffff80000000 := rfl
  have hval : (kernBase + x).toNat = 0xffffffff80000000 + x.toNat := by
    rw [BitVec.toNat_add, hK]
    omega
  refine ⟨vpage_eq_of_div ?_, Fin.ext ?_, BitVec.eq_of_toNat_eq ?_⟩
  · rw [hval, BitVec.toNat_add, toNat_getPA (frameOf_lt x), frameOf_eq_div, hK]
    omega
  · show (vidx 39 (kernBase + x) : ℕ) = 511
    rw [vidx_val, hval]
    omega
  · rw [toNat_and_pageOff, toNat_and_pageOff, hval]
    omega

/-- The direct map, in a PML4 with the kernel's entry. -/
theorem Kept.getMapping {x : Word} (h : Kept b k s held) (hd : b.Direct k b.pageCount)
    (hpc : b.pageCount ≤ 2^19) (hx : x.toNat < b.pageCount * 4096) (hr : r ∈ s.roots ∨ r = k) :
    s.mm.getMapping (convertVA r) (kernBase + x) = x := by
  obtain ⟨hpage, hpml4, hoff⟩ := vpage_kernBase (x := x) (by omega)
  have hlt : frameOf x < b.pageCount := by
    rw [frameOf_eq_div]
    omega
  have hroot : r < 2^52 := by
    rcases hr with hr | rfl
    · exact h.account.root_lt hr
    · exact h.account.lt_two_pow (h.kernel r ⟨r, [], ⟨rfl, by simp⟩, rfl⟩).1
  have hleaf : s.mm.leaf r (vpage (kernBase + x)) = some (getPA (frameOf x) ||| 7) := by
    rw [h.leaf_eq hpml4 hr, hpage]
    exact hd.mapped hpc _ hlt
  rw [Mm.getMapping_eq hroot hleaf, hoff, scldn_eq_scaleDown, scaleDown_eq_getPA,
    Mm.frameOf_or (by decide), frameOf_getPA (frameOf_lt x)]
  apply BitVec.eq_of_toNat_eq
  rw [BitVec.toNat_add, toNat_getPA (frameOf_lt x), frameOf_eq_div, toNat_and_pageOff]
  have := x.isLt
  omega

/-- In every run of callers that hold the references they give up, and in every PML4, `KERNBASE`
plus a physical address is mapped to this address. -/
theorem direct_map_survives (mm₀ mm : Mm) (physfree memEnd : Word) (smaps : List Smap)
    (hboot : mm₀.initMem physfree smaps memEnd = some mm) (hend : memEnd.toNat ≤ 2^31)
    (ops : List KernelOp) (hown : Along step Owned (boot mm) ops) (s : KernelSys)
    (hv : Visits step (boot mm) ops s) : s.mm.pageCount = mm.pageCount ∧
      ∀ x : Word, x.toNat < mm.pageCount * 4096 →
        s.mm.getMapping s.mm.kpmlAddr (kernBase + x) = x ∧
        ∀ r ∈ s.roots, s.mm.getMapping (convertVA r) (kernBase + x) = x := by
  obtain ⟨k, hd, hk, hpc⟩ := Mm.direct_initMem hboot
  have hstep : ∀ s op s', (∃ held, Kept mm k s held) → s.Owned op → s.step op = some s' →
      ∃ held, Kept mm k s' held := fun _ _ _ ⟨_, hkept⟩ ho hs => hkept.step ho hs
  obtain ⟨held, h⟩ := hv.invariant hown hstep ⟨_, kept_boot hd hk⟩
  have hcount : mm.pageCount ≤ 2^19 := hpc ▸ Mm.bootCount_le hend
  rw [h.consts.2]
  exact ⟨h.consts.1, fun x hx => ⟨h.getMapping hd hcount hx (.inr rfl), fun r hr =>
    h.getMapping hd hcount hx (.inl hr)⟩⟩

/-- A process gets a page and is torn down. -/
def smallTeardown : List KernelOp :=
  [.createNewPmlTable, .kmalloc, .setMapping 6 0x400000 (getPA 7) 7, .clearMapping 6]

/-- The teardown of a process leaves the direct map. -/
theorem direct_map_survives_teardown : ∃ mm s, Mm.smallMachine = some mm ∧
    run step (boot mm) smallTeardown = some s ∧
    s.mm.getMapping s.mm.kpmlAddr (kernBase + 0x5123) = 0x5123 := by
  have hrun : (Mm.smallMachine.bind fun mm => (run step (boot mm) smallTeardown).map fun _ =>
      (decide (Along step Owned (boot mm) smallTeardown), mm.pageCount)) = some (true, 24) := by
    decide +kernel
  obtain ⟨mm, hmm, hmap⟩ := Option.bind_eq_some_iff.mp hrun
  obtain ⟨s, hs, hval⟩ := Option.map_eq_some_iff.mp hmap
  obtain ⟨hown, hpc⟩ := Prod.mk.inj hval
  exact ⟨mm, s, hmm, hs, ((direct_map_survives _ mm _ _ _ hmm (by decide) _
    (of_decide_eq_true hown) s (Runs.visits_of_run hs)).2 0x5123 (by rw [hpc]; decide)).1⟩

/-! ## Callers that do not hold the references -/

/-- A frame that the kernel holds is mapped by a caller without a reference of its own. The teardown
then takes the kernel's reference and clears the frame, and leaves the other frames that the kernel
holds. -/
theorem mem_clearMapping_of_unowned {s s₁ : Mm} (h : s.Accounted {r} held) (hf : f < s.pageCount)
    (hnot : ¬ s.IsTable (User {r}) f) (hheld : held f = 1) (hv : (vpage va).InUser)
    (hnone : s.leaf r (vpage va) = none) (hs : s.setMapping (convertVA r) va (getPA f) 7 = some s₁) :
    (s₁.clearMapping (convertVA r)).mem f = Bytes.zero ∧
      (∀ g < s.pageCount, g ≠ f → ¬ s.IsTable (User {r}) g → 1 ≤ held g →
        (s₁.clearMapping (convertVA r)).mem g = s.mem g) ∧
      (s₁.clearMapping (convertVA r)).kpmlAddr = s.kpmlAddr := by
  have hr : r ∈ ({r} : Finset ℕ) := Finset.mem_singleton_self r
  obtain ⟨s₂, held₂, t, hgrown, hw, rfl⟩ := h.setMapping hr hv hs
  have hb := h.lt_two_pow hf
  have hused : ∀ g < s.pageCount, 1 ≤ held g → s.refCount g ≠ 0 := fun g hg h1 => by
    have := h.count g hg
    omega
  have h0 := hused f hf (le_of_eq hheld.symm)
  have hnew : (Mm.present? (getPA f ||| 7)).map frameOf = some f := by
    rw [Mm.present?, if_pos (Mm.present_or_seven _), Option.map_some, Mm.frameOf_or (by decide),
      frameOf_getPA hb]
  have hold : s₂.leafFrame (r, vpage va) = none := by
    rw [Mm.leafFrame, hgrown.leaf r hr _ hv, hnone, Option.map_none]
  -- The entry takes the reference of the kernel.
  have ha : (s₂.setEntry t (vpage va).pte (getPA f ||| 7)).Accounted {r}
      (Function.update held₂ f 0) := by
    refine hgrown.account.setLeaf hr hv hw (fun g => ?_) fun g hg => ?_
    · have hne : (none : Option ℕ) ≠ some g := by simp
      rw [hnew, hold, if_neg hne]
      by_cases hgf : g = f
      · rw [hgf, Function.update_self, if_pos rfl, (hgrown.used f h0).2, hheld]
      · rw [Function.update_of_ne hgf, if_neg fun hc => hgf (Option.some.inj hc).symm]
    · obtain rfl := Option.some.inj (hnew.symm.trans hg)
      exact ⟨hgrown.consts.1 ▸ hf, hgrown.not_isTable _ h0 hnot⟩
  have htable : ∀ g < s.pageCount, 1 ≤ held g → ¬ s.IsTable (User {r}) g →
      ¬ (s₂.setEntry t (vpage va).pte (getPA f ||| 7)).IsTable (User {r}) g := by
    rintro g hg h1 hgt ⟨n, p, hn, hm⟩
    rw [Mm.table_setLeaf (positions_user _) hgrown.account.separate (user_dir hr hv) hw hn] at hm
    exact hgrown.not_isTable g (hused g hg h1) hgt ⟨n, p, hn, hm⟩
  -- After the teardown nothing is mapped, so the counts are what the kernel holds.
  have hp := ha.clearMapping hr
  generalize (s₂.setEntry t (vpage va).pte (getPA f ||| 7)).clearMapping (convertVA r) = s' at hp
  obtain ⟨held', ha', hheld'⟩ := hp.account
  have hcount : ∀ g < s.pageCount, ¬ (s₂.setEntry t (vpage va).pte (getPA f ||| 7)).IsTable
      (User {r}) g → s'.refCount g = Function.update held₂ f 0 g := by
    intro g hg hgt
    have hzero : s'.leafCount {r} g = 0 := by
      by_contra hne
      obtain ⟨n, v, e, hn, hvu, he, -⟩ := Mm.exists_of_leafCount_pos (Nat.pos_of_ne_zero hne)
      obtain rfl := Finset.mem_singleton.mp hn
      rw [hp.leaf_gone v hvu (by simp [VPage.path])] at he
      cases he
    have hlt : g < s'.pageCount := by
      rw [hp.consts.1]
      exact hgrown.consts.1 ▸ hg
    rw [ha'.count g hlt, hzero, hheld' g hgt, Nat.zero_add]
  refine ⟨?_, fun g hg hgf hgt h1 => ?_, hp.consts.2.trans hgrown.consts.2⟩
  · have hgt := htable f hf (le_of_eq hheld.symm) hnot
    have h2 : s₂.refCount f ≠ 0 := by
      rw [(hgrown.used f h0).1]
      exact h0
    rw [hp.mem f hgt, hcount f hf hgt, Function.update_self]
    exact if_pos ⟨rfl, h2⟩
  · have hgt' := htable g hg h1 hgt
    have hg0 := hused g hg h1
    have hgt₂ : g ≠ t := fun hc => hgrown.not_isTable g hg0 hgt (hc ▸ ⟨r, _, user_dir hr hv, hw⟩)
    rw [hp.mem_of_used hgt' ?_]
    · exact (Function.update_of_ne hgt₂ ..).trans (hgrown.mem g hg0 hgt)
    · rw [hcount g hg hgt', Function.update_of_ne hgf, (hgrown.used g hg0).2]
      omega

/-- A caller maps the frame of a kernel table, to which it holds no reference, and the address space
is torn down. -/
def smallMisuse : List KernelOp :=
  [.createNewPmlTable, .setMapping 6 0x400000 (getPA 3) 7, .clearMapping 6]

/-- Without the condition on callers, the direct map does not survive: the teardown clears the
kernel's table of level 3, and the walk for physical address `0x1000` then goes through frame 0. -/
theorem direct_map_lost : ¬ ∀ (mm₀ mm : Mm) (physfree memEnd : Word) (smaps : List Smap),
    mm₀.initMem physfree smaps memEnd = some mm → memEnd.toNat ≤ 2^31 →
    ∀ (ops : List KernelOp) (s : KernelSys), run step (boot mm) ops = some s →
    ∀ x : Word, x.toNat < mm.pageCount * 4096 →
      s.mm.getMapping s.mm.kpmlAddr (kernBase + x) = x := by
  intro hall
  -- The state at boot.
  have hsmall : (Mm.smallMachine.map fun mm => (mm.freePageHead, mm.pageCount, mm.kpmlAddr,
      mm.refCount 0, mm.refCount 2, mm.refCount 3)) = some (some 6, 24, convertVA 2, 1, 1, 1) := by
    decide +kernel
  have htables : (Mm.smallMachine.map fun mm => (mm.tbl 2 kernelIdx, mm.tbl 0 0, mm.tbl 0 1)) =
      some (getPA 3 ||| 7, 0, 0) := by decide +kernel
  have hrun : (Mm.smallMachine.bind fun mm => run step (boot mm) smallMisuse).isSome := by
    decide +kernel
  obtain ⟨mm, hmm, hval⟩ := Option.map_eq_some_iff.mp hsmall
  simp only [Prod.mk.injEq] at hval
  obtain ⟨hg, hpc, hk, hr0, hr2, hr3⟩ := hval
  rw [hmm, Option.map_some, Option.some.injEq, Prod.mk.injEq, Prod.mk.injEq] at htables
  obtain ⟨h2, h00, h01⟩ := htables
  rw [hmm, Option.bind_some] at hrun
  obtain ⟨s, hs⟩ := Option.isSome_iff_exists.mp hrun
  have hmap := hall _ mm _ _ _ hmm (by decide) _ s hs 0x1000 (by rw [hpc]; decide)
  -- The three actions.
  obtain ⟨k, hd, -⟩ := Mm.direct_initMem hmm
  obtain ⟨l, hl⟩ := hd.inUse.free
  have hacc := Mm.accounted_empty hl
  have hb : 6 < 2^52 := by decide
  simp only [smallMisuse, Runs.run_cons, Runs.run_nil, Option.bind_eq_some_iff, step, boot,
    Mm.createNewPmlTable_eq hg hb, Option.map_some, Option.some.injEq, exists_eq_left',
    Option.ite_none_right_eq_some, Option.map_eq_some_iff] at hs
  generalize (mm.takeHead 6 (convertVA 6)).kread (mm.kpmlAddr + 8 * 511) = e at hs
  obtain ⟨s₁, ⟨⟨-, hv⟩, mm₁, hmm₁, rfl⟩, s₂, ⟨-, rfl⟩, rfl⟩ := hs
  have h : (mm.newPml 6 e).Accounted {6} (Function.update mm.refCount 6 1) := hacc.newPml hg
  have hnot : ∀ g, g ≠ 6 → ¬ (mm.newPml 6 e).IsTable (User {6}) g := by
    rintro g hne ⟨n, p, hn, hw⟩
    rcases hacc.table_newPml hg hn hw with ⟨-, -, hc⟩ | ⟨hu, -⟩
    · exact hne hc
    · exact absurd hu.1 (Finset.notMem_empty n)
  have hlt : ∀ g, g < 24 → g < (mm.newPml 6 e).pageCount := fun g hg24 => hpc.symm ▸ hg24
  obtain ⟨hzero, hkept, hkpml⟩ := mem_clearMapping_of_unowned h (hlt 3 (by decide))
    (hnot 3 (by decide)) (by rw [Function.update_of_ne (by decide), hr3]) hv
    (Mm.leaf_newPml_self hb hv) hmm₁
  -- The kernel's PML4 and frame 0 are as they were.
  have htbl2 := Mm.tbl_congr ((hkept 2 (hlt 2 (by decide)) (by decide) (hnot 2 (by decide))
    (by rw [Function.update_of_ne (by decide), hr2])).trans (Mm.mem_newPml_of_ne hb (by decide)))
  have htbl0 := Mm.tbl_congr ((hkept 0 (hlt 0 (by decide)) (by decide) (hnot 0 (by decide))
    (by rw [Function.update_of_ne (by decide), hr0])).trans (Mm.mem_newPml_of_ne hb (by decide)))
  generalize mm₁.clearMapping (convertVA 6) = mm₂ at *
  have hframe3 : frameOf (getPA 3 ||| 7) = 3 := by decide
  have hframe0 : frameOf 0 = 0 := by decide
  have hidx39 : vidx 39 (kernBase + 0x1000) = kernelIdx := by decide
  have hidx21 : vidx 21 (kernBase + 0x1000) = 0 := by decide
  have hidx12 : vidx 12 (kernBase + 0x1000) = 1 := by decide
  have hwalk : mm₂.getMapping mm₂.kpmlAddr (kernBase + 0x1000) = 0 := by
    rw [hkpml.trans hk, Mm.getMapping_eq_tbl (by decide), hidx39, hidx21, hidx12, htbl2, h2, hframe3,
      Mm.tbl_of_zero hzero, hframe0, htbl0, h00, hframe0, htbl0, h01]
    decide
  exact absurd (hwalk.symm.trans hmap) (by decide)

end KernelSys

end Nascent
