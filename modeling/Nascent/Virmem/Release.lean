import Nascent.Virmem.Map
import Nascent.Virmem.Mapping
import Nascent.Virmem.Teardown

/-!
# What a teardown releases

`Pruned` says what a teardown leaves of the tables and of the other frames. Here is what it makes of the
frames of the tables that are gone: each is cleared and has the count 0 (`Freed`). The proof goes along the
loops of `clear_mapping` once more. A table is released after the loop below it, and what comes later does
not touch it, since it is not a table any more.

With this, a teardown is exact (`clearMapping_exact`). Nothing in it depends on the free list, so the result
holds whatever the list is (`forget`).
-/

namespace Nascent

namespace Mm

variable {s s' s₁ s₂ : Mm} {roots : Finset ℕ} {held held₁ : ℕ → ℕ} {f r t : ℕ} {v : VPage} {i : Idx}
  {q : List Idx} {D D₁ D₂ : List Idx → Prop}

/-! ## The tables that are gone -/

/-- The walk goes on from the table it has reached. -/
theorem table_append (s : Mm) (r : ℕ) (p q : List Idx) :
    s.table r (p ++ q) = (s.table r p).bind fun t => s.table t q := Radix.walk_append

/-- The tables at the positions `D` of the state `s` are cleared and unused in the state `s'`. -/
def Freed (s : Mm) (roots : Finset ℕ) (r : ℕ) (D : List Idx → Prop) (s' : Mm) : Prop :=
  ∀ p t, User roots r p → D p → s.table r p = some t → s'.refCount t = 0 ∧ s'.mem t = Bytes.zero

/-- A frame that is cleared and unused stays so while tables are pruned. -/
theorem Pruned.unused_kept (h : s.Pruned roots held r D s') (ha : s.Accounted roots held)
    (h0 : s.refCount f = 0) (hz : s.mem f = Bytes.zero) :
    s'.refCount f = 0 ∧ s'.mem f = Bytes.zero := by
  have hnot : ¬ s.IsTable (User roots) f := fun ht => by
    have hone := (ha.table f ht).2.1
    rw [h0] at hone
    cases hone
  refine ⟨Nat.le_zero.mp (h0 ▸ h.refCount_le f), ?_⟩
  rw [h.mem f hnot, if_neg fun hc => hc.2 h0, hz]

/-- Two steps release the tables at the positions of both. -/
theorem Freed.trans (h₁ : s.Freed roots r D₁ s₁) (hp₁ : s.Pruned roots held r D₁ s₁)
    (ha₁ : s₁.Accounted roots held₁) (hp₂ : s₁.Pruned roots held₁ r D₂ s₂)
    (h₂ : s₁.Freed roots r D₂ s₂) : s.Freed roots r (fun p => D₁ p ∨ D₂ p) s₂ := by
  intro p t hp hD hw
  by_cases hD₁ : D₁ p
  · obtain ⟨h0, hz⟩ := h₁ p t hp hD₁ hw
    exact hp₂.unused_kept ha₁ h0 hz
  · refine h₂ p t hp (hD.resolve_left hD₁) ?_
    rw [hp₁.table_kept r p hp fun hc => hD₁ hc.2, hw]

/-- The positions matter on the paths of the user half only. -/
theorem Freed.congr (h : s.Freed roots r D₁ s') (hD : ∀ p, p.head? ≠ some kernelIdx → (D₂ p → D₁ p)) :
    s.Freed roots r D₂ s' := fun p t hp hd hw => h p t hp (hD p hp.2.2 hd) hw

/-- What a loop of `clear_mapping` over the table at a path of `k` indices releases. -/
def Frees (roots : Finset ℕ) (k : ℕ) (clear : Word → Mm → Mm) : Prop :=
  ∀ s held r q t, Accounted s roots held → User roots r q → q.length = k → s.table r q = some t →
    s.Freed roots r (fun p => q <+: p ∧ p ≠ q) (clear (convertVA t) s)

/-- What one entry of a loop releases. -/
def FreesEntry (roots : Finset ℕ) (below : Word → Mm → Mm) (r : ℕ) (q : List Idx) (i : Idx) : Prop :=
  ∀ s held t, Accounted s roots held → s.table r q = some t →
    s.Freed roots r (q ++ [i] <+: ·) (clearEntry below (convertVA t) s i)

/-- The loop releases what its entries release. -/
theorem freed_clearLoop {below : Word → Mm → Mm} (hq : User roots r q) {n : ℕ} (hn : n ≤ 512)
    (hclear : ∀ i : Idx, (i : ℕ) < n → ClearsEntry roots below r q i)
    (hentry : ∀ i : Idx, (i : ℕ) < n → FreesEntry roots below r q i)
    (h : s.Accounted roots held) (hw : s.table r q = some t) :
    s.Freed roots r (fun p => ∃ i : Idx, (i : ℕ) < n ∧ q ++ [i] <+: p)
      (clearLoop below n (convertVA t) s) := by
  induction n with
  | zero =>
    rintro p t - ⟨i, hi, -⟩
    omega
  | succ n ih =>
    have hclear' : ∀ i : Idx, (i : ℕ) < n → ClearsEntry roots below r q i :=
      fun i hi => hclear i (by omega)
    have hfreed := ih (by omega) hclear' fun i hi => hentry i (by omega)
    have hp := pruned_clearLoop hq (by omega) hclear' h hw
    obtain ⟨held₁, ha, hh⟩ := hp.account
    have hw₁ : (clearLoop below n (convertVA t) s).table r q = some t := by
      rw [hp.table_kept r q hq, hw]
      rintro ⟨-, i, -, hle⟩
      have := hle.length_le
      rw [List.length_append, List.length_singleton] at this
      omega
    have hstep := hclear ⟨n, by omega⟩ (Nat.lt_succ_self n) _ held₁ t ha hw₁
    have hrelease := hentry ⟨n, by omega⟩ (Nat.lt_succ_self n) _ held₁ t ha hw₁
    have hloop : clearLoop below (n + 1) (convertVA t) s =
        clearEntry below (convertVA t) (clearLoop below n (convertVA t) s) n := by
      simp only [clearLoop, List.range_succ, List.foldl_append, List.foldl_cons, List.foldl_nil]
    rw [hloop]
    refine (hfreed.trans hp ha hstep hrelease).congr fun p _ => ?_
    rintro ⟨i, hi, hle⟩
    rcases Nat.lt_succ_iff_lt_or_eq.mp hi with hi | hi
    · exact .inl ⟨i, hi, hle⟩
    · have hin : i = ⟨n, by omega⟩ := Fin.ext hi
      exact .inr (hin ▸ hle)

/-- There are no tables below an entry of a page table. -/
theorem freesEntry_page (hlen : q.length = 3) (i : Idx) : FreesEntry roots (fun _ s => s) r q i := by
  intro s held t _ _ p t' hp hle _
  have hlong := hle.length_le
  rw [List.length_append, List.length_singleton] at hlong
  have hshort := hp.2.1
  omega

/-- The release of the table below an entry. -/
theorem Accounted.freed_unlink {t' : ℕ} (h : s.Accounted roots held) (hq : User roots r (q ++ [i]))
    (hw' : s.table r (q ++ [i]) = some t') (hblank : ∀ j, present (s.tbl t' j) = false) :
    s.Freed roots r (q ++ [i] <+: ·) ((s.setEntry t i 0).freePage (convertVA t')) := by
  obtain ⟨hlt, hone, -⟩ := h.table t' ⟨r, _, hq, hw'⟩
  have hb := h.lt_two_pow hlt
  rintro p t₁ - ⟨p', rfl⟩ hw₁
  -- The table is empty, so there is none below it.
  have hnil : p' = [] := by
    by_contra hne
    have hnone : s.table t' p' = none :=
      Radix.walk_blank (fun j => by rw [child, hblank j]; rfl) hne
    rw [table_append, hw', Option.bind_some, hnone] at hw₁
    cases hw₁
  rw [hnil, List.append_nil, hw'] at hw₁
  obtain rfl := Option.some.inj hw₁
  have hcount : (s.setEntry t i 0).refCount t' = 1 := hone
  rw [refCount_freePage hb, Function.update_self, hcount, mem_freePage_of_last hb hcount.le]
  exact ⟨rfl, rfl⟩

/-- The entries of an upper table, with the loop below. -/
theorem freesEntry_table {below : Word → Mm → Mm} (hq : User roots r (q ++ [i]))
    (hclears : Clears roots (q.length + 1) below) (hfrees : Frees roots (q.length + 1) below) :
    FreesEntry roots below r q i := by
  intro s held t h hw
  cases hp : present (s.tbl t i) with
  | false =>
    rintro p t₁ - ⟨p', rfl⟩ hw₁
    have hnone : s.table r (q ++ [i]) = none := by
      rw [table, Radix.walk_snoc_of hw, child, hp]
      rfl
    rw [table_append, hnone] at hw₁
    cases hw₁
  | true =>
    obtain ⟨t', s₁, rfl, heq, hpr, hw', hw₁, hw₁', hblank, -⟩ := hclears.entry h hq hw hp
    have hfr := hfrees s held r (q ++ [i]) t' h hq (by simp) hw'
    obtain ⟨held₁, ha, -⟩ := hpr.account
    rw [heq]
    exact (hfr.trans hpr ha (ha.pruned_unlink hq hw₁ hw₁' hblank)
      (ha.freed_unlink hq hw₁' hblank)).congr fun p _ hle => .inr hle

/-- The loop over a page table. -/
theorem frees_clearPte : Frees roots 3 clearPte := by
  intro s held r q t h hq hlen hw
  exact (freed_clearLoop hq (le_refl _) (fun i _ => clearsEntry_page hq hlen i)
    (fun i _ => freesEntry_page hlen i) h hw).congr fun p _ => (exists_prefix_iff q p).mpr

/-- The loop over an upper table other than the PML4. -/
theorem Frees.loop {k : ℕ} {below : Word → Mm → Mm} (hfrees : Frees roots (k + 1) below)
    (hclears : Clears roots (k + 1) below) (h0 : 0 < k) (hk : k ≤ 2) :
    Frees roots k (clearLoop below 512) := by
  intro s held r q t h hq hlen hw
  have hentry : ∀ i : Idx, User roots r (q ++ [i]) := by
    intro i
    refine ⟨hq.1, ?_, ?_⟩
    · rw [List.length_append, List.length_singleton]
      omega
    · cases q with
      | nil =>
        rw [List.length_nil] at hlen
        omega
      | cons j q => exact hq.2.2
  exact (freed_clearLoop hq (le_refl _) (fun i _ => clearsEntry_table (hentry i) (hlen ▸ hclears))
    (fun i _ => freesEntry_table (hentry i) (hlen ▸ hclears) (hlen ▸ hfrees)) h hw).congr
    fun p _ => (exists_prefix_iff q p).mpr

/-- `clear_mapping` releases all tables below the PML4, but for those below the kernel's entry. -/
theorem Accounted.freed_clearMapping (h : s.Accounted roots held) (hr : r ∈ roots) :
    s.Freed roots r (fun p => p ≠ []) (s.clearMapping (convertVA r)) := by
  have hq : User roots r [] := ⟨hr, by simp, by simp⟩
  have hpde : Clears roots 2 clearPde := clears_clearPte.loop (by omega) (le_refl _)
  have hpdpte : Clears roots 1 clearPdpte := hpde.loop (by omega) (by omega)
  have hfrees : Frees roots 1 clearPdpte :=
    (frees_clearPte.loop clears_clearPte (by omega) (le_refl _)).loop hpde (by omega) (by omega)
  have hb := h.root_lt hr
  rw [Mm.clearMapping, scldn_convertVA hb]
  have hentry : ∀ i : Idx, (i : ℕ) < 511 → User roots r ([] ++ [i]) := by
    refine fun i hi => ⟨hr, by simp, fun hhead => ?_⟩
    have : i = kernelIdx := Option.some.inj hhead
    rw [this] at hi
    exact absurd hi (by decide)
  refine (freed_clearLoop hq (by omega) (fun i hi => clearsEntry_table (hentry i hi) hpdpte)
    (fun i hi => freesEntry_table (hentry i hi) hpdpte hfrees) h rfl).congr fun p hp hne => ?_
  cases p with
  | nil => exact (hne rfl).elim
  | cons i p =>
    refine ⟨i, ?_, p, rfl⟩
    have hik : i ≠ kernelIdx := fun hik => hp (congrArg some hik)
    have : (i : ℕ) ≠ 511 := fun hi => hik (Fin.ext hi)
    have := i.isLt
    omega

/-! ## The free list does not matter -/

/-- The state without its free list. -/
def forget (s : Mm) : Mm := { s with next := fun _ => none, freePageHead := none, freePageEnd := none }

/-- `free_page` without the free list. -/
theorem forget_freePage (s : Mm) (a : Word) : (s.freePage a).forget = s.forget.freePage a := by
  by_cases hr : s.refCount (getPageFromPA (scldn (a - kernBase))) > 1
  · have hleft : s.freePage a = _ := if_pos hr
    have hright : s.forget.freePage a = _ := if_pos hr
    rw [hleft, hright]
    rfl
  · have hleft : s.freePage a = _ := if_neg hr
    have hright : s.forget.freePage a = _ := if_neg hr
    rw [hleft, hright]
    simp only [forget, addToFreePages, memsetPage]
    congr 1
    exact (Function.update_eq_self _ _).symm

/-- One entry of a loop of `clear_mapping` without the free list. -/
theorem forget_clearEntry {below : Word → Mm → Mm} (hbelow : ∀ a s, (below a s).forget = below a s.forget)
    (table : Word) (s : Mm) (i : ℕ) :
    (clearEntry below table s i).forget = clearEntry below table s.forget i := by
  have hwrite : ∀ (s : Mm) (a v : Word), (s.kwrite a v).forget = s.forget.kwrite a v := fun _ _ _ => rfl
  have hread : ∀ (s : Mm) (a : Word), s.forget.kread a = s.kread a := fun _ _ => rfl
  unfold clearEntry
  simp only [hread]
  split_ifs
  · rfl
  · simp only [hwrite, forget_freePage, ← hbelow, hread]

/-- A loop of `clear_mapping` without the free list. -/
theorem forget_clearLoop {below : Word → Mm → Mm} (hbelow : ∀ a s, (below a s).forget = below a s.forget)
    (n : ℕ) (a : Word) (s : Mm) : (clearLoop below n a s).forget = clearLoop below n a s.forget := by
  unfold clearLoop
  induction List.range n generalizing s with
  | nil => rfl
  | cons i l ih => rw [List.foldl_cons, List.foldl_cons, ih, forget_clearEntry hbelow]

/-- `clear_mapping` without the free list. -/
theorem forget_clearMapping (s : Mm) (a : Word) :
    (s.clearMapping a).forget = s.forget.clearMapping a := by
  have hpte := @forget_clearLoop (fun _ s => s) (fun _ _ => rfl) 512
  have hpde := forget_clearLoop hpte 512
  exact forget_clearLoop (forget_clearLoop hpde 512) 511 _ s

/-! ## The teardown -/

/-- The positions of the tables under the kernel's entry of a PML4. -/
def Kernel (r n : ℕ) (p : List Idx) : Prop := n = r ∧ p.length ≤ 3 ∧ p.head? = some kernelIdx

/-- The user half of a PML4 is a tree, apart from what is under the kernel's entry. -/
structure UserTree (s : Mm) (r : ℕ) : Prop where
  /-- `page_count` is an `int`. -/
  bound : s.pageCount < 2^31
  /-- No table is reached in two ways. -/
  distinct : s.Separate (User {r})
  /-- The tables are frames of the machine. -/
  table_lt : ∀ t, s.IsTable (User {r}) t → t < s.pageCount
  /-- Each table has one reference. -/
  table_ref : ∀ t, s.IsTable (User {r}) t → s.refCount t = 1
  /-- No page is mapped to a table. -/
  table_unmapped : ∀ t, s.IsTable (User {r}) t → s.leafCount {r} t = 0
  /-- The tables under the kernel's entry are frames of the machine. -/
  kernel_lt : ∀ t, s.IsTable (Kernel r) t → t < s.pageCount
  /-- They are other frames, -/
  kernel_other : ∀ t, s.IsTable (Kernel r) t → ¬ s.IsTable (User {r}) t
  /-- and no page is mapped to them. -/
  kernel_unmapped : ∀ t, s.IsTable (Kernel r) t → s.leafCount {r} t = 0
  /-- Pages are mapped to frames of the machine. -/
  mapped_lt : ∀ f, 0 < s.leafCount {r} f → f < s.pageCount
  /-- A frame has a reference for each entry that points to it. -/
  mapped_ref : ∀ f, s.leafCount {r} f ≤ s.refCount f

namespace UserTree

variable (h : s.UserTree r)

include h

/-- The references that are not those of the tree are the kernel's. -/
theorem accounted : s.forget.Accounted {r} fun f => s.refCount f - s.leafCount {r} f := by
  refine ⟨⟨[], rfl, ?_, ?_, h.bound⟩, h.distinct, fun f _ => ?_, fun t ht => ?_, h.mapped_lt⟩
  · exact fun f hf => absurd hf List.not_mem_nil
  · exact fun f hf => absurd hf List.not_mem_nil
  · exact (Nat.add_sub_of_le (h.mapped_ref f)).symm
  · refine ⟨h.table_lt t ht, h.table_ref t ht, ?_⟩
    rw [h.table_ref t ht, h.table_unmapped t ht]

/-- After the teardown no page of the user half is mapped. -/
theorem leafCount_gone
    (hp : s.forget.Pruned {r} (fun f => s.refCount f - s.leafCount {r} f) r (fun p => p ≠ []) s₁) :
    s₁.leafCount {r} f = 0 := by
  by_contra hpos
  obtain ⟨n, v, e, hn, hv, he, -⟩ := exists_of_leafCount_pos (Nat.pos_of_ne_zero hpos)
  obtain rfl := Finset.mem_singleton.mp hn
  rw [hp.leaf_gone v hv (by simp [VPage.path])] at he
  cases he

/-- A frame that is no table loses the references of the tree. -/
theorem refCount_other
    (hp : s.forget.Pruned {r} (fun f => s.refCount f - s.leafCount {r} f) r (fun p => p ≠ []) s₁)
    (hf : f < s.pageCount) (hnot : ¬ s.IsTable (User {r}) f) :
    s₁.refCount f = s.refCount f - s.leafCount {r} f := by
  obtain ⟨held₁, ha, hheld⟩ := hp.account
  rw [ha.count f (hp.consts.1 ▸ hf), h.leafCount_gone hp, hheld f hnot, Nat.zero_add]

end UserTree

/-- The state `s'` is the state `s` with the user half of a PML4 torn down: no page of it is mapped any more,
the kernel's entry and what is under it stay, a mapped frame loses one reference for each entry that pointed
to it, the tables are cleared and released, and everything else is as it was. -/
structure TornDown (s : Mm) (r : ℕ) (s' : Mm) : Prop where
  /-- No page of the user half is mapped. -/
  gone : ∀ va : Word, (vpage va).pml4 ≠ kernelIdx → s'.getPteEntry (convertVA r) va = none
  /-- The kernel's entry stays. -/
  kernel : s'.tbl r kernelIdx = s.tbl r kernelIdx
  /-- The tables under it stay, with their contents. -/
  kernel_tables : ∀ n p, Kernel r n p → s'.table n p = s.table n p ∧
    ∀ t, s.table n p = some t → s'.mem t = s.mem t ∧ s'.refCount t = s.refCount t
  /-- A mapped frame loses one reference for each entry that pointed to it, and keeps its contents while it
  has any. -/
  mapped : ∀ f, 0 < s.leafCount {r} f → s'.refCount f + s.leafCount {r} f = s.refCount f ∧
    (0 < s'.refCount f → s'.mem f = s.mem f)
  /-- The tables below the PML4 are released and cleared. -/
  tables : ∀ t, s.IsTable (User {r}) t → t ≠ r → s'.refCount t = 0 ∧ s'.mem t = Bytes.zero
  /-- The PML4 keeps its reference. -/
  root : s'.refCount r = s.refCount r
  /-- The other frames are as they were. -/
  others : ∀ f < s.pageCount, s.leafCount {r} f = 0 → ¬ s.IsTable (User {r}) f →
    s'.refCount f = s.refCount f ∧ s'.mem f = s.mem f

/-- The teardown, by what it prunes and what it releases. -/
theorem UserTree.tornDown (h : s.UserTree r)
    (hp : s.forget.Pruned {r} (fun f => s.refCount f - s.leafCount {r} f) r (fun p => p ≠ []) s'.forget)
    (hfreed : s.forget.Freed {r} r (fun p => p ≠ []) s'.forget) : s.TornDown r s' := by
  have hother : ∀ f < s.pageCount, s.leafCount {r} f = 0 → ¬ s.IsTable (User {r}) f →
      s'.refCount f = s.refCount f ∧ s'.mem f = s.mem f := by
    intro f hf h0 hnot
    have href : s'.refCount f = s.refCount f := by
      have hrc := h.refCount_other hp hf hnot
      rw [h0, Nat.sub_zero] at hrc
      exact hrc
    refine ⟨href, (hp.mem f hnot).trans (if_neg fun hc => hc.2 ?_)⟩
    exact href.symm.trans hc.1
  have hroot : s.IsTable (User {r}) r := Accounted.isTable_root (Finset.mem_singleton_self r)
  have hr : r < 2^52 := by
    have hlt := h.table_lt r hroot
    have hbound := h.bound
    omega
  have hkernel : s'.tbl r kernelIdx = s.tbl r kernelIdx := hp.kernel r (Finset.mem_singleton_self r)
  have htable : ∀ t, s.IsTable (Kernel r) t → s'.mem t = s.mem t ∧ s'.refCount t = s.refCount t :=
    fun t ht => (hother t (h.kernel_lt t ht) (h.kernel_unmapped t ht) (h.kernel_other t ht)).symm
  refine ⟨fun va hva => ?_, hkernel, fun n p hn => ⟨?_, fun t ht => htable t ⟨n, p, hn, ht⟩⟩,
    fun f hf => ?_, fun t ht hne => ?_, ?_, hother⟩
  · rw [getPteEntry_eq hr]
    exact hp.leaf_gone (vpage va) hva (by simp [VPage.path])
  · -- The walk to the table reads the kernel's entry, and then tables under it.
    obtain ⟨rfl, hlen, hhead⟩ := hn
    refine Radix.walk_congr fun q i p' m hpq hw => ?_
    cases q with
    | nil =>
      obtain rfl := Option.some.inj hw
      rw [hpq] at hhead
      obtain rfl : i = kernelIdx := Option.some.inj hhead
      exact hkernel
    | cons j q =>
      have hm : s.IsTable (Kernel n) m := by
        refine ⟨n, j :: q, ⟨rfl, ?_, ?_⟩, hw⟩
        · rw [hpq, List.length_append] at hlen
          omega
        · rw [hpq] at hhead
          exact hhead
      exact congrFun (tbl_congr (htable m hm).1) i
  · have hnot : ¬ s.IsTable (User {r}) f := fun ht => hf.ne' (h.table_unmapped f ht)
    have href : s'.forget.refCount f = s.refCount f - s.leafCount {r} f :=
      h.refCount_other hp (h.mapped_lt f hf) hnot
    replace href : s'.refCount f = s.refCount f - s.leafCount {r} f := href
    refine ⟨?_, fun hpos => (hp.mem f hnot).trans (if_neg fun hc => hpos.ne' hc.1)⟩
    rw [href, Nat.sub_add_cancel (h.mapped_ref f)]
  · obtain ⟨n, p, hn, hw⟩ := ht
    obtain rfl := Finset.mem_singleton.mp hn.1
    refine hfreed p t hn (fun hnil => hne ?_) hw
    rw [hnil] at hw
    exact (Option.some.inj hw).symm
  · obtain ⟨held₁, ha, -⟩ := hp.account
    have hone := (ha.table r (Accounted.isTable_root (Finset.mem_singleton_self r))).2.1
    rw [h.table_ref r hroot]
    exact hone

/-- The teardown of an address space is exact. -/
theorem clearMapping_exact (h : s.UserTree r) : s.TornDown r (s.clearMapping (convertVA r)) := by
  have hp := h.accounted.clearMapping (Finset.mem_singleton_self r)
  have hfreed := h.accounted.freed_clearMapping (Finset.mem_singleton_self r)
  rw [← forget_clearMapping] at hp hfreed
  exact h.tornDown hp hfreed

/-! ## A small address space -/

/-- A memory whose PML4 in frame 0 is empty has one address space, without pages. -/
theorem accounted_of_zero {l : List ℕ} (hzero : s.mem 0 = Bytes.zero) (hl : s.FreeChain l)
    (hroot : 0 < s.pageCount ∧ s.refCount 0 = 1) : s.Accounted {0} s.refCount := by
  have htable : ∀ n p t, User {0} n p → s.table n p = some t → p = [] ∧ t = 0 := by
    rintro n p t ⟨hn, hlen, -⟩ hw
    exact table_of_zero hzero ⟨Finset.mem_singleton.mp hn, hlen⟩ hw
  have hleaf : ∀ f, s.leafCount {0} f = 0 := by
    refine fun f => Nat.le_zero.mp (not_lt.mp fun hpos => ?_)
    obtain ⟨n, v, e, hn, hv, he, -⟩ := exists_of_leafCount_pos hpos
    obtain ⟨t, ht, -⟩ := Option.bind_eq_some_iff.mp he
    exact absurd (htable n v.dir t (user_dir hn hv) ht).1 (by simp [VPage.dir])
  refine ⟨⟨l, hl⟩, ?_, fun f _ => ?_, ?_, fun f hf => ?_⟩
  · intro n p n' p' t h h' hw hw'
    exact ⟨(Finset.mem_singleton.mp h.1).trans (Finset.mem_singleton.mp h'.1).symm,
      (htable n p t h hw).1.trans (htable n' p' t h' hw').1.symm⟩
  · rw [hleaf, Nat.zero_add]
  · rintro t ⟨n, p, hn, hw⟩
    rw [(htable n p t hn hw).2]
    exact ⟨hroot.1, hroot.2, hroot.2⟩
  · rw [hleaf] at hf
    exact absurd hf (Nat.lt_irrefl 0)

/-- The blank memory has one address space, without pages. -/
theorem accounted_blank : blank.Accounted {0} blank.refCount :=
  accounted_of_zero rfl freeChain_blank (by decide)

/-- A memory with an empty PML4 in frame 0 and the free frames 1 to 5. -/
def roomy : Mm :=
  { blank with
    next := fun f => if f < 5 then some (f + 1) else none
    freePageEnd := some 5
    pageCount := 6 }

theorem accounted_roomy : roomy.Accounted {0} roomy.refCount :=
  accounted_of_zero (l := [1, 2, 3, 4, 5]) rfl ⟨by decide, by decide, by decide, by decide⟩ (by decide)

/-- An address space in an account is a tree, where its PML4 has no entry for the kernel. -/
theorem Accounted.userTree (h : s.Accounted {r} held) (hk : child (s.tbl r kernelIdx) = none) :
    s.UserTree r := by
  have hnone : ∀ t, ¬ s.IsTable (Kernel r) t := by
    rintro t ⟨n, p, ⟨rfl, -, hhead⟩, hw⟩
    cases p with
    | nil => cases hhead
    | cons i p =>
      obtain rfl : i = kernelIdx := Option.some.inj hhead
      rw [Mm.table, Radix.walk_cons, hk] at hw
      cases hw
  obtain ⟨l, hl⟩ := h.free
  refine ⟨hl.bound, h.separate, fun t ht => (h.table t ht).1, fun t ht => (h.table t ht).2.1,
    fun t ht => h.leafCount_table ht, fun t ht => absurd ht (hnone t), fun t ht => absurd ht (hnone t),
    fun t ht => absurd ht (hnone t), h.leaf_lt, fun f => ?_⟩
  by_cases hf : 0 < s.leafCount {r} f
  · rw [h.count f (h.leaf_lt f hf)]
    exact Nat.le_add_right ..
  · omega

/-- A page is mapped in the blank memory and torn down again. -/
theorem clearMapping_exact_blank : ∃ (s : Mm) (v : VPage), v.InUser ∧ s.leaf 0 v = some (getPA 1 ||| 7) ∧
    s.TornDown 0 (s.clearMapping (convertVA 0)) := by
  obtain ⟨hgrown, hloose⟩ := accounted_blank.grown_alloc (g := 1) rfl
  have hsome : ((blank.takeHead 1 (convertVA 1)).setMapping (convertVA 0) 0x401000 (getPA 1) 7).isSome := by
    decide +kernel
  obtain ⟨s₂, hs₂⟩ := Option.isSome_iff_exists.mp hsome
  have hmem : (0 : ℕ) ∈ ({0} : Finset ℕ) := Finset.mem_singleton_self 0
  have hv : (vpage 0x401000).InUser := by decide
  obtain ⟨s₁, held₁, t, hg₁, hw, -⟩ := hgrown.account.setMapping hmem hv hs₂
  obtain ⟨hl₁, -⟩ := hloose.grown hgrown.account hg₁
  have hnew : (present? (getPA 1 ||| 7)).map frameOf = some 1 := by decide
  have hnone : s₁.leaf 0 (vpage 0x401000) = none := by
    rw [hg₁.leaf 0 hmem _ hv, hgrown.leaf 0 hmem _ hv]
    decide +kernel
  -- The entry gets the reference that the kernel has to the frame.
  have ha : (s₁.setEntry t (vpage 0x401000).pte (getPA 1 ||| 7)).Accounted {0}
      (Function.update held₁ 1 0) := by
    refine hg₁.account.setLeaf hmem hv hw (fun f => ?_) fun f hf => ?_
    · rw [hnew, leafFrame, hnone, Option.map_none, if_neg (Option.some_ne_none f).symm]
      by_cases hf : f = 1
      · rw [hf, Function.update_self, if_pos rfl, hl₁.held_eq]
      · rw [Function.update_of_ne hf, if_neg fun hc => hf (Option.some.inj hc).symm]
    · rw [hnew] at hf
      obtain rfl := Option.some.inj hf
      exact ⟨hl₁.lt, hl₁.not_isTable⟩
  have hkernel : child ((s₁.setEntry t (vpage 0x401000).pte (getPA 1 ||| 7)).tbl 0 kernelIdx) = none := by
    rw [hg₁.account.tbl_kernelIdx (user_dir hmem hv) (fun hh => hv (Option.some.inj hh)) hw 0 hmem,
      hg₁.kernel 0 hmem, hgrown.kernel 0 hmem]
    rfl
  refine ⟨_, vpage 0x401000, hv, ?_, clearMapping_exact (ha.userTree hkernel)⟩
  rw [leaf_setLeaf (positions_user {0}) hg₁.account.separate (user_dir hmem hv) hw (user_dir hmem hv),
    if_pos ⟨rfl, rfl⟩]
  decide

end Mm

end Nascent
