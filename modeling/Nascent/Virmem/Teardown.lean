import Nascent.Virmem.Account

/-!
# The teardown of an address space

`clear_mapping` walks all four levels of a PML4, and at each entry releases what the entry refers to
before it zeroes the entry. Between the two the account does not balance, so one entry is one step
here. `Pruned` is what such a step does to the state: some positions below one PML4 are gone, with
the tables and the entries there; everything else is as it was, and the account balances again. The
steps compose (`Pruned.trans`), so a loop over a table prunes all that is below the table
(`pruned_clearLoop`), at each of the four levels by the same proof.
-/

namespace Nascent

/-- The path to the entry of a page. -/
def VPage.path (v : VPage) : List Idx := v.dir ++ [v.pte]

namespace Mm

variable {s s' s₁ s₂ : Mm} {roots : Finset ℕ} {held : ℕ → ℕ} {f r t : ℕ} {v : VPage} {i : Idx}
  {q : List Idx} {D D₁ D₂ : List Idx → Prop}

/-- The state `s'` is the state `s` without the positions `D` below the PML4 in frame `r`. -/
structure Pruned (s : Mm) (roots : Finset ℕ) (held : ℕ → ℕ) (r : ℕ) (D : List Idx → Prop)
    (s' : Mm) : Prop where
  /-- The PML4 is one of the address spaces. -/
  root : r ∈ roots
  /-- The account balances, and the kernel holds what it did but for tables that are gone. -/
  account : ∃ held', s'.Accounted roots held' ∧
    ∀ f, ¬ s.IsTable (User roots) f → held' f = held f
  /-- The tables at the positions are gone. -/
  table_gone : ∀ p, User roots r p → D p → s'.table r p = none
  /-- The other tables stay. -/
  table_kept : ∀ n p, User roots n p → ¬ (n = r ∧ D p) → s'.table n p = s.table n p
  /-- The entries at the positions are gone. -/
  leaf_gone : ∀ v : VPage, v.InUser → D v.path → s'.leaf r v = none
  /-- The other entries stay. -/
  leaf_kept : ∀ n ∈ roots, ∀ v : VPage, v.InUser → ¬ (n = r ∧ D v.path) →
    s'.leaf n v = s.leaf n v
  /-- No count grows. -/
  refCount_le : ∀ f, s'.refCount f ≤ s.refCount f
  /-- Frames other than tables keep their contents, and are cleared with their last reference. -/
  mem : ∀ f, ¬ s.IsTable (User roots) f →
    s'.mem f = if s'.refCount f = 0 ∧ s.refCount f ≠ 0 then Bytes.zero else s.mem f
  /-- The kernel's entry in each PML4 stays. -/
  kernel : ∀ n ∈ roots, s'.tbl n kernelIdx = s.tbl n kernelIdx
  /-- The number of frames and the kernel's own PML4 stay. -/
  consts : s'.pageCount = s.pageCount ∧ s'.kpmlAddr = s.kpmlAddr

namespace Pruned

/-- What is left of the tables was a table before. -/
theorem isTable (h : s.Pruned roots held r D s') (ht : s'.IsTable (User roots) t) :
    s.IsTable (User roots) t := by
  obtain ⟨n, p, hn, hw⟩ := ht
  refine ⟨n, p, hn, ?_⟩
  rw [← h.table_kept n p hn, hw]
  rintro ⟨rfl, hD⟩
  rw [h.table_gone p hn hD] at hw
  cases hw

/-- Frames other than tables keep their contents while they are in use. -/
theorem mem_of_used (h : s.Pruned roots held r D s') (hf : ¬ s.IsTable (User roots) f)
    (h0 : s'.refCount f ≠ 0) : s'.mem f = s.mem f := by
  rw [h.mem f hf, if_neg fun hc => h0 hc.1]

/-- Two steps prune the positions of both. -/
theorem trans {held₁ : ℕ → ℕ} (h₁ : s.Pruned roots held r D₁ s₁)
    (hheld : ∀ f, ¬ s.IsTable (User roots) f → held₁ f = held f)
    (h₂ : s₁.Pruned roots held₁ r D₂ s₂) : s.Pruned roots held r (fun p => D₁ p ∨ D₂ p) s₂ := by
  have hnot : ∀ f, ¬ s.IsTable (User roots) f → ¬ s₁.IsTable (User roots) f :=
    fun f hf hf₁ => hf (h₁.isTable hf₁)
  constructor
  · exact h₁.root
  · obtain ⟨held', ha, hh⟩ := h₂.account
    exact ⟨held', ha, fun f hf => (hh f (hnot f hf)).trans (hheld f hf)⟩
  · intro p hp hD
    by_cases h2 : D₂ p
    · exact h₂.table_gone p hp h2
    · rw [h₂.table_kept r p hp fun hc => h2 hc.2]
      exact h₁.table_gone p hp (hD.resolve_right h2)
  · intro n p hn hD
    rw [h₂.table_kept n p hn fun hc => hD ⟨hc.1, .inr hc.2⟩,
      h₁.table_kept n p hn fun hc => hD ⟨hc.1, .inl hc.2⟩]
  · intro v hv hD
    by_cases h2 : D₂ v.path
    · exact h₂.leaf_gone v hv h2
    · rw [h₂.leaf_kept r h₁.root v hv fun hc => h2 hc.2]
      exact h₁.leaf_gone v hv (hD.resolve_right h2)
  · intro n hn v hv hD
    rw [h₂.leaf_kept n hn v hv fun hc => hD ⟨hc.1, .inr hc.2⟩,
      h₁.leaf_kept n hn v hv fun hc => hD ⟨hc.1, .inl hc.2⟩]
  · exact fun f => (h₂.refCount_le f).trans (h₁.refCount_le f)
  · intro f hf
    have hle₁ := h₁.refCount_le f
    have hle₂ := h₂.refCount_le f
    rw [h₂.mem f (hnot f hf), h₁.mem f hf]
    by_cases h0 : s₁.refCount f = 0
    · rw [if_neg fun hc => hc.2 h0]
      simp only [h0, show s₂.refCount f = 0 by omega]
    · simp only [h0, show s.refCount f ≠ 0 by omega, ne_eq, not_false_eq_true, and_true,
        if_false]
  · exact fun n hn => (h₂.kernel n hn).trans (h₁.kernel n hn)
  · exact ⟨h₂.consts.1.trans h₁.consts.1, h₂.consts.2.trans h₁.consts.2⟩

/-- The positions matter on the paths of the user half only. -/
theorem congr (h : s.Pruned roots held r D₁ s')
    (hD : ∀ p, p.head? ≠ some kernelIdx → (D₁ p ↔ D₂ p)) : s.Pruned roots held r D₂ s' := by
  have hpath : ∀ v : VPage, v.InUser → (D₁ v.path ↔ D₂ v.path) :=
    fun v hv => hD v.path fun hh => hv (Option.some.inj hh)
  refine ⟨h.root, h.account, fun p hp hd => ?_, fun n p hp hd => ?_, fun v hv hd => ?_,
    fun n hn v hv hd => ?_, h.refCount_le, h.mem, h.kernel, h.consts⟩
  · exact h.table_gone p hp ((hD p hp.2.2).mpr hd)
  · exact h.table_kept n p hp fun hc => hd ⟨hc.1, (hD p hp.2.2).mp hc.2⟩
  · exact h.leaf_gone v hv ((hpath v hv).mpr hd)
  · exact h.leaf_kept n hn v hv fun hc => hd ⟨hc.1, (hpath v hv).mp hc.2⟩

end Pruned

/-! ## One entry -/

/-- A release of one frame and a write to another may be exchanged. -/
theorem freePage_setEntry_comm {e : Word} (hb : f < 2^52) (htf : t ≠ f) :
    (s.freePage (convertVA f)).setEntry t i e = (s.setEntry t i e).freePage (convertVA f) := by
  by_cases hr : 1 < s.refCount f
  · have hr' : 1 < (s.setEntry t i e).refCount f := hr
    rw [freePage_of_shared hb hr, freePage_of_shared hb hr']
    rfl
  · have hr' : ¬ 1 < (s.setEntry t i e).refCount f := hr
    rw [freePage_of_last hb (by omega), freePage_of_last hb (by omega)]
    simp only [setEntry, addToFreePages]
    rw [Function.update_of_ne htf, Function.update_comm htf]

/-- The release of a frame that is not a table leaves the tables. -/
theorem tbl_freePage (hb : f < 2^52) (hnot : ¬ s.IsTable (User roots) f) :
    ∀ m, s.IsTable (User roots) m → (s.freePage (convertVA f)).tbl m = s.tbl m :=
  fun _ hm => tbl_congr (mem_freePage_of_ne hb fun hmf => hnot (hmf ▸ hm))

/-- A write to an entry of a user table leaves the kernel's entry in each PML4. -/
theorem Accounted.tbl_kernelIdx {e : Word} (h : s.Accounted roots held) (hq : User roots r q)
    (hi : (q ++ [i]).head? ≠ some kernelIdx) (hw : s.table r q = some t) :
    ∀ n ∈ roots, (s.setEntry t i e).tbl n kernelIdx = s.tbl n kernelIdx := by
  intro n hn
  refine tbl_setEntry_of_ne e ?_
  by_contra hcon
  push Not at hcon
  obtain ⟨rfl, rfl⟩ := hcon
  -- The table is a PML4, so its position is the empty path.
  obtain ⟨-, rfl⟩ := h.separate _ _ _ _ _ ⟨hn, by simp, by simp⟩ hq (rfl : s.table n [] = some n) hw
  exact hi rfl

/-- A frame that loses its last position as a table is released. -/
theorem Pruned.freePage {held₁ : ℕ → ℕ} (hp : s.Pruned roots held r D s₁)
    (ha : s₁.Accounted roots held₁) (hheld : ∀ f, ¬ s.IsTable (User roots) f → held₁ f = held f)
    (hlt : f < s₁.pageCount) (hone : 1 ≤ held₁ f) (ht : s.IsTable (User roots) f)
    (hnot : ¬ s₁.IsTable (User roots) f) :
    s.Pruned roots held r D (s₁.freePage (convertVA f)) := by
  have hO := positions_user roots
  have hb := ha.lt_two_pow hlt
  have htbl := tbl_freePage hb hnot
  constructor
  · exact hp.root
  · refine ⟨_, ha.freePage hlt hone hnot, fun f' hf' => ?_⟩
    have hff : f' ≠ f := fun hff => hf' (hff ▸ ht)
    rw [Function.update_of_ne hff]
    exact hheld f' hf'
  · exact fun p hu hD => (table_frame hO htbl hu).trans (hp.table_gone p hu hD)
  · exact fun n p hu hD => (table_frame hO htbl hu).trans (hp.table_kept n p hu hD)
  · exact fun v hv hD => (leaf_frame hO htbl (user_dir hp.root hv)).trans (hp.leaf_gone v hv hD)
  · exact fun n hn v hv hD =>
      (leaf_frame hO htbl (user_dir hn hv)).trans (hp.leaf_kept n hn v hv hD)
  · intro f'
    rw [refCount_freePage hb]
    refine le_trans ?_ (hp.refCount_le f')
    by_cases hff : f' = f
    · rw [hff, Function.update_self]
      omega
    · rw [Function.update_of_ne hff]
  · intro f' hf'
    have hff : f' ≠ f := fun hff => hf' (hff ▸ ht)
    rw [mem_freePage_of_ne hb hff, refCount_freePage hb, Function.update_of_ne hff]
    exact hp.mem f' hf'
  · exact fun n hn => (congrFun (htbl n (Accounted.isTable_root hn)) _).trans (hp.kernel n hn)
  · rw [(consts_freePage hb).1, (consts_freePage hb).2]
    exact hp.consts

/-- An entry of an upper table is zeroed, after the table below it was emptied. -/
theorem Accounted.pruned_drop (h : s.Accounted roots held) (hq : User roots r (q ++ [i]))
    (hw : s.table r q = some t)
    (hblank : ∀ g, child (s.tbl t i) = some g → ∀ j, present (s.tbl g j) = false) :
    s.Pruned roots held r (q ++ [i] <+: ·) (s.setEntry t i 0) := by
  have hO := positions_user roots
  have hq' : User roots r q := hO.prefixClosed r q [i] hq
  have hlen : q.length ≤ 2 := by
    have := hq.2.1
    rw [List.length_append, List.length_singleton] at this
    omega
  have htable := fun n p (hn : User roots n p) => table_drop (i := i) hO h.separate hq' hw hn
  have hleaf := fun n (hn : n ∈ roots) (v : VPage) (hv : v.InUser) =>
    leaf_drop hO h.separate hq' hw hblank hlen (user_dir hn hv)
  have ha := h.drop hq' hw hlen hblank
  refine ⟨hq.1, ⟨held, ha, fun _ _ => rfl⟩, fun p hp hd => ?_, fun n p hp hd => ?_,
    fun v hv hd => ?_, fun n hn v hv _ => hleaf n hn v hv, fun f => le_refl _, fun f hf => ?_,
    h.tbl_kernelIdx hq' hq.2.2 hw, rfl, rfl⟩
  · rw [htable r p hp, if_pos ⟨rfl, hd⟩]
  · rw [htable n p hp, if_neg hd]
  · -- The page table of a page below the entry is gone with the entry.
    have hpre : q ++ [i] <+: v.dir := by
      refine List.prefix_of_prefix_length_le hd (List.prefix_append _ _) ?_
      rw [List.length_append, List.length_singleton]
      exact Nat.succ_le_succ hlen
    rw [leaf, htable r v.dir (user_dir hq.1 hv), if_pos ⟨rfl, hpre⟩, Option.bind_none]
  · have hft : f ≠ t := fun hft => hf (hft ▸ ⟨r, q, hq', hw⟩)
    rw [if_neg fun hc => hc.2 hc.1]
    exact Function.update_of_ne hft ..

/-- An entry of an upper table is zeroed, and the empty table below it released. -/
theorem Accounted.pruned_unlink {t' : ℕ} (h : s.Accounted roots held)
    (hq : User roots r (q ++ [i])) (hw : s.table r q = some t)
    (hw' : s.table r (q ++ [i]) = some t') (hblank : ∀ j, present (s.tbl t' j) = false) :
    s.Pruned roots held r (q ++ [i] <+: ·) ((s.setEntry t i 0).freePage (convertVA t')) := by
  have hO := positions_user roots
  have hq' : User roots r q := hO.prefixClosed r q [i] hq
  have hchild : child (s.tbl t i) = some t' := by rw [← hw', Mm.table, Radix.walk_snoc_of hw]
  have hp := h.pruned_drop hq hw fun g hg j => by
    rw [hchild] at hg
    exact Option.some.inj hg ▸ hblank j
  have ht' : s.IsTable (User roots) t' := ⟨r, q ++ [i], hq, hw'⟩
  obtain ⟨held₁, ha, hh⟩ := hp.account
  have hlen : q.length ≤ 2 := by
    have := hq.2.1
    rw [List.length_append, List.length_singleton] at this
    omega
  have ha := h.drop (i := i) hq' hw hlen fun g hg j => by
    rw [hchild] at hg
    exact Option.some.inj hg ▸ hblank j
  obtain ⟨hlt, -, hone⟩ := h.table t' ht'
  refine hp.freePage ha (fun _ _ => rfl) hlt (le_of_eq hone.symm) ht' ?_
  -- The only position of the table was the one below the entry.
  rintro ⟨n, p, hn, hnp⟩
  rw [table_drop hO h.separate hq' hw hn] at hnp
  split_ifs at hnp with hc
  obtain ⟨rfl, rfl⟩ := h.separate _ _ _ _ _ hn hq hnp hw'
  exact hc ⟨rfl, List.prefix_refl _⟩

/-- The entry of a page is zeroed, whatever else happens outside the tables. -/
theorem Accounted.pruned_leaf (h : s.Accounted roots held) (hr : r ∈ roots) (hv : v.InUser)
    (hw : s.table r v.dir = some t) (ha : s'.Accounted roots held)
    (htbl : ∀ m, s.IsTable (User roots) m → s'.tbl m = (s.setEntry t v.pte 0).tbl m)
    (hrc : ∀ f, s'.refCount f ≤ s.refCount f)
    (hmem : ∀ f, ¬ s.IsTable (User roots) f →
      s'.mem f = if s'.refCount f = 0 ∧ s.refCount f ≠ 0 then Bytes.zero else s.mem f)
    (hconsts : s'.pageCount = s.pageCount ∧ s'.kpmlAddr = s.kpmlAddr) :
    s.Pruned roots held r (v.path <+: ·) s' := by
  have hO := positions_user roots
  have hdir := user_dir hr hv
  have htable₀ := fun n p (hn : User roots n p) =>
    table_setLeaf (e := 0) hO h.separate hdir hw hn
  -- The tables of the state after the write are those before it.
  have hsame : ∀ m, (s.setEntry t v.pte 0).IsTable (User roots) m → s.IsTable (User roots) m := by
    rintro m ⟨n, p, hn, hm⟩
    exact ⟨n, p, hn, (htable₀ n p hn).symm.trans hm⟩
  have htbl' := fun m hm => htbl m (hsame m hm)
  have htable : ∀ n p, User roots n p → s'.table n p = s.table n p := fun n p hn =>
    (table_frame hO htbl' hn).trans (htable₀ n p hn)
  have hleaf : ∀ n ∈ roots, ∀ w : VPage, w.InUser →
      s'.leaf n w = if n = r ∧ w = v then none else s.leaf n w := fun n hn w hwu =>
    (leaf_frame hO htbl' (user_dir hn hwu)).trans
      (leaf_setLeaf hO h.separate hdir hw (user_dir hn hwu))
  have hfour : v.path.length = 4 := rfl
  refine ⟨hr, ⟨held, ha, fun _ _ => rfl⟩, fun p hp hd => ?_, fun n p hp _ => htable n p hp,
    fun w hwu hd => ?_, fun n hn w hwu hd => ?_, hrc, hmem, fun n hn => ?_, hconsts⟩
  · have := hd.length_le
    have := hp.2.1
    omega
  · have hwv : w = v := by
      have := hd.eq_of_length rfl
      cases w
      cases v
      simp_all [VPage.path, VPage.dir]
    rw [hleaf r hr w hwu, if_pos ⟨rfl, hwv⟩]
  · rw [hleaf n hn w hwu, if_neg]
    rintro ⟨rfl, rfl⟩
    exact hd ⟨rfl, List.prefix_refl _⟩
  · rw [htbl n (isTable_root hn)]
    exact h.tbl_kernelIdx hdir (fun hh => hv (Option.some.inj hh)) hw n hn

/-- The entry of a page that is not present is zeroed. -/
theorem Accounted.pruned_absent (h : s.Accounted roots held) (hr : r ∈ roots) (hv : v.InUser)
    (hw : s.table r v.dir = some t) (hnone : s.leaf r v = none) :
    s.Pruned roots held r (v.path <+: ·) (s.setEntry t v.pte 0) := by
  have hzero : (present? (0 : Word)).map frameOf = none := rfl
  have hold : s.leafFrame (r, v) = none := by rw [leafFrame, hnone, Option.map_none]
  refine h.pruned_leaf hr hv hw ?_ (fun _ _ => rfl) (fun _ => le_refl _) (fun f hf => ?_) ⟨rfl, rfl⟩
  · refine h.setLeaf hr hv hw (fun f => ?_) fun f hf => ?_
    · rw [hzero, hold]
    · rw [hzero] at hf
      cases hf
  · have hft : f ≠ t := fun hft => hf (hft ▸ ⟨r, v.dir, user_dir hr hv, hw⟩)
    rw [if_neg fun hc => hc.2 hc.1]
    exact Function.update_of_ne hft ..

/-- The entry of a page is zeroed, and its frame released. -/
theorem Accounted.pruned_page {e : Word} (h : s.Accounted roots held) (hr : r ∈ roots)
    (hv : v.InUser) (hw : s.table r v.dir = some t) (he : s.leaf r v = some e) :
    s.Pruned roots held r (v.path <+: ·)
      ((s.setEntry t v.pte 0).freePage (convertVA (frameOf e))) := by
  have hzero : (present? (0 : Word)).map frameOf = none := rfl
  have hold : s.leafFrame (r, v) = some (frameOf e) := by rw [leafFrame, he, Option.map_some]
  have hlt := h.frameOf_leaf_lt hr hv he
  have hnot := h.not_isTable hr hv he
  have hb := h.lt_two_pow hlt
  have hw' : s.IsTable (User roots) t := ⟨r, v.dir, user_dir hr hv, hw⟩
  -- The kernel takes over the reference of the entry, and gives it up.
  have ha : (s.setEntry t v.pte 0).Accounted roots
      (Function.update held (frameOf e) (held (frameOf e) + 1)) := by
    refine h.setLeaf hr hv hw (fun f => ?_) fun f hf => ?_
    · rw [hzero, hold, if_neg (by simp)]
      by_cases hff : f = frameOf e
      · rw [hff, Function.update_self, if_pos rfl]
      · rw [Function.update_of_ne hff, if_neg fun hc => hff (Option.some.inj hc).symm]
    · rw [hzero] at hf
      cases hf
  have hnot' : ¬ (s.setEntry t v.pte 0).IsTable (User roots) (frameOf e) := by
    rintro ⟨n, p, hn, hm⟩
    rw [table_setLeaf (positions_user roots) h.separate (user_dir hr hv) hw hn] at hm
    exact hnot ⟨n, p, hn, hm⟩
  have hfree := ha.freePage hlt (by rw [Function.update_self]; omega) hnot'
  rw [Function.update_self, Function.update_idem, Nat.add_sub_cancel,
    Function.update_eq_self] at hfree
  refine h.pruned_leaf hr hv hw hfree (fun m hm => ?_) (fun f => ?_) (fun f hf => ?_)
    (consts_freePage hb)
  · exact tbl_congr (mem_freePage_of_ne hb fun hmf => hnot (hmf ▸ hm))
  · rw [refCount_freePage hb]
    by_cases hff : f = frameOf e
    · rw [hff, Function.update_self]
      exact Nat.sub_le ..
    · rw [Function.update_of_ne hff]
      exact le_refl _
  · have hft : f ≠ t := fun hft => hf (hft ▸ hw')
    have hset : (s.setEntry t v.pte 0).mem f = s.mem f := Function.update_of_ne hft ..
    rw [refCount_freePage hb]
    by_cases hff : f = frameOf e
    · rw [hff, Function.update_self]
      rw [hff] at hset
      by_cases hshared : 1 < (s.setEntry t v.pte 0).refCount (frameOf e)
      · rw [mem_freePage_of_shared hb hshared, hset, if_neg]
        omega
      · -- The last reference was the one of the entry.
        have hpos := leafCount_pos hr hv he
        have hcount := h.count _ hlt
        have hsame : (s.setEntry t v.pte 0).refCount (frameOf e) = s.refCount (frameOf e) := rfl
        rw [mem_freePage_of_last hb (by omega), if_pos (by omega)]
    · rw [Function.update_of_ne hff, mem_freePage_of_ne hb hff, hset, if_neg fun hc => hc.2 hc.1]

/-! ## The loops -/

/-- The address of an entry by its index leads to the entry. -/
theorem kread_entry (ht : t < 2^52) (i : Idx) :
    s.kread (convertVA t + 8 * BitVec.ofNat 64 i) = s.tbl t i := by
  have hi := i.isLt
  have hval : (BitVec.ofNat 64 i).toNat = i := Nat.mod_eq_of_lt (by omega)
  obtain ⟨h1, h2⟩ := slot_eq (o := BitVec.ofNat 64 i) ht (by omega)
  rw [kread, h1, h2, hval, tbl]

theorem kwrite_entry {e : Word} (ht : t < 2^52) (i : Idx) :
    s.kwrite (convertVA t + 8 * BitVec.ofNat 64 i) e = s.setEntry t i e := by
  have hi := i.isLt
  have hval : (BitVec.ofNat 64 i).toNat = i := Nat.mod_eq_of_lt (by omega)
  obtain ⟨h1, h2⟩ := slot_eq (o := BitVec.ofNat 64 i) ht (by omega)
  rw [kwrite, h1, h2, hval, setEntry]

/-- One entry of the loops of `clear_mapping`, by its frame and index. -/
theorem clearEntry_eq {below : Word → Mm → Mm} (ht : t < 2^52) (i : Idx) :
    clearEntry below (convertVA t) s i =
      if present (s.tbl t i) then
        ((below (convertVA (frameOf (s.tbl t i))) s).freePage (convertVA
          (frameOf ((below (convertVA (frameOf (s.tbl t i))) s).tbl t i)))).setEntry t i 0
      else s.setEntry t i 0 := by
  simp only [clearEntry, kread_entry ht, kwrite_entry ht, scldn_entry]
  cases present (s.tbl t i) with
  | false => rfl
  | true => rfl

/-- What a loop of `clear_mapping` over the table at a path of `k` indices does: all that is below
the table is pruned. -/
def Clears (roots : Finset ℕ) (k : ℕ) (clear : Word → Mm → Mm) : Prop :=
  ∀ s held r q t, Accounted s roots held → User roots r q → q.length = k → s.table r q = some t →
    s.Pruned roots held r (fun p => q <+: p ∧ p ≠ q) (clear (convertVA t) s)

/-- What one entry of a loop does: all that is at or below the entry is pruned. -/
def ClearsEntry (roots : Finset ℕ) (below : Word → Mm → Mm) (r : ℕ) (q : List Idx) (i : Idx) :
    Prop :=
  ∀ s held t, Accounted s roots held → s.table r q = some t →
    s.Pruned roots held r (q ++ [i] <+: ·) (clearEntry below (convertVA t) s i)

/-- The loop prunes what its entries prune. -/
theorem pruned_clearLoop {below : Word → Mm → Mm} (hq : User roots r q) {n : ℕ} (hn : n ≤ 512)
    (hentry : ∀ i : Idx, (i : ℕ) < n → ClearsEntry roots below r q i)
    (h : s.Accounted roots held) (hw : s.table r q = some t) :
    s.Pruned roots held r (fun p => ∃ i : Idx, (i : ℕ) < n ∧ q ++ [i] <+: p)
      (clearLoop below n (convertVA t) s) := by
  -- The induction is on the number of entries that the loop has passed.
  induction n with
  | zero =>
    refine ⟨hq.1, ⟨held, h, fun _ _ => rfl⟩, ?_, fun _ _ _ _ => rfl, ?_, fun _ _ _ _ _ => rfl,
      fun _ => le_refl _, fun f _ => (if_neg fun hc => hc.2 hc.1).symm, fun _ _ => rfl, rfl, rfl⟩
    · rintro p - ⟨i, hi, -⟩
      omega
    · rintro v - ⟨i, hi, -⟩
      omega
  | succ n ih =>
    have hp := ih (by omega) fun i hi => hentry i (by omega)
    obtain ⟨held₁, ha, hh⟩ := hp.account
    have hw₁ : (clearLoop below n (convertVA t) s).table r q = some t := by
      rw [hp.table_kept r q hq, hw]
      rintro ⟨-, i, -, hle⟩
      have := hle.length_le
      rw [List.length_append, List.length_singleton] at this
      omega
    have hstep := hentry ⟨n, by omega⟩ (Nat.lt_succ_self n) _ held₁ t ha hw₁
    have hloop : clearLoop below (n + 1) (convertVA t) s =
        clearEntry below (convertVA t) (clearLoop below n (convertVA t) s) n := by
      simp only [clearLoop, List.range_succ, List.foldl_append, List.foldl_cons, List.foldl_nil]
    rw [hloop]
    refine (hp.trans hh hstep).congr fun p _ => ⟨?_, ?_⟩
    · rintro (⟨i, hi, hle⟩ | hle)
      · exact ⟨i, by omega, hle⟩
      · exact ⟨⟨n, by omega⟩, Nat.lt_succ_self n, hle⟩
    · rintro ⟨i, hi, hle⟩
      rcases Nat.lt_succ_iff_lt_or_eq.mp hi with hi | hi
      · exact .inl ⟨i, hi, hle⟩
      · have hin : i = ⟨n, by omega⟩ := Fin.ext hi
        exact .inr (hin ▸ hle)

/-- A path goes strictly below another through one of its entries. -/
theorem exists_prefix_iff (q p : List Idx) :
    (∃ i : Idx, (i : ℕ) < 512 ∧ q ++ [i] <+: p) ↔ q <+: p ∧ p ≠ q := by
  constructor
  · rintro ⟨i, -, p', rfl⟩
    exact ⟨⟨i :: p', by simp⟩, by simp⟩
  · rintro ⟨⟨p', rfl⟩, hne⟩
    cases p' with
    | nil => exact (hne (List.append_nil q)).elim
    | cons i p' => exact ⟨i, i.isLt, p', by simp⟩

/-- The page of an entry of a page table. -/
theorem exists_page (hlen : q.length = 3) (i : Idx) : ∃ v : VPage, v.dir = q ∧ v.pte = i := by
  match q, hlen with
  | [a, b, c], _ => exact ⟨⟨a, b, c, i⟩, rfl, rfl⟩

/-- The entries of a page table. -/
theorem clearsEntry_page (hq : User roots r q) (hlen : q.length = 3) (i : Idx) :
    ClearsEntry roots (fun _ s => s) r q i := by
  intro s held t h hw
  -- The page of the entry.
  obtain ⟨v, rfl, rfl⟩ := exists_page hlen i
  have hv : v.InUser := fun hv => hq.2.2 (congrArg some hv)
  have ht := h.lt_two_pow (h.table t ⟨r, v.dir, hq, hw⟩).1
  have hleaf : s.leaf r v = present? (s.tbl t v.pte) := by rw [leaf, hw, Option.bind_some]
  rw [clearEntry_eq ht]
  cases hp : present (s.tbl t v.pte) with
  | false =>
    rw [if_neg Bool.false_ne_true]
    refine h.pruned_absent hq.1 hv hw ?_
    rw [hleaf, present?, hp]
    rfl
  | true =>
    have he : s.leaf r v = some (s.tbl t v.pte) := by
      rw [hleaf, present?, hp]
      rfl
    have hb := h.lt_two_pow (h.frameOf_leaf_lt hq.1 hv he)
    have htf : t ≠ frameOf (s.tbl t v.pte) := fun htf =>
      h.not_isTable hq.1 hv he (htf ▸ ⟨r, v.dir, hq, hw⟩)
    rw [if_pos rfl, freePage_setEntry_comm hb htf]
    exact h.pruned_page hq.1 hv hw he

/-- A table without anything below it has no present entry. -/
theorem Pruned.blank (h : s.Pruned roots held r (fun p => q <+: p ∧ p ≠ q) s₁) (hq : User roots r q)
    (hne : q ≠ []) (hw : s₁.table r q = some t) (j : Idx) : present (s₁.tbl t j) = false := by
  have hhead : (q ++ [j]).head? ≠ some kernelIdx := by
    cases q with
    | nil => exact (hne rfl).elim
    | cons i q => exact hq.2.2
  have hbelow : q <+: q ++ [j] ∧ q ++ [j] ≠ q := ⟨List.prefix_append _ _, by simp⟩
  by_cases hlen : q.length = 3
  · obtain ⟨v, rfl, rfl⟩ := exists_page hlen j
    have hgone := h.leaf_gone v (fun hv => hhead (congrArg some hv)) hbelow
    rw [leaf, hw, Option.bind_some, present?] at hgone
    split_ifs at hgone with hp
    exact Bool.not_eq_true _ ▸ hp
  · have hshort : (q ++ [j]).length ≤ 3 := by
      have := hq.2.1
      rw [List.length_append, List.length_singleton]
      omega
    have hgone := h.table_gone _ ⟨hq.1, hshort, hhead⟩ hbelow
    rw [table, Radix.walk_snoc_of hw, child] at hgone
    split_ifs at hgone with hp
    exact Bool.not_eq_true _ ▸ hp

/-- A present entry of an upper table: the loop below empties the table that it leads to, which is then
released. -/
theorem Clears.entry {below : Word → Mm → Mm} (hbelow : Clears roots (q.length + 1) below)
    (h : s.Accounted roots held) (hq : User roots r (q ++ [i])) (hw : s.table r q = some t)
    (hp : present (s.tbl t i) = true) : ∃ t' s₁, s₁ = below (convertVA t') s ∧
      clearEntry below (convertVA t) s i = (s₁.setEntry t i 0).freePage (convertVA t') ∧
      s.Pruned roots held r (fun p => q ++ [i] <+: p ∧ p ≠ q ++ [i]) s₁ ∧
      s.table r (q ++ [i]) = some t' ∧ s₁.table r q = some t ∧ s₁.table r (q ++ [i]) = some t' ∧
      (∀ j, present (s₁.tbl t' j) = false) ∧ t ≠ t' := by
  have hq' : User roots r q := (positions_user roots).prefixClosed r q [i] hq
  have ht := h.lt_two_pow (h.table t ⟨r, q, hq', hw⟩).1
  rw [clearEntry_eq ht, if_pos hp]
  have hchild : child (s.tbl t i) = some (frameOf (s.tbl t i)) := by rw [child, hp]; rfl
  generalize frameOf (s.tbl t i) = t' at hchild
  have hw' : s.table r (q ++ [i]) = some t' := by rw [table, Radix.walk_snoc_of hw, hchild]
  have hpr := hbelow s held r (q ++ [i]) t' h hq (by simp) hw'
  refine ⟨t', _, rfl, ?_⟩
  generalize below (convertVA t') s = s₁ at hpr
  obtain ⟨held₁, ha, -⟩ := hpr.account
  have hw₁ : s₁.table r q = some t := by
    rw [hpr.table_kept r q hq', hw]
    rintro ⟨-, hle, -⟩
    have := hle.length_le
    rw [List.length_append, List.length_singleton] at this
    omega
  have hw₁' : s₁.table r (q ++ [i]) = some t' := by
    rw [hpr.table_kept r _ hq, hw']
    rintro ⟨-, -, hne⟩
    exact hne rfl
  have hchild₁ : child (s₁.tbl t i) = some t' := by
    rw [← Radix.walk_snoc_of hw₁]
    exact hw₁'
  have hlt' := (ha.table t' ⟨r, _, hq, hw₁'⟩).1
  have hne : t ≠ t' := by
    rintro rfl
    have := (ha.separate _ _ _ _ _ hq' hq hw₁ hw₁').2
    simp at this
  rw [child_eq_some hchild₁, freePage_setEntry_comm (ha.lt_two_pow hlt') hne]
  exact ⟨rfl, hpr, hw', hw₁, hw₁', hpr.blank hq (by simp) hw₁', hne⟩

/-- The entries of an upper table, with the loop below. -/
theorem clearsEntry_table {below : Word → Mm → Mm} (hq : User roots r (q ++ [i]))
    (hbelow : Clears roots (q.length + 1) below) : ClearsEntry roots below r q i := by
  intro s held t h hw
  have hq' : User roots r q := (positions_user roots).prefixClosed r q [i] hq
  have ht := h.lt_two_pow (h.table t ⟨r, q, hq', hw⟩).1
  cases hp : present (s.tbl t i) with
  | false =>
    rw [clearEntry_eq ht, hp, if_neg Bool.false_ne_true]
    refine h.pruned_drop hq hw fun g hg => ?_
    rw [child, hp] at hg
    cases hg
  | true =>
    obtain ⟨t', s₁, -, heq, hpr, -, hw₁, hw₁', hblank, -⟩ := hbelow.entry h hq hw hp
    obtain ⟨held₁, ha, hh⟩ := hpr.account
    rw [heq]
    refine (hpr.trans hh (ha.pruned_unlink hq hw₁ hw₁' hblank)).congr fun p _ => ⟨?_, .inr⟩
    rintro (⟨hle, -⟩ | hle)
    · exact hle
    · exact hle

/-- The loop over a page table. -/
theorem clears_clearPte : Clears roots 3 clearPte := by
  intro s held r q t h hq hlen hw
  exact (pruned_clearLoop hq (le_refl _) (fun i _ => clearsEntry_page hq hlen i) h hw).congr
    fun p _ => exists_prefix_iff q p

/-- The loop over an upper table other than the PML4. -/
theorem Clears.loop {k : ℕ} {below : Word → Mm → Mm} (hbelow : Clears roots (k + 1) below)
    (h0 : 0 < k) (hk : k ≤ 2) : Clears roots k (clearLoop below 512) := by
  intro s held r q t h hq hlen hw
  have hentry : ∀ i : Idx, User roots r (q ++ [i]) := by
    intro i
    refine ⟨hq.1, ?_, ?_⟩
    · rw [List.length_append, List.length_singleton]
      omega
    · cases q with
      | nil =>
        rw [List.length_nil] at hlen
        omega
      | cons j q => exact hq.2.2
  exact (pruned_clearLoop hq (le_refl _)
    (fun i _ => clearsEntry_table (hentry i) (hlen ▸ hbelow)) h hw).congr
    fun p _ => exists_prefix_iff q p

/-- `clear_mapping` prunes all that is below the PML4, but for the kernel's entry. -/
theorem Accounted.clearMapping (h : s.Accounted roots held) (hr : r ∈ roots) :
    s.Pruned roots held r (fun p => p ≠ []) (s.clearMapping (convertVA r)) := by
  have hq : User roots r [] := ⟨hr, by simp, by simp⟩
  have hbelow : Clears roots 1 clearPdpte :=
    ((clears_clearPte.loop (by omega) (le_refl _)).loop (by omega) (by omega))
  have hb := h.root_lt hr
  rw [Mm.clearMapping, scldn_convertVA hb]
  refine (pruned_clearLoop hq (by omega) (fun i hi => clearsEntry_table ⟨hr, by simp, ?_⟩ hbelow)
    h rfl).congr fun p hp => ⟨?_, fun hne => ?_⟩
  · intro hi'
    have : i = kernelIdx := Option.some.inj hi'
    rw [this] at hi
    exact absurd hi (by decide)
  · rintro ⟨i, -, hle⟩ rfl
    simpa using hle.length_le
  · cases p with
    | nil => exact (hne rfl).elim
    | cons i p =>
      refine ⟨i, ?_, p, rfl⟩
      have hik : i ≠ kernelIdx := fun hik => hp (congrArg some hik)
      have : (i : ℕ) ≠ 511 := fun hi => hik (Fin.ext hi)
      have := i.isLt
      omega

end Mm

end Nascent
