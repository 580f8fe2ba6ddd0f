import Nascent.Virmem.Tables

/-!
# Writes to tables

What the writes of `set_mapping`, `clear_mapping` and of the rest of the kernel do to a tree of
tables. The tree is looked at through a family `Own` of positions, a PML4 and a path of at most
three indices each, which are separated (`Separate`): no table is reached in two ways. The family
is a parameter, since a result about one PML4 is about all its paths, and a result about several
only about the paths that they do not share.

There are four kinds of writes: a fresh table below an absent entry (`table_install`,
`leaf_install`), an entry that is zeroed after its table was emptied (`table_drop`, `leaf_drop`), an
entry of a page table (`table_setLeaf`, `leaf_setLeaf`), and anything outside the tables
(`table_frame`, `leaf_frame`).
-/

namespace Nascent

/-- A family of positions of tables: closed under initial parts of paths, which have at most three
indices. -/
structure Positions (Own : ℕ → List Idx → Prop) : Prop where
  /-- The tables on the way to a table of the family are in the family. -/
  prefixClosed : Radix.PrefixClosed Own
  /-- A path to a page table has three indices. -/
  short : ∀ n p, Own n p → p.length ≤ 3

namespace Mm

variable {s s' : Mm} {f g n r t : ℕ} {i : Idx} {e : Word} {p q : List Idx} {v : VPage}
  {Own : ℕ → List Idx → Prop}

/-- The positions of the family reach distinct tables. -/
def Separate (s : Mm) (Own : ℕ → List Idx → Prop) : Prop := Radix.Apart child s.tbl Own

/-- The frame holds a table at a position of the family. -/
def IsTable (s : Mm) (Own : ℕ → List Idx → Prop) (t : ℕ) : Prop :=
  ∃ n p, Own n p ∧ s.table n p = some t

/-- A tree of tables does not change where its tables do not. -/
theorem table_frame (hO : Positions Own) (h : ∀ m, s.IsTable Own m → s'.tbl m = s.tbl m)
    (hr : Own r p) : s'.table r p = s.table r p :=
  Radix.walk_congr fun q i p' m hp hw =>
    congrFun (h m ⟨r, q, hO.prefixClosed r q (i :: p') (hp ▸ hr), hw⟩) i

/-- The entries of the pages do not change where the tables do not. -/
theorem leaf_frame (hO : Positions Own) (h : ∀ m, s.IsTable Own m → s'.tbl m = s.tbl m)
    (hr : Own r v.dir) : s'.leaf r v = s.leaf r v := by
  rw [leaf, leaf, table_frame hO h hr]
  cases ht : s.table r v.dir with
  | none => rfl
  | some t => rw [Option.bind_some, Option.bind_some, h t ⟨r, v.dir, hr, ht⟩]

/-- Separated tables that do not change stay separated. -/
theorem Separate.frame (hA : s.Separate Own) (hO : Positions Own)
    (h : ∀ m, s.IsTable Own m → s'.tbl m = s.tbl m) : s'.Separate Own := by
  intro n p n' p' t hn hn' hw hw'
  refine hA n p n' p' t hn hn' ?_ ?_
  · exact (table_frame hO h hn).symm.trans hw
  · exact (table_frame hO h hn').symm.trans hw'

/-- The tables of a tree that does not change are the same. -/
theorem isTable_frame (hO : Positions Own) (h : ∀ m, s.IsTable Own m → s'.tbl m = s.tbl m) :
    s'.IsTable Own t ↔ s.IsTable Own t := by
  constructor
  · rintro ⟨n, p, hn, hw⟩
    exact ⟨n, p, hn, (table_frame hO h hn).symm.trans hw⟩
  · rintro ⟨n, p, hn, hw⟩
    exact ⟨n, p, hn, (table_frame hO h hn).trans hw⟩

/-! ## A fresh table -/

/-- The entries after a fresh table is hung under an entry. -/
theorem tbl_install (hg : g < 2^52) (hgt : g ≠ t) (m : ℕ) (j : Idx) :
    (s.install t i g).tbl m j =
      if m = t ∧ j = i then getPA g ||| 7 else if m = g then 0 else s.tbl m j := by
  have htake : ∀ m, (s.takeHead g (convertVA g)).tbl m =
      if m = g then fun _ => 0 else s.tbl m := by
    intro m
    rw [takeHead_eq hg]
    split_ifs with hm
    · subst hm
      exact funext fun j => tbl_of_zero (Function.update_self ..) j
    · funext j
      rw [tbl, tbl]
      exact congrArg (Bytes.word · j) (Function.update_of_ne hm ..)
  split_ifs with hmj hm
  · obtain ⟨rfl, rfl⟩ := hmj
    exact tbl_setEntry_self _
  · rw [install, tbl_setEntry_of_ne _ (by tauto), htake, if_pos hm]
  · rw [install, tbl_setEntry_of_ne _ (by tauto), htake, if_neg hm]

section Install

variable (hO : Positions Own) (hA : s.Separate Own) (hq : Own n q) (hw : s.table n q = some t)
  (hg : ¬ s.IsTable Own g) (hb : g < 2^52)

include hO hA hq hw hg hb

omit hO hA in
/-- A fresh table only changes its own frame and the entry above it. -/
theorem writeAt_install : Radix.WriteAt child s.tbl (s.install t i g).tbl Own t i := by
  intro m j hmj hm
  have hgt : g ≠ t := fun h => hg (h ▸ ⟨n, q, hq, hw⟩)
  have hmg : m ≠ g := fun h => hg (h ▸ hm)
  rw [tbl_install hb hgt, if_neg (by tauto), if_neg hmg]

omit hO hA in
/-- The entry above a fresh table leads to it, and nothing lies below it. -/
theorem child_install : child ((s.install t i g).tbl t i) = some g ∧
    ∀ j, child ((s.install t i g).tbl g j) = none := by
  have hgt : g ≠ t := fun h => hg (h ▸ ⟨n, q, hq, hw⟩)
  refine ⟨?_, fun j => ?_⟩
  · rw [tbl_install hb hgt, if_pos ⟨rfl, rfl⟩, child_getPA hb]
  · rw [tbl_install hb hgt, if_neg fun h => hgt h.1, if_pos rfl, child_zero]

/-- The tables after a fresh one is hung under an absent entry: the fresh one, and those that were
there. -/
theorem table_install (habs : child (s.tbl t i) = none) (hr : Own r p) :
    (s.install t i g).table r p = if r = n ∧ p = q ++ [i] then some g else s.table r p := by
  obtain ⟨hc, hblank⟩ := child_install (i := i) hq hw hg hb
  have hwalk := Radix.walk_write_eq hA hO.prefixClosed hq hw
    (writeAt_install hq hw hg hb) (fun g' hg' => by
      rw [hc] at hg'
      exact Option.some.inj hg' ▸ hblank) hr
  rw [table, hwalk, hc]
  by_cases hp : r = n ∧ p = q ++ [i]
  · rw [if_pos hp, if_pos ⟨hp.1, hp.2 ▸ List.prefix_refl _⟩, if_pos hp.2]
  · rw [if_neg hp]
    split_ifs with h1 h2
    · exact (hp ⟨h1.1, h2⟩).elim
    · -- Below the absent entry there was no table before.
      obtain ⟨rfl, p', rfl⟩ := h1
      rw [table, Radix.walk_append, Radix.walk_snoc_of hw, habs, Option.bind_none]
    · rfl

/-- A fresh table is separated from the others. -/
theorem separate_install : (s.install t i g).Separate Own := by
  obtain ⟨hc, hblank⟩ := child_install (i := i) hq hw hg hb
  refine Radix.Apart.write hA hO.prefixClosed hq hw (writeAt_install hq hw hg hb) ?_
  intro g' hg'
  obtain rfl := Option.some.inj (hc.symm.trans hg')
  exact ⟨fun n' p' hp' hw' => hg ⟨n', p', hp', hw'⟩, hblank⟩

/-- A fresh table has no entries, so no page's entry changes. -/
theorem leaf_install (habs : child (s.tbl t i) = none) (hlen : q.length ≤ 2) (hr : Own r v.dir) :
    (s.install t i g).leaf r v = s.leaf r v := by
  have hgt : g ≠ t := fun h => hg (h ▸ ⟨n, q, hq, hw⟩)
  rw [leaf, leaf, table_install hO hA hq hw hg hb habs hr]
  split_ifs with h
  · -- The page's table is the fresh one, and there was none before.
    obtain ⟨rfl, hdir⟩ := h
    have hnone : s.table r v.dir = none := by rw [hdir, table, Radix.walk_snoc_of hw, habs]
    rw [hnone, Option.bind_some, tbl_install hb hgt, if_neg fun h => hgt h.1, if_pos rfl]
    rfl
  · cases ht : s.table r v.dir with
    | none => rfl
    | some t' =>
      have htg : t' ≠ g := fun h => hg (h ▸ ⟨r, v.dir, hr, ht⟩)
      have htt : t' ≠ t := by
        rintro rfl
        have := (hA _ _ _ _ _ hr hq ht hw).2
        rw [← this] at hlen
        simp [VPage.dir] at hlen
      rw [Option.bind_some, Option.bind_some, tbl_install hb hgt, if_neg fun h => htt h.1,
        if_neg htg]

end Install

/-! ## An entry without a table -/

section Drop

variable (hO : Positions Own) (hA : s.Separate Own) (hq : Own n q) (hw : s.table n q = some t)

include hO hA hq hw

/-- The tables after an entry is zeroed: those that were not below it. -/
theorem table_drop (hr : Own r p) :
    (s.setEntry t i 0).table r p = if r = n ∧ q ++ [i] <+: p then none else s.table r p := by
  have htbl : Radix.WriteAt child s.tbl (s.setEntry t i 0).tbl Own t i :=
    fun m j hmj _ => tbl_setEntry_of_ne 0 hmj
  have hzero : child ((s.setEntry t i 0).tbl t i) = none := by rw [tbl_setEntry_self, child_zero]
  rw [table, Radix.walk_write_eq hA hO.prefixClosed hq hw htbl (fun g hg => by
    rw [hzero] at hg
    cases hg) hr, hzero, ite_self]
  rfl

/-- The remaining tables are separated. -/
theorem separate_drop : (s.setEntry t i 0).Separate Own := by
  intro n₁ p₁ n₂ p₂ t' h₁ h₂ hw₁ hw₂
  rw [← table, table_drop hO hA hq hw h₁] at hw₁
  rw [← table, table_drop hO hA hq hw h₂] at hw₂
  split_ifs at hw₁ hw₂
  exact hA n₁ p₁ n₂ p₂ t' h₁ h₂ hw₁ hw₂

/-- Where the entry leads to a table without present entries, or to none, no page's entry
changes. -/
theorem leaf_drop (hblank : ∀ g, child (s.tbl t i) = some g → ∀ j, present (s.tbl g j) = false)
    (hlen : q.length ≤ 2) (hr : Own r v.dir) : (s.setEntry t i 0).leaf r v = s.leaf r v := by
  rw [leaf, table_drop hO hA hq hw hr, leaf]
  split_ifs with hbelow
  · -- A page below the entry had no entry before either.
    obtain ⟨rfl, p, hp⟩ := hbelow
    have hwalk : s.table r v.dir = (child (s.tbl t i)).bind (Radix.walk child s.tbl · p) := by
      rw [← hp, table, Radix.walk_append, Radix.walk_snoc_of hw]
    rw [hwalk, Option.bind_none]
    cases hc : child (s.tbl t i) with
    | none => rfl
    | some g =>
      have hnone : ∀ j, child (s.tbl g j) = none := fun j => by rw [child, hblank g hc j]; rfl
      rw [Option.bind_some]
      by_cases hp0 : p = []
      · rw [hp0, Radix.walk_nil, Option.bind_some, present?, hblank g hc]
        rfl
      · rw [Radix.walk_blank hnone hp0, Option.bind_none]
  · cases ht : s.table r v.dir with
    | none => rfl
    | some t' =>
      have htt : t' ≠ t := by
        rintro rfl
        have hdir := (hA _ _ _ _ _ hr hq ht hw).2
        rw [← hdir] at hlen
        simp [VPage.dir] at hlen
      rw [Option.bind_some, Option.bind_some, tbl_setEntry_of_ne _ (.inl htt)]

end Drop

/-! ## An entry of a page table -/

section Leaf

variable (hO : Positions Own) (hA : s.Separate Own) (hq : Own n v.dir)
  (hw : s.table n v.dir = some t)

include hO hA hq hw

/-- The entries of a page table lead to no table, so the tables stay. -/
theorem table_setLeaf (hr : Own r p) : (s.setEntry t v.pte e).table r p = s.table r p := by
  have htbl : Radix.WriteAt child s.tbl (s.setEntry t v.pte e).tbl Own t v.pte :=
    fun m j hmj _ => tbl_setEntry_of_ne e hmj
  refine Radix.walk_write hA hO.prefixClosed hq hw htbl hr ?_
  rintro ⟨-, hle⟩
  have h1 := hle.length_le
  have h2 := hO.short r p hr
  simp only [VPage.dir, List.cons_append, List.nil_append, List.length_cons, List.length_nil] at h1
  omega

/-- The tables stay separated. -/
theorem separate_setLeaf : (s.setEntry t v.pte e).Separate Own := by
  intro n₁ p₁ n₂ p₂ t' h₁ h₂ hw₁ hw₂
  refine hA n₁ p₁ n₂ p₂ t' h₁ h₂ ?_ ?_
  · exact (table_setLeaf hO hA hq hw h₁).symm.trans hw₁
  · exact (table_setLeaf hO hA hq hw h₂).symm.trans hw₂

/-- The page of the entry has the new entry, and the other pages have theirs. -/
theorem leaf_setLeaf {w : VPage} (hr : Own r w.dir) :
    (s.setEntry t v.pte e).leaf r w = if r = n ∧ w = v then present? e else s.leaf r w := by
  rw [leaf, table_setLeaf hO hA hq hw hr, leaf]
  split_ifs with h
  · obtain ⟨rfl, rfl⟩ := h
    rw [hw, Option.bind_some, tbl_setEntry_self]
  · cases ht : s.table r w.dir with
    | none => rfl
    | some t' =>
      rw [Option.bind_some, Option.bind_some, tbl_setEntry_of_ne]
      by_contra hcon
      push Not at hcon
      obtain ⟨rfl, hpte⟩ := hcon
      -- The same entry of the same table belongs to the same page.
      obtain ⟨rfl, hdir⟩ := hA _ _ _ _ _ hr hq ht hw
      refine h ⟨rfl, ?_⟩
      cases w
      cases v
      simp_all [VPage.dir]

end Leaf

end Mm

end Nascent
