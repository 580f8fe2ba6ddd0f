import Nascent.Virmem.Mapping

/-!
# What mappings cost

`set_mapping` takes a frame for each table that is missing on the way to its page. So a series of
mappings takes, next to the frames that are allocated for the pages, one frame for each table that is on
the way to one of the pages and was not there at the start, whatever the order of the pages. `Spent` is
this balance. Each step down the tables keeps it, and from it `set_mapping` succeeds as soon as the free
list has the frames that are still to be spent.
-/

namespace Nascent

/-- The paths to the tables on the way to a page. -/
def VPage.paths (v : VPage) : Finset (List Idx) := {[v.pml4], [v.pml4, v.pdpte], v.dir}

theorem VPage.mem_paths {v : VPage} {p : List Idx} : p ∈ v.paths ↔ p ≠ [] ∧ p <+: v.dir := by
  have hnil : ∀ q : List Idx, q <+: [] ↔ q = [] := fun q => List.prefix_nil
  constructor
  · intro hp
    simp only [paths, Finset.mem_insert, Finset.mem_singleton] at hp
    rcases hp with rfl | rfl | rfl
    · exact ⟨List.cons_ne_nil _ _, ⟨[_, _], rfl⟩⟩
    · exact ⟨List.cons_ne_nil _ _, ⟨[_], rfl⟩⟩
    · exact ⟨List.cons_ne_nil _ _, List.prefix_refl _⟩
  · rintro ⟨hne, hp⟩
    simp only [paths, Finset.mem_insert, Finset.mem_singleton]
    rw [dir, List.prefix_cons_iff] at hp
    obtain rfl | ⟨p, rfl, hp⟩ := hp
    · exact absurd rfl hne
    rw [List.prefix_cons_iff] at hp
    obtain rfl | ⟨p, rfl, hp⟩ := hp
    · exact .inl rfl
    rw [List.prefix_cons_iff] at hp
    obtain rfl | ⟨p, rfl, hp⟩ := hp
    · exact .inr (.inl rfl)
    · rw [(hnil p).mp hp]
      exact .inr (.inr rfl)

/-- The paths to the tables on the way to some pages. -/
def pathsTo (vs : List VPage) : Finset (List Idx) := vs.foldr (fun v P => v.paths ∪ P) ∅

@[simp] theorem pathsTo_nil : pathsTo [] = ∅ := rfl

@[simp] theorem pathsTo_cons (v : VPage) (vs : List VPage) : pathsTo (v :: vs) = v.paths ∪ pathsTo vs := rfl

theorem pathsTo_append (vs ws : List VPage) : pathsTo (vs ++ ws) = pathsTo vs ∪ pathsTo ws := by
  induction vs with
  | nil => exact (Finset.empty_union _).symm
  | cons v vs ih => rw [List.cons_append, pathsTo_cons, ih, pathsTo_cons, Finset.union_assoc]

namespace Mm

variable {s s₁ s₂ : Mm} {roots : Finset ℕ} {held₁ : ℕ → ℕ} {r t t' n N : ℕ} {Q : Finset (List Idx)}
  {q : List Idx} {i : Idx} {va : Word}

/-- The paths at which an address space has no table. -/
def missing (s : Mm) (r : ℕ) (Q : Finset (List Idx)) : Finset (List Idx) :=
  Q.filter fun q => s.table r q = none

theorem card_missing_le : (s.missing r Q).card ≤ Q.card := Finset.card_filter_le ..

theorem missing_mono {Q' : Finset (List Idx)} (hQ : Q ⊆ Q') :
    (s.missing r Q).card ≤ (s.missing r Q').card :=
  Finset.card_le_card (Finset.filter_subset_filter _ hQ)

/-- The state `s₁` is the state `s` after mappings in the address space `r`: of the `N` free frames, `n`
were taken for pages, and one for each table at the paths `Q` that was missing. -/
structure Spent (s : Mm) (roots : Finset ℕ) (r N n : ℕ) (Q : Finset (List Idx)) (s₁ : Mm)
    (held₁ : ℕ → ℕ) : Prop where
  /-- The account balances. -/
  account : s₁.Accounted roots held₁
  /-- The address space has the tables that it had, and those at the paths. -/
  table : ∀ q, User roots r q → (s₁.table r q = none ↔ s.table r q = none ∧ q ∉ Q)
  /-- The free list has what is left. -/
  free : ∃ l, s₁.FreeChain l ∧ l.length + n + (s.missing r Q).card = N

/-- Nothing is spent at the start. -/
theorem Accounted.spent {l : List ℕ} (h : s.Accounted roots held₁) (hl : s.FreeChain l) :
    s.Spent roots r l.length 0 ∅ s held₁ where
  account := h
  table := fun q _ => ⟨fun hq => ⟨hq, Finset.notMem_empty q⟩, And.left⟩
  free := ⟨l, hl, rfl⟩

namespace Spent

variable (h : s.Spent roots r N n Q s₁ held₁)

include h

/-- Where the balance does not use up the free list, there is a frame. -/
theorem head_ne_none (hlt : n + (s.missing r Q).card < N) : s₁.freePageHead ≠ none := by
  obtain ⟨l, hl, hlen⟩ := h.free
  cases l with
  | nil =>
    rw [List.length_nil] at hlen
    omega
  | cons g l =>
    rw [hl.chain.1]
    exact Option.some_ne_none g

/-- A frame that is taken is one frame less. -/
theorem takeHead_free {g : ℕ} {s' : Mm} (hg : s₁.freePageHead = some g)
    (hs' : ∀ l, (s₁.takeHead g (convertVA g)).FreeChain l → s'.FreeChain l) :
    ∃ l, s'.FreeChain l ∧ l.length + (n + 1) + (s.missing r Q).card = N := by
  obtain ⟨l, hl, hlen⟩ := h.free
  cases l with
  | nil =>
    rw [hl.chain.start_eq] at hg
    cases hg
  | cons g' l =>
    obtain rfl : g' = g := Option.some.inj (hl.chain.1.symm.trans hg)
    rw [List.length_cons] at hlen
    exact ⟨l, hs' l hl.takeHead, by omega⟩

/-- A table that is missing is one more to be paid for. -/
theorem missing_insert (hq : User roots r q) (hnone : s₁.table r q = none) :
    (s.missing r (insert q Q)).card = (s.missing r Q).card + 1 := by
  obtain ⟨hmiss, hQ⟩ := (h.table _ hq).mp hnone
  rw [missing, Finset.filter_insert, if_pos hmiss, Finset.card_insert_of_notMem]
  · rfl
  · exact fun hc => hQ (Finset.mem_filter.mp hc).1

/-- A step of `set_mapping` down to a table, which costs a frame if the table was missing. -/
theorem dirStep (hq : User roots r (q ++ [i])) (hw : s₁.table r q = some t)
    (hd : DirStep s₁ t i s₂ t') : ∃ held₂, s.Spent roots r N n (insert (q ++ [i]) Q) s₂ held₂ ∧
      s₁.Grown roots held₁ s₂ held₂ ∧ s₂.table r (q ++ [i]) = some t' := by
  have hO := positions_user roots
  cases hd with
  | follow hp =>
    have hsome : s₁.table r (q ++ [i]) = some (frameOf (s₁.tbl t i)) := by
      rw [Mm.table, Radix.walk_snoc_of hw, child, if_pos hp]
    -- The table was there, or it is one of those that were paid for.
    have hthere : s.table r (q ++ [i]) = none → q ++ [i] ∈ Q := by
      intro hnone
      by_contra hQ
      rw [(h.table _ hq).mpr ⟨hnone, hQ⟩] at hsome
      cases hsome
    refine ⟨held₁, ⟨h.account, fun p hp' => ?_, ?_⟩, .refl h.account, hsome⟩
    · rw [h.table p hp', Finset.mem_insert, not_or]
      refine and_congr_right fun hnone => ⟨fun hQ => ⟨?_, hQ⟩, And.right⟩
      rintro rfl
      exact hQ (hthere hnone)
    · obtain ⟨l, hl, hlen⟩ := h.free
      refine ⟨l, hl, ?_⟩
      have hsame : s.missing r (insert (q ++ [i]) Q) = s.missing r Q := by
        refine Finset.ext fun p => ?_
        simp only [missing, Finset.mem_filter, Finset.mem_insert]
        constructor
        · rintro ⟨rfl | hQ, hnone⟩
          · exact ⟨hthere hnone, hnone⟩
          · exact ⟨hQ, hnone⟩
        · exact fun hQ => ⟨.inr hQ.1, hQ.2⟩
      rw [hsame, hlen]
  | fresh habs _ hg =>
    have habs' : child (s₁.tbl t i) = none := by rw [child, habs]; rfl
    have ha := h.account
    obtain ⟨hlt, h0, -⟩ := ha.head hg
    obtain ⟨-, -, hnot⟩ := ha.of_refCount_zero hlt h0
    have hb := ha.lt_two_pow hlt
    have hq' := hO.prefixClosed r q [i] hq
    have htable := fun p (hp : User roots r p) => table_install hO ha.separate hq' hw hnot hb habs' hp
    have hnone : s₁.table r (q ++ [i]) = none := by rw [Mm.table, Radix.walk_snoc_of hw, habs']
    refine ⟨_, ⟨(ha.grown_install hq hw habs' hg).account, fun p hp => ?_, ?_⟩,
      ha.grown_install hq hw habs' hg, by rw [htable _ hq, if_pos ⟨rfl, rfl⟩]⟩
    · rw [htable p hp, Finset.mem_insert, not_or]
      by_cases hpq : p = q ++ [i]
      · rw [if_pos ⟨rfl, hpq⟩]
        exact ⟨fun hc => absurd hc (Option.some_ne_none _), fun hc => absurd hpq hc.2.1⟩
      · rw [if_neg fun hc => hpq hc.2, h.table p hp]
        exact and_congr_right fun _ => (and_iff_right hpq).symm
    · have hinstall : ∀ l, (s₁.takeHead t' (convertVA t')).FreeChain l →
          (s₁.install t i t').FreeChain l := fun l hl => hl.congr rfl rfl rfl hl.unused
      obtain ⟨l, hl, hlen⟩ := h.takeHead_free hg hinstall
      refine ⟨l, hl, ?_⟩
      have hcard := h.missing_insert hq hnone
      omega

/-- A frame is taken from the free list. -/
theorem takeHead {g : ℕ} (hg : s₁.freePageHead = some g) :
    s.Spent roots r N (n + 1) Q (s₁.takeHead g (convertVA g)) (Function.update held₁ g 1) where
  account := h.account.alloc hg
  table := fun q hq => by
    rw [table_frame (positions_user roots) (h.account.tbl_takeHead hg) hq]
    exact h.table q hq
  free := h.takeHead_free hg fun _ hl => hl

/-- A frame that is no table gets other contents. -/
theorem setBlock {f : ℕ} {b : Bytes.Block} (hnot : ¬ s₁.IsTable (User roots) f) :
    s.Spent roots r N n Q (s₁.setBlock f b) held₁ where
  account := h.account.setBlock hnot
  table := fun q hq => by
    rw [table_frame (positions_user roots) (tbl_setBlock hnot) hq]
    exact h.table q hq
  free := by
    obtain ⟨l, hl, hlen⟩ := h.free
    exact ⟨l, hl.congr rfl rfl rfl hl.unused, hlen⟩

end Spent

/-- In the middle of the walk of `set_mapping` down to a page, at the table `t` with the path `q`: the tables on
the way to it are paid for. -/
def Walked (s : Mm) (roots : Finset ℕ) (r N n : ℕ) (Q : Finset (List Idx)) (v : VPage) (q : List Idx) (t : ℕ)
    (s₂ : Mm) : Prop :=
  s₂.table r q = some t ∧ ∃ Q' held₂, s.Spent roots r N n Q' s₂ held₂ ∧ Q ⊆ Q' ∧ Q' ⊆ Q ∪ v.paths ∧
    ∀ p, p ≠ [] → p <+: q → p ∈ Q'

namespace Walked

variable {v : VPage}

/-- The walk starts at the PML4. -/
theorem start (h : s.Spent roots r N n Q s₁ held₁) : s.Walked roots r N n Q v [] r s₁ :=
  ⟨rfl, Q, held₁, h, Finset.Subset.refl Q, Finset.subset_union_left, fun _ hne hp =>
    absurd (List.prefix_nil.mp hp) hne⟩

/-- The paths on the way to the page are paths of tables. -/
theorem user (hr : r ∈ roots) (hv : v.InUser) (hq : q <+: v.dir) : User roots r q := by
  obtain ⟨p, hp⟩ := hq
  exact (positions_user roots).prefixClosed r q p (hp ▸ user_dir hr hv)

/-- A free frame is the number of a frame. -/
theorem lt_two_pow {g : ℕ} (h : s.Walked roots r N n Q v q t s₁) (hg : s₁.freePageHead = some g) :
    g < 2^52 := by
  obtain ⟨-, Q', held₂, h₂, -⟩ := h
  exact h₂.account.lt_two_pow (h₂.account.head hg).1

/-- One step down. -/
theorem step (h : s.Walked roots r N n Q v q t s₁) (hr : r ∈ roots) (hv : v.InUser)
    (hq : q ++ [i] <+: v.dir) (hd : DirStep s₁ t i s₂ t') : s.Walked roots r N n Q v (q ++ [i]) t' s₂ := by
  obtain ⟨hw, Q', held₂, h₂, hQ, hsub, hpre⟩ := h
  obtain ⟨held₃, h₃, -, hw₃⟩ := h₂.dirStep (user hr hv hq) hw hd
  refine ⟨hw₃, _, held₃, h₃, hQ.trans (Finset.subset_insert ..), ?_, fun p hne hp => ?_⟩
  · refine Finset.insert_subset (Finset.mem_union_right _ ?_) hsub
    exact VPage.mem_paths.mpr ⟨by simp, hq⟩
  · rcases List.prefix_concat_iff.mp hp with rfl | hp
    · exact Finset.mem_insert_self ..
    · exact Finset.mem_insert_of_mem (hpre p hne hp)

/-- With the frames for the tables on the way, the next table is there or there is a frame for it. -/
theorem present_or_free (h : s.Walked roots r N n Q v q t s₁) (hr : r ∈ roots) (hv : v.InUser)
    (hN : n + (s.missing r (Q ∪ v.paths)).card ≤ N) (hq : q ++ [i] <+: v.dir) :
    Mm.present (s₁.tbl t i) = true ∨ s₁.freePageHead ≠ none := by
  obtain ⟨hw, Q', held₂, h₂, hQ, hsub, -⟩ := h
  cases hp : Mm.present (s₁.tbl t i) with
  | true => exact .inl rfl
  | false =>
    have hnone : s₁.table r (q ++ [i]) = none := by
      rw [Mm.table, Radix.walk_snoc_of hw, child, hp]
      rfl
    have hcard := h₂.missing_insert (user hr hv hq) hnone
    have hle : (s.missing r (insert (q ++ [i]) Q')).card ≤ (s.missing r (Q ∪ v.paths)).card :=
      missing_mono (Finset.insert_subset (Finset.mem_union_right _ (VPage.mem_paths.mpr ⟨by simp, hq⟩)) hsub)
    exact .inr (h₂.head_ne_none (by omega))

/-- At the end of the walk all tables on the way are paid for. -/
theorem spent (h : s.Walked roots r N n Q v v.dir t s₁) :
    ∃ held₂, s.Spent roots r N n (Q ∪ v.paths) s₁ held₂ := by
  obtain ⟨-, Q', held₂, h₂, hQ, hsub, hpre⟩ := h
  have hall : Q ∪ v.paths ⊆ Q' := Finset.union_subset hQ fun p hp =>
    hpre p (VPage.mem_paths.mp hp).1 (VPage.mem_paths.mp hp).2
  obtain rfl := hsub.antisymm hall
  exact ⟨held₂, h₂⟩

end Walked

namespace Spent

variable (h : s.Spent roots r N n Q s₁ held₁)

include h

/-- Where `set_mapping` returns, the tables on the way are there and paid for, and one entry is written. -/
theorem of_setMapping {s' : Mm} {phyaddr flags : Word} (hr : r ∈ roots) (hv : (vpage va).InUser)
    (hs : s₁.setMapping (convertVA r) va phyaddr flags = some s') :
    ∃ s₂ held₂ t, s' = s₂.setEntry t (vpage va).pte (phyaddr ||| flags) ∧
      s.Spent roots r N n (Q ∪ (vpage va).paths) s₂ held₂ ∧ s₂.table r (vpage va).dir = some t := by
  obtain ⟨t, s₂, hw, rfl⟩ := setMapping_cases (P := s.Walked roots r N n Q (vpage va))
    (h.account.root_lt hr) (fun _ _ _ hw _ hg => hw.lt_two_pow hg)
    (fun _ _ _ _ _ _ hq hw hd => hw.step hr hv hq hd) (.start h) hs
  obtain ⟨held₂, h₂⟩ := hw.spent
  exact ⟨s₂, held₂, t, rfl, h₂, hw.1⟩

/-- With the frames for its tables, `set_mapping` returns. -/
theorem setMapping (hr : r ∈ roots) (hv : (vpage va).InUser)
    (hN : n + (s.missing r (Q ∪ (vpage va).paths)).card ≤ N) (phyaddr flags : Word) :
    (s₁.setMapping (convertVA r) va phyaddr flags).isSome :=
  Mm.setMapping_isSome (P := s.Walked roots r N n Q (vpage va)) (h.account.root_lt hr)
    (fun _ _ _ hw _ hg => hw.lt_two_pow hg) (fun _ _ _ _ hq hw => hw.present_or_free hr hv hN hq)
    (fun _ _ _ _ _ _ hq hw hd => hw.step hr hv hq hd) (.start h)

end Spent

end Mm

end Nascent
