import Mathlib.Data.List.Basic

/-!
# Trees of tables

A multi-level table is kept in nodes, each with an entry at every index; an entry may point to a
child node. `walk` follows a path of indices from a node. The tree is not a data type of its own:
it is whatever the nodes' entries say, so a write to one entry may change any walk through it.

`Apart` is what rules that out for a family of positions, each a start node and a path: two
positions that reach the same node are the same position. Under it, a write to the entry `i` of the
node at a position changes only the walks that go through this very entry (`walk_write`), and an
entry may get a fresh, empty child, or lose its child (`Apart.write`).
-/

namespace Nascent.Radix

variable {Node Idx Entry : Type*} {child : Entry → Option Node} {tbl tbl' : Node → Idx → Entry}
  {n m g t : Node} {i : Idx} {p q r : List Idx} {Own : Node → List Idx → Prop}

/-- The node that a path leads to. -/
def walk (child : Entry → Option Node) (tbl : Node → Idx → Entry) : Node → List Idx → Option Node
  | n, [] => some n
  | n, i :: p => (child (tbl n i)).bind (walk child tbl · p)

@[simp] theorem walk_nil : walk child tbl n [] = some n := rfl

@[simp] theorem walk_cons :
    walk child tbl n (i :: p) = (child (tbl n i)).bind (walk child tbl · p) := rfl

/-- A path of two parts leads through the node after the first. -/
theorem walk_append : walk child tbl n (p ++ q) = (walk child tbl n p).bind (walk child tbl · q) := by
  induction p generalizing n with
  | nil => rfl
  | cons i p ih =>
    simp only [List.cons_append, walk_cons, Option.bind_assoc]
    exact congrArg _ (funext fun m => ih)

/-- The last step of a path. -/
theorem walk_snoc :
    walk child tbl n (p ++ [i]) = (walk child tbl n p).bind fun m => child (tbl m i) := by
  rw [walk_append]
  refine congrArg _ (funext fun m => ?_)
  rw [walk_cons]
  exact Option.bind_fun_some _

/-- The last step of a path from a node that it reaches. -/
theorem walk_snoc_of (h : walk child tbl n p = some m) :
    walk child tbl n (p ++ [i]) = child (tbl m i) := by
  rw [walk_snoc, h, Option.bind_some]

/-- A walk only depends on the entries that it reads. -/
theorem walk_congr (h : ∀ q i r m, p = q ++ i :: r → walk child tbl n q = some m →
    tbl' m i = tbl m i) : walk child tbl' n p = walk child tbl n p := by
  induction p generalizing n with
  | nil => rfl
  | cons i p ih =>
    rw [walk_cons, walk_cons, h [] i p n rfl rfl]
    cases hc : child (tbl n i) with
    | none => rfl
    | some m =>
      refine ih fun q j r m' hp hw => h (i :: q) j r m' (by rw [hp]; rfl) ?_
      rw [walk_cons, hc]
      exact hw

/-! ## Separated positions -/

/-- The positions `Own` reach distinct nodes. -/
def Apart (child : Entry → Option Node) (tbl : Node → Idx → Entry)
    (Own : Node → List Idx → Prop) : Prop :=
  ∀ n p n' p' t, Own n p → Own n' p' → walk child tbl n p = some t →
    walk child tbl n' p' = some t → n = n' ∧ p = p'

/-- The family of positions holds the initial parts of its paths. -/
def PrefixClosed (Own : Node → List Idx → Prop) : Prop :=
  ∀ n p q, Own n (p ++ q) → Own n p

/-- `tbl'` is `tbl` but for the entry `i` of the node `t` and for nodes that no position reaches. -/
def WriteAt (child : Entry → Option Node) (tbl tbl' : Node → Idx → Entry)
    (Own : Node → List Idx → Prop) (t : Node) (i : Idx) : Prop :=
  ∀ m j, (m ≠ t ∨ j ≠ i) → (∃ n p, Own n p ∧ walk child tbl n p = some m) → tbl' m j = tbl m j

/-- A walk that does not go through the entry `i` of the node at the position `(n, q)` is not
changed by a write to it. -/
theorem walk_write (hA : Apart child tbl Own) (hP : PrefixClosed Own) (hq : Own n q)
    (hw : walk child tbl n q = some t) (htbl : WriteAt child tbl tbl' Own t i)
    {n' : Node} {p' : List Idx} (hp' : Own n' p') (hne : ¬ (n' = n ∧ q ++ [i] <+: p')) :
    walk child tbl' n' p' = walk child tbl n' p' := by
  refine walk_congr fun r j r' m hp hwr => ?_
  have hr : Own n' r := hP n' r (j :: r') (hp ▸ hp')
  refine htbl m j ?_ ⟨n', r, hr, hwr⟩
  by_contra hcon
  push Not at hcon
  obtain ⟨rfl, rfl⟩ := hcon
  obtain ⟨rfl, rfl⟩ := hA _ _ _ _ _ hr hq hwr hw
  exact hne ⟨rfl, ⟨r', by rw [hp, List.append_assoc]; rfl⟩⟩

/-- The node at the position of the written entry stays where it is. -/
theorem walk_write_self (hA : Apart child tbl Own) (hP : PrefixClosed Own) (hq : Own n q)
    (hw : walk child tbl n q = some t) (htbl : WriteAt child tbl tbl' Own t i) :
    walk child tbl' n q = some t := by
  rw [walk_write hA hP hq hw htbl hq, hw]
  rintro ⟨-, hle⟩
  have := hle.length_le
  simp only [List.length_append, List.length_singleton] at this
  omega

/-- A walk that goes through a written entry goes on from what the entry now points to. -/
theorem walk_through (hA : Apart child tbl Own) (hP : PrefixClosed Own) (hq : Own n q)
    (hw : walk child tbl n q = some t) (htbl : WriteAt child tbl tbl' Own t i) :
    walk child tbl' n (q ++ i :: r) = (child (tbl' t i)).bind (walk child tbl' · r) := by
  rw [walk_append, walk_write_self hA hP hq hw htbl, Option.bind_some, walk_cons]

/-- A table without children ends every walk. -/
theorem walk_blank (h : ∀ j, child (tbl g j) = none) (hr : r ≠ []) : walk child tbl g r = none := by
  cases r with
  | nil => exact (hr rfl).elim
  | cons j r => rw [walk_cons, h j, Option.bind_none]

/-- Where the positions lead after a write whose entry gets a child without children, or none: the
position right below the entry leads to the child, those further below lead nowhere, and the others
lead where they did. -/
theorem walk_write_eq [DecidableEq Node] [DecidableEq Idx] (hA : Apart child tbl Own)
    (hP : PrefixClosed Own) (hq : Own n q) (hw : walk child tbl n q = some t)
    (htbl : WriteAt child tbl tbl' Own t i)
    (hchild : ∀ g, child (tbl' t i) = some g → ∀ j, child (tbl' g j) = none)
    {n' : Node} {p' : List Idx} (hp' : Own n' p') :
    walk child tbl' n' p' = if n' = n ∧ q ++ [i] <+: p' then
      if p' = q ++ [i] then child (tbl' t i) else none else walk child tbl n' p' := by
  split_ifs with hthru hp
  · obtain ⟨rfl, -⟩ := hthru
    rw [hp, walk_snoc_of (walk_write_self hA hP hq hw htbl)]
  · obtain ⟨rfl, r, rfl⟩ := hthru
    have hr : r ≠ [] := fun hr => hp (by rw [hr, List.append_nil])
    rw [List.append_assoc, List.singleton_append, walk_through hA hP hq hw htbl]
    cases hc : child (tbl' t i) with
    | none => rfl
    | some g => exact walk_blank (hchild g hc) hr
  · exact walk_write hA hP hq hw htbl hp' hthru

/-- Separated positions stay separated when an entry gets a child that no position reaches and
that has no children, or no child at all. -/
theorem Apart.write (hA : Apart child tbl Own) (hP : PrefixClosed Own) (hq : Own n q)
    (hw : walk child tbl n q = some t) (htbl : WriteAt child tbl tbl' Own t i)
    (hchild : ∀ g, child (tbl' t i) = some g →
      (∀ n' p', Own n' p' → walk child tbl n' p' ≠ some g) ∧ ∀ j, child (tbl' g j) = none) :
    Apart child tbl' Own := by
  -- Where a position through the written entry leads: to the new child, and nowhere below it.
  have hthrough : ∀ r t', walk child tbl' n (q ++ i :: r) = some t' →
      child (tbl' t i) = some t' ∧ r = [] := by
    intro r t' hr
    rw [walk_through hA hP hq hw htbl] at hr
    obtain ⟨g, hg, hr⟩ := Option.bind_eq_some_iff.mp hr
    by_cases hr0 : r = []
    · subst hr0
      rw [walk_nil] at hr
      exact ⟨hg.trans hr, rfl⟩
    · rw [walk_blank (hchild g hg).2 hr0] at hr
      cases hr
  -- The other positions lead where they did, so not to the new child.
  have hother : ∀ n' p' t', Own n' p' → walk child tbl' n' p' = some t' →
      (n' = n ∧ p' = q ++ [i] ∧ child (tbl' t i) = some t') ∨
        (walk child tbl n' p' = some t' ∧ child (tbl' t i) ≠ some t') := by
    intro n' p' t' hp' hw'
    by_cases hthru : n' = n ∧ q ++ [i] <+: p'
    · obtain ⟨rfl, r, rfl⟩ := hthru
      rw [List.append_assoc, List.singleton_append] at hw' ⊢
      obtain ⟨hc, rfl⟩ := hthrough r t' hw'
      exact .inl ⟨rfl, rfl, hc⟩
    · rw [walk_write hA hP hq hw htbl hp' hthru] at hw'
      exact .inr ⟨hw', fun hc => (hchild t' hc).1 n' p' hp' hw'⟩
  intro n₁ p₁ n₂ p₂ t' h₁ h₂ hw₁ hw₂
  rcases hother n₁ p₁ t' h₁ hw₁ with ⟨rfl, rfl, hc₁⟩ | ⟨hw₁, hc₁⟩
  · rcases hother n₂ p₂ t' h₂ hw₂ with ⟨rfl, rfl, -⟩ | ⟨-, hc₂⟩
    · exact ⟨rfl, rfl⟩
    · exact (hc₂ hc₁).elim
  · rcases hother n₂ p₂ t' h₂ hw₂ with ⟨rfl, rfl, hc₂⟩ | ⟨hw₂, -⟩
    · exact (hc₁ hc₂).elim
    · exact hA n₁ p₁ n₂ p₂ t' h₁ h₂ hw₁ hw₂

end Nascent.Radix
