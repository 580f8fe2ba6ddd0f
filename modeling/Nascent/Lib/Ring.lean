import Mathlib.Data.Finset.Lattice.Fold
import Mathlib.Data.Finset.Max
import Mathlib.Data.Finset.Card
import Mathlib.Order.Interval.Finset.Defs
import Mathlib.Logic.Function.Iterate
import Mathlib.Dynamics.PeriodicPts.Defs
import Mathlib.Logic.Function.Basic

/-!
# Circular lists in increasing order

The nodes of a circular list are a finite set of a linear order, and `next` leads from each node to the
one behind it. In a `Ring` this is the next higher node, and from the highest node it is the lowest, so
the list goes through its nodes in increasing order and wraps around once. Every node is reached from
every other (`Ring.reach`). A new node goes into the gap behind a node (`Ring.insert`), and the node
behind a node is taken out (`Ring.erase_next`).
-/

namespace Nascent

variable {α : Type*} [LinearOrder α]

/-- The element `x` belongs behind the node `p` whose next node is `q`: between the two, or beyond the
highest or below the lowest node where the list wraps around. -/
def InGap (p q x : α) : Prop := (p < x ∧ x < q) ∨ (q ≤ p ∧ (p < x ∨ x < q))

/-- An element of a gap splits the gap: no other element is in one of the parts. -/
theorem not_inGap_split {p n x y : α} (hx : InGap p n x) (hy : ¬ InGap p n y) :
    ¬ InGap p x y ∧ ¬ InGap x n y := by
  unfold InGap at *
  grind

/-- The two ends of a gap are not in it. -/
theorem not_inGap_ends (p n : α) : ¬ InGap p n p ∧ ¬ InGap p n n := by
  unfold InGap
  grind

/-- The gaps behind two nodes have no common element. -/
theorem not_inGap_of_inGap {p n q m x : α} (hx : InGap p n x) (hq : ¬ InGap p n q)
    (hm : ¬ InGap p n m) (hp : ¬ InGap q m p) (hn : ¬ InGap q m n) (hne : q ≠ p) : ¬ InGap q m x := by
  unfold InGap at *
  grind

/-- Two gaps that follow each other: what is in neither of them, nor between them, is not in the gap
from the start of the first to the end of the second. -/
theorem not_inGap_join {p n m y : α} (hpy : ¬ InGap p n y) (hny : ¬ InGap n m y) (hy : y ≠ n) :
    ¬ InGap p m y := by
  unfold InGap at *
  grind

/-- Two gaps do not end at the same element. -/
theorem eq_of_not_inGap {p q n : α} (hpq : ¬ InGap p n q) (hqp : ¬ InGap q n p) : q = p := by
  unfold InGap at *
  grind

/-- A walk that comes back to the node it started behind has seen everything it will ever see. -/
theorem exists_le_of_return {β : Type*} {next : β → β} {f : β} {P : β → Prop} {j k : ℕ}
    (hreturn : next^[j] (next f) = f) (hk : P (next^[k] (next f))) :
    ∃ i ≤ j, P (next^[i] (next f)) := by
  have hperiod : Function.IsPeriodicPt next (j + 1) (next f) := by
    rw [Function.IsPeriodicPt, Function.IsFixedPt, Function.iterate_succ_apply', hreturn]
  refine ⟨k % (j + 1), Nat.le_of_lt_succ (Nat.mod_lt k (Nat.succ_pos j)), ?_⟩
  rwa [hperiod.iterate_mod_apply]

/-- A circular list that goes through the nodes in increasing order. -/
structure Ring (nodes : Finset α) (next : α → α) : Prop where
  /-- There is a node. -/
  nonempty : nodes.Nonempty
  /-- The list stays in its nodes. -/
  next_mem : ∀ p ∈ nodes, next p ∈ nodes
  /-- There is no node in the gap behind a node. -/
  gap : ∀ p ∈ nodes, ∀ x ∈ nodes, ¬ InGap p (next p) x

namespace Ring

variable {nodes : Finset α} {next next' : α → α} {p q x : α}

/-- The list of one node. -/
theorem singleton (p : α) (h : next p = p) : Ring {p} next := by
  refine ⟨Finset.singleton_nonempty p, fun q hq => ?_, fun q hq x hx hgap => ?_⟩
  · rw [Finset.mem_singleton] at hq ⊢
    rw [hq, h]
  · rw [Finset.mem_singleton] at hq hx
    rw [hq, hx, h] at hgap
    rcases hgap with ⟨h1, -⟩ | ⟨-, h1 | h1⟩ <;> exact lt_irrefl _ h1

/-- The list stays in its nodes, however many steps it takes. -/
theorem iterate_mem (h : Ring nodes next) (hp : p ∈ nodes) : ∀ k, next^[k] p ∈ nodes
  | 0 => hp
  | k + 1 => by
    rw [Function.iterate_succ_apply']
    exact h.next_mem _ (h.iterate_mem hp k)

/-- Every node is the next one, or in order, or reached by the wrap. -/
theorem next_le_of_lt (h : Ring nodes next) (hp : p ∈ nodes) (hx : x ∈ nodes) (hlt : p < x) :
    p < next p ∧ next p ≤ x := by
  have hgap := h.gap p hp x hx
  by_contra hcon
  refine hgap ?_
  rcases lt_or_ge p (next p) with hpn | hpn
  · exact .inl ⟨hlt, not_le.mp fun hle => hcon ⟨hpn, hle⟩⟩
  · exact .inr ⟨hpn, .inl hlt⟩

/-- From the highest node the list wraps around to the lowest. -/
theorem next_le_of_max (h : Ring nodes next) (hp : p ∈ nodes) (hmax : ∀ y ∈ nodes, y ≤ p)
    (hx : x ∈ nodes) : next p ≤ x := by
  by_contra hlt
  exact h.gap p hp x hx (.inr ⟨hmax _ (h.next_mem p hp), .inr (not_le.mp hlt)⟩)

/-- A node that is its own next one is the only node. -/
theorem eq_of_next_self (h : Ring nodes next) (hp : p ∈ nodes) (hself : next p = p) (hx : x ∈ nodes) :
    x = p := by
  by_contra hne
  refine h.gap p hp x hx ?_
  rw [hself]
  exact .inr ⟨le_rfl, (lt_or_gt_of_ne hne).symm⟩

/-- A node that is higher is reached. -/
theorem reach_of_le (h : Ring nodes next) (hx : x ∈ nodes) : ∀ (k : ℕ) (p : α), p ∈ nodes → p ≤ x →
    (nodes.filter fun y => p < y ∧ y ≤ x).card = k → next^[k] p = x
  | 0, p, hp, hle, hcard => by
    rw [Finset.card_eq_zero, Finset.filter_eq_empty_iff] at hcard
    rcases hle.lt_or_eq with hlt | rfl
    · exact absurd ⟨hlt, le_rfl⟩ (hcard hx)
    · rfl
  | k + 1, p, hp, hle, hcard => by
    have hlt : p < x := by
      refine hle.lt_of_ne fun heq => ?_
      have hempty : (nodes.filter fun y => p < y ∧ y ≤ x) = ∅ := by
        rw [Finset.filter_eq_empty_iff]
        exact fun y _ hy => absurd (hy.1.trans_le hy.2) (heq ▸ lt_irrefl _)
      rw [hempty] at hcard
      cases hcard
    obtain ⟨hpn, hnx⟩ := h.next_le_of_lt hp hx hlt
    refine reach_of_le h hx k (next p) (h.next_mem p hp) hnx ?_
    -- The step leaves out one of the nodes that are counted, the next one.
    have hset : (nodes.filter fun y => p < y ∧ y ≤ x).erase (next p) =
        nodes.filter fun y => next p < y ∧ y ≤ x := by
      ext y
      simp only [Finset.mem_erase, Finset.mem_filter]
      constructor
      · rintro ⟨hne, hy, hpy, hyx⟩
        exact ⟨hy, (h.next_le_of_lt hp hy hpy).2.lt_of_ne (Ne.symm hne), hyx⟩
      · rintro ⟨hy, hny, hyx⟩
        exact ⟨hny.ne', hy, hpn.trans hny, hyx⟩
    rw [← hset, Finset.card_erase_of_mem, hcard, Nat.add_sub_cancel]
    exact Finset.mem_filter.mpr ⟨h.next_mem p hp, hpn, hnx⟩

/-- Every node is reached from every node. -/
theorem reach (h : Ring nodes next) (hp : p ∈ nodes) (hx : x ∈ nodes) : ∃ k, next^[k] p = x := by
  obtain ⟨k, hk⟩ : ∃ k, next^[k] p = nodes.max' h.nonempty :=
    ⟨_, h.reach_of_le (nodes.max'_mem _) _ p hp (nodes.le_max' p hp) rfl⟩
  -- The list wraps around at the highest node.
  have hmax := nodes.max'_mem h.nonempty
  have hlow : next (nodes.max' h.nonempty) ≤ x :=
    h.next_le_of_max hmax (fun y hy => nodes.le_max' y hy) hx
  obtain ⟨j, hj⟩ : ∃ j, next^[j] (next (nodes.max' h.nonempty)) = x :=
    ⟨_, h.reach_of_le hx _ _ (h.next_mem _ hmax) hlow rfl⟩
  refine ⟨j + (k + 1), ?_⟩
  rw [Function.iterate_add_apply, Function.iterate_succ_apply', hk, hj]

/-- Every element that is no node belongs into the gap behind some node. -/
theorem exists_inGap (h : Ring nodes next) (hx : x ∉ nodes) : ∃ p ∈ nodes, InGap p (next p) x := by
  by_cases hlow : (nodes.filter (· < x)).Nonempty
  · -- The highest node below the element.
    have hmem := Finset.mem_filter.mp ((nodes.filter (· < x)).max'_mem hlow)
    have hmax : ∀ y ∈ nodes, y < x → y ≤ (nodes.filter (· < x)).max' hlow := fun y hy hyx =>
      Finset.le_max' _ _ (Finset.mem_filter.mpr ⟨hy, hyx⟩)
    generalize (nodes.filter (· < x)).max' hlow = p at hmem hmax
    refine ⟨p, hmem.1, ?_⟩
    rcases lt_or_ge (next p) x with hnx | hxn
    · exact .inr ⟨hmax _ (h.next_mem p hmem.1) hnx, .inl hmem.2⟩
    · have hne : x ≠ next p := fun heq => hx (heq ▸ h.next_mem p hmem.1)
      exact .inl ⟨hmem.2, hxn.lt_of_ne hne⟩
  · -- All nodes are above the element, so it belongs behind the highest.
    have hall : ∀ y ∈ nodes, x < y := fun y hy => by
      have hnlt : ¬ y < x := fun hlt => hlow ⟨y, Finset.mem_filter.mpr ⟨hy, hlt⟩⟩
      exact (not_lt.mp hnlt).lt_of_ne fun heq => hx (heq ▸ hy)
    have hmem := nodes.max'_mem h.nonempty
    exact ⟨_, hmem, .inr ⟨nodes.le_max' _ (h.next_mem _ hmem), .inr (hall _ (h.next_mem _ hmem))⟩⟩

/-- An element is added in the gap behind a node. -/
theorem insert (h : Ring nodes next) (hp : p ∈ nodes) (hx : x ∉ nodes) (hgap : InGap p (next p) x) :
    Ring (insert x nodes) (Function.update (Function.update next x (next p)) p x) := by
  have hpx : p ≠ x := fun heq => hx (heq ▸ hp)
  refine ⟨Finset.insert_nonempty _ _, fun q hq => ?_, fun q hq y hy => ?_⟩
  · by_cases hqp : q = p
    · rw [hqp, Function.update_self]
      exact Finset.mem_insert_self _ _
    · rw [Function.update_of_ne hqp]
      by_cases hqx : q = x
      · rw [hqx, Function.update_self]
        exact Finset.mem_insert_of_mem (h.next_mem p hp)
      · rw [Function.update_of_ne hqx]
        exact Finset.mem_insert_of_mem (h.next_mem q ((Finset.mem_insert.mp hq).resolve_left hqx))
  · -- The new element is in neither part of the gap, and in no other gap.
    have hyp : y = x ∨ ¬ InGap p (next p) y :=
      (Finset.mem_insert.mp hy).imp_right fun hmem => h.gap p hp y hmem
    by_cases hqp : q = p
    · rw [hqp, Function.update_self]
      rcases hyp with rfl | hyp
      · exact (not_inGap_ends p y).2
      · exact (not_inGap_split hgap hyp).1
    · rw [Function.update_of_ne hqp]
      by_cases hqx : q = x
      · rw [hqx, Function.update_self]
        rcases hyp with rfl | hyp
        · exact (not_inGap_ends y (next p)).1
        · exact (not_inGap_split hgap hyp).2
      · have hmem := (Finset.mem_insert.mp hq).resolve_left hqx
        rw [Function.update_of_ne hqx]
        rcases Finset.mem_insert.mp hy with heq | hy
        · rw [heq]
          exact not_inGap_of_inGap hgap (h.gap p hp q hmem) (h.gap p hp _ (h.next_mem q hmem))
            (h.gap q hmem p hp) (h.gap q hmem _ (h.next_mem p hp)) hqp
        · exact h.gap q hmem y hy

/-- The node behind a node is taken out. -/
theorem erase_next (h : Ring nodes next) (hp : p ∈ nodes) (hne : next p ≠ p) :
    Ring (nodes.erase (next p)) (Function.update next p (next (next p))) := by
  have hn := h.next_mem p hp
  have hnn : next (next p) ≠ next p := fun hself => hne (h.eq_of_next_self hn hself hp).symm
  refine ⟨⟨p, Finset.mem_erase.mpr ⟨hne.symm, hp⟩⟩, fun q hq => ?_, fun q hq y hy => ?_⟩
  · have hq := Finset.mem_of_mem_erase hq
    by_cases hqp : q = p
    · rw [hqp, Function.update_self]
      exact Finset.mem_erase.mpr ⟨hnn, h.next_mem _ hn⟩
    · rw [Function.update_of_ne hqp]
      refine Finset.mem_erase.mpr ⟨fun heq => hqp ?_, h.next_mem q hq⟩
      exact eq_of_not_inGap (h.gap p hp q hq) (heq ▸ h.gap q hq p hp)
  · have hq := Finset.mem_of_mem_erase hq
    obtain ⟨hyn, hy⟩ := Finset.mem_erase.mp hy
    by_cases hqp : q = p
    · rw [hqp, Function.update_self]
      exact not_inGap_join (h.gap p hp y hy) (h.gap _ hn y hy) hyn
    · rw [Function.update_of_ne hqp]
      exact h.gap q hq y hy

end Ring

end Nascent
