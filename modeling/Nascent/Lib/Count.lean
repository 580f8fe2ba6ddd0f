import Mathlib.Data.Finset.Card

/-!
# Counting the references that a partial map holds

A table of references is a partial map from places to targets. `count D m b` is the number of
places in `D` that refer to `b`. A change at one place changes the count of its old and of its new
target by one each (`count_update`), which is what a reference count has to follow.
-/

namespace Nascent.Count

variable {α β : Type*} [DecidableEq β] {D E : Finset α} {m m' : α → Option β} {a : α} {b : β}

/-- The number of places in `D` that refer to `b`. -/
def count (D : Finset α) (m : α → Option β) (b : β) : ℕ := (D.filter fun a => m a = some b).card

/-- A count only depends on the places counted. -/
theorem count_congr (h : ∀ a ∈ D, m' a = m a) : count D m' b = count D m b :=
  congrArg Finset.card (Finset.filter_congr fun a ha => by rw [h a ha])

/-- A target has a positive count if and only if some place refers to it. -/
theorem count_pos : 0 < count D m b ↔ ∃ a ∈ D, m a = some b := by
  rw [count, Finset.card_pos]
  constructor
  · rintro ⟨a, ha⟩
    exact ⟨a, (Finset.mem_filter.mp ha).1, (Finset.mem_filter.mp ha).2⟩
  · rintro ⟨a, ha, hb⟩
    exact ⟨a, Finset.mem_filter.mpr ⟨ha, hb⟩⟩

/-- A target to which no place refers has the count 0. -/
theorem count_eq_zero (h : ∀ a ∈ D, m a ≠ some b) : count D m b = 0 := by
  refine Nat.eq_zero_of_not_pos fun hpos => ?_
  obtain ⟨a, ha, hb⟩ := count_pos.mp hpos
  exact h a ha hb

/-- The count without one place. -/
theorem count_erase [DecidableEq α] (ha : a ∈ D) :
    count D m b = count (D.erase a) m b + if m a = some b then 1 else 0 := by
  have hsplit : count D m b = ((insert a (D.erase a)).filter fun x => m x = some b).card := by
    rw [Finset.insert_erase ha, count]
  rw [hsplit, Finset.filter_insert, count]
  split_ifs with h
  · rw [Finset.card_insert_of_notMem]
    simp
  · rfl

/-- The counts after a change at one place. -/
theorem count_update [DecidableEq α] (ha : a ∈ D) (h : ∀ x ∈ D, x ≠ a → m' x = m x) :
    count D m' b + (if m a = some b then 1 else 0) =
      count D m b + if m' a = some b then 1 else 0 := by
  have hrest : count (D.erase a) m' b = count (D.erase a) m b :=
    count_congr fun x hx => h x (Finset.mem_of_mem_erase hx) (Finset.ne_of_mem_erase hx)
  rw [count_erase (m := m') ha, count_erase (m := m) ha, hrest]
  omega

/-- Two places that refer to the same target are one where its count is 1. -/
theorem eq_of_count_eq_one (a a' : α) (h : count D m b = 1) (ha : a ∈ D) (hm : m a = some b)
    (ha' : a' ∈ D) (hm' : m a' = some b) : a' = a := by
  obtain ⟨x, hx⟩ := Finset.card_eq_one.mp h
  have h1 : a ∈ ({x} : Finset α) := hx ▸ Finset.mem_filter.mpr ⟨ha, hm⟩
  have h2 : a' ∈ ({x} : Finset α) := hx ▸ Finset.mem_filter.mpr ⟨ha', hm'⟩
  rw [Finset.mem_singleton.mp h1, Finset.mem_singleton.mp h2]

/-- Places that refer to nothing do not count. -/
theorem count_union_of_none [DecidableEq α] (h : ∀ a ∈ E, m a = none) :
    count (D ∪ E) m b = count D m b := by
  refine congrArg Finset.card ?_
  ext a
  simp only [Finset.mem_filter, Finset.mem_union]
  constructor
  · rintro ⟨ha | ha, hb⟩
    · exact ⟨ha, hb⟩
    · rw [h a ha] at hb
      cases hb
  · rintro ⟨ha, hb⟩
    exact ⟨.inl ha, hb⟩

end Nascent.Count
