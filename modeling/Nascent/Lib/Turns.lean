import Nascent.Lib.Runs

/-!
# Turns

Some of the steps of a run are turns (`turns` counts them). Where no step makes a measure larger and each
turn makes it smaller, as long as nothing else has happened, there are no more turns than the measure says
before it happens (`exists_of_turns`).

The measure of a queue is the number of elements in front of one. Who takes the first element with a property
from the queue takes the one, or makes the measure smaller (`idxOf_erase_find?`).
-/

namespace Nascent.Turns

open Runs

/-! ## Runs -/

section Measure

variable {σ α : Type*} {step : σ → α → Option σ} {turn : σ → α → Bool} {s t : σ} {as bs : List α}

/-- The number of the steps of a run that are turns. -/
def turns (step : σ → α → Option σ) (turn : σ → α → Bool) : σ → List α → ℕ
  | _, [] => 0
  | s, a :: as => (turn s a).toNat + ((step s a).map (turns step turn · as)).getD 0

theorem turns_cons {a : α} {s' : σ} (hs : step s a = some s') :
    turns step turn s (a :: as) = (turn s a).toNat + turns step turn s' as := by
  rw [turns, hs]
  rfl

/-- Fewer of the steps are turns where a narrower kind of step is counted. -/
theorem turns_mono {turn' : σ → α → Bool} (h : ∀ s a, turn s a = true → turn' s a = true) :
    turns step turn s as ≤ turns step turn' s as := by
  induction as generalizing s with
  | nil => exact Nat.le_refl 0
  | cons a as ih =>
    unfold turns
    have hone : (turn s a).toNat ≤ (turn' s a).toNat := by
      cases hturn : turn s a with
      | false => exact Nat.zero_le _
      | true => exact Nat.le_of_eq (congrArg Bool.toNat (h s a hturn)).symm
    cases step s a with
    | none => exact Nat.add_le_add_right hone _
    | some s' => exact Nat.add_le_add hone ih

/-- Before a measure is used up by the turns of a run, the run comes to a state with `Q`. -/
theorem exists_of_turns {C : σ → α → Prop} {P Q : σ → Prop} {measure : σ → ℕ}
    (hstep : ∀ s a s', C s a → P s → step s a = some s' →
      Q s' ∨ (P s' ∧ measure s' + (turn s a).toNat ≤ measure s))
    (hP : P s) (hC : Along step C s as) (hr : run step s as = some t)
    (hlt : measure s < turns step turn s as) : ∃ u, Visits step s as u ∧ Q u := by
  induction as generalizing s with
  | nil => exact absurd hlt (Nat.not_lt_zero _)
  | cons a as ih =>
    obtain ⟨s', hs, hr⟩ := Option.bind_eq_some_iff.mp hr
    rw [turns_cons hs] at hlt
    rcases hstep s a s' hC.1 hP hs with hQ | ⟨hP', hle⟩
    · exact ⟨s', visits_cons hs visits_start, hQ⟩
    · obtain ⟨u, hu, hQ⟩ := ih hP' (hC.2 s' hs) hr (by omega)
      exact ⟨u, visits_cons hs hu, hQ⟩

end Measure

/-! ## Queues -/

section Queue

variable {α : Type*} [DecidableEq α] {p : α → Bool} {l : List α} {x y : α}

/-- There is one element less in front of `x`, once the first element with a property that `x` has too was
taken. -/
theorem idxOf_erase_find? (hx : x ∈ l) (hp : p x = true) (hy : l.find? p = some y) (hne : y ≠ x) :
    (l.erase y).idxOf x + 1 = l.idxOf x := by
  induction l with
  | nil => cases hx
  | cons a l ih =>
    by_cases hpa : p a = true
    · -- The element is the first one.
      rw [List.find?_cons_of_pos hpa] at hy
      obtain rfl := Option.some.inj hy
      rw [List.erase_cons_head, List.idxOf_cons_ne _ hne]
    · rw [List.find?_cons_of_neg hpa] at hy
      have hax : a ≠ x := fun h => hpa (h ▸ hp)
      have hay : a ≠ y := fun h => hpa (h ▸ List.find?_some hy)
      have hmem : x ∈ l := (List.mem_cons.mp hx).resolve_left (Ne.symm hax)
      rw [List.erase_cons_tail (by simpa using hay), List.idxOf_cons_ne _ hax, List.idxOf_cons_ne _ hax,
        ← ih hmem hy]

end Queue

end Nascent.Turns
