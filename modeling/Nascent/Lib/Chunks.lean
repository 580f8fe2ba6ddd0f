import Mathlib.Data.List.Basic
import Mathlib.Order.Basic

/-!
# The parts of a list

A list is cut into parts of `n` elements, of which the last one may be shorter. One behind the other, the parts are the
list (`flatten_chunks`). Where something is put in the place of every part, and it begins with the part, the list comes
out only if every part stands for itself (`flatMap_chunks_eq_iff`).
-/

namespace Nascent.Chunks

variable {α : Type*} {n : ℕ} {l : List α} {ls : List (List α)} {f : List α → List α}

/-- The parts of a list. -/
def chunks (n : ℕ) (l : List α) : List (List α) :=
  if _h : l = [] ∨ n = 0 then [] else l.take n :: chunks n (l.drop n)
termination_by l.length
decreasing_by
  have hpos := List.length_pos_of_ne_nil (not_or.mp _h).1
  rw [List.length_drop]
  omega

@[simp] theorem chunks_nil : chunks n ([] : List α) = [] := by
  rw [chunks, dif_pos (.inl rfl)]

theorem chunks_of_ne_nil (hn : n ≠ 0) (hl : l ≠ []) : chunks n l = l.take n :: chunks n (l.drop n) := by
  rw [chunks, dif_neg (not_or.mpr ⟨hl, hn⟩)]

/-- An induction over the parts. -/
theorem chunks_induction {P : List α → Prop} (hn : n ≠ 0) (hnil : P [])
    (hchunk : ∀ l, l ≠ [] → P (l.drop n) → P l) (l : List α) : P l := by
  fun_induction chunks n l with
  | case1 l h =>
    rw [h.resolve_right hn]
    exact hnil
  | case2 l h ih => exact hchunk l (not_or.mp h).1 ih

/-- One behind the other, the parts are the list. -/
theorem flatten_chunks (hn : n ≠ 0) (l : List α) : (chunks n l).flatten = l := by
  apply chunks_induction (P := fun l => (chunks n l).flatten = l) hn
  · rw [chunks_nil, List.flatten_nil]
  · intro l hl ih
    rw [chunks_of_ne_nil hn hl, List.flatten_cons, ih, List.take_append_drop]

/-- There are no more parts than elements. -/
theorem length_chunks_le (hn : n ≠ 0) (l : List α) : (chunks n l).length ≤ l.length := by
  apply chunks_induction (P := fun l => (chunks n l).length ≤ l.length) hn
  · rw [chunks_nil]
    exact Nat.le_refl _
  · intro l hl ih
    have hpos := List.length_pos_of_ne_nil hl
    rw [chunks_of_ne_nil hn hl, List.length_cons]
    rw [List.length_drop] at ih
    omega

/-- What is put in the place of the lists is not shorter. -/
theorem length_flatten_le (hf : ∀ c ∈ ls, c <+: f c) : ls.flatten.length ≤ (ls.flatMap f).length := by
  induction ls with
  | nil => exact Nat.le_refl _
  | cons c ls ih =>
    obtain ⟨hfirst, hrest⟩ := List.forall_mem_cons.mp hf
    rw [List.flatten_cons, List.flatMap_cons, List.length_append, List.length_append]
    exact Nat.add_le_add hfirst.length_le (ih hrest)

/-- Where it is not longer either, every list stands for itself. -/
theorem eq_self_of_length_le (hf : ∀ c ∈ ls, c <+: f c) (hle : (ls.flatMap f).length ≤ ls.flatten.length) :
    ∀ c ∈ ls, f c = c := by
  induction ls with
  | nil => exact fun c hc => absurd hc List.not_mem_nil
  | cons c ls ih =>
    obtain ⟨hfirst, hrest⟩ := List.forall_mem_cons.mp hf
    rw [List.flatten_cons, List.flatMap_cons, List.length_append, List.length_append] at hle
    have hfirst' := hfirst.length_le
    have hrest' := length_flatten_le hrest
    exact List.forall_mem_cons.mpr ⟨(hfirst.eq_of_length (by omega)).symm, ih hrest (by omega)⟩

/-- Where every part begins what is put in its place, the list comes out if and only if every part stands for itself. -/
theorem flatMap_chunks_eq_iff (hn : n ≠ 0) (l : List α) (hf : ∀ c ∈ chunks n l, c <+: f c) :
    (chunks n l).flatMap f = l ↔ ∀ c ∈ chunks n l, f c = c := by
  constructor
  · intro heq
    apply eq_self_of_length_le hf
    exact Nat.le_of_eq (congrArg List.length (heq.trans (flatten_chunks hn l).symm))
  · intro hself
    calc (chunks n l).flatMap f = (chunks n l).flatten := by
          rw [List.flatMap_def, List.map_congr_left hself, List.map_id']
      _ = l := flatten_chunks hn l

end Nascent.Chunks
