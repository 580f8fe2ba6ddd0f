import Mathlib.Data.List.Basic

/-!
# Lines

The complete lines of a list: what stands before each occurrence of a delimiter `d`. A list of lines that
were `joined`, each with the delimiter behind it, splits into these lines (`lines_joined`). What stands
behind the last delimiter is the `rest` (`joined_lines`).
-/

namespace Nascent.Lines

variable {α : Type*} [DecidableEq α] {d : α} {l cs : List α} {ls : List (List α)}

/-- The complete lines of a list, behind a line that has begun. -/
def linesFrom (d : α) : List α → List α → List (List α)
  | _, [] => []
  | l, c :: cs => if c = d then l :: linesFrom d [] cs else linesFrom d (l ++ [c]) cs

/-- The complete lines of a list. -/
def lines (d : α) (cs : List α) : List (List α) := linesFrom d [] cs

/-- Lines with the delimiter behind each of them. -/
def joined (d : α) (ls : List (List α)) : List α := ls.flatMap (· ++ [d])

omit [DecidableEq α] in
@[simp] theorem joined_concat : joined d (ls ++ [l]) = joined d ls ++ (l ++ [d]) := by
  rw [joined, List.flatMap_append, List.flatMap_singleton, joined]

omit [DecidableEq α] in
/-- The delimiter between the lines, and one behind the last of them. -/
theorem joined_eq_intercalate : ∀ {ls : List (List α)}, ls ≠ [] → joined d ls = [d].intercalate ls ++ [d]
  | [l], _ => by rw [joined, List.flatMap_singleton, List.intercalate_singleton]
  | l :: l' :: ls, _ => by
    rw [List.intercalate_cons_cons, joined, List.flatMap_cons, List.append_assoc (l ++ [d])]
    exact congrArg _ (joined_eq_intercalate (List.cons_ne_nil l' ls))

theorem linesFrom_append_cons {l₀ : List α} (h : d ∉ l) :
    linesFrom d l₀ (l ++ d :: cs) = (l₀ ++ l) :: lines d cs := by
  induction l generalizing l₀ with
  | nil => rw [List.nil_append, linesFrom, if_pos rfl, List.append_nil, lines]
  | cons c l ih =>
    rw [List.mem_cons, not_or] at h
    rw [List.cons_append, linesFrom, if_neg (Ne.symm h.1), ih h.2, List.append_assoc,
      List.singleton_append]

/-- The first line. -/
theorem lines_append_cons (h : d ∉ l) : lines d (l ++ d :: cs) = l :: lines d cs :=
  linesFrom_append_cons h

/-- Joined lines are the first lines of what they begin. -/
theorem lines_joined (h : ∀ l ∈ ls, d ∉ l) : lines d (joined d ls ++ cs) = ls ++ lines d cs := by
  induction ls with
  | nil => rfl
  | cons l ls ih =>
    obtain ⟨hl, hls⟩ := List.forall_mem_cons.mp h
    have hjoin : joined d (l :: ls) ++ cs = l ++ d :: (joined d ls ++ cs) := by simp [joined]
    rw [hjoin, lines_append_cons hl, ih hls, List.cons_append]

/-- There is a line for each delimiter. -/
theorem length_linesFrom : (linesFrom d l cs).length = cs.count d := by
  induction cs generalizing l with
  | nil => rfl
  | cons c cs ih =>
    rw [linesFrom]
    split
    · rename_i hc
      rw [List.length_cons, ih, hc, List.count_cons_self]
    · rename_i hc
      rw [ih, List.count_cons_of_ne hc]

theorem length_lines : (lines d cs).length = cs.count d := length_linesFrom

/-- Joined lines have a delimiter for each line. -/
theorem count_joined (h : ∀ l ∈ ls, d ∉ l) : (joined d ls).count d = ls.length := by
  rw [← length_lines, ← List.append_nil (joined d ls), lines_joined h, List.length_append]
  rfl

/-- What stands behind the last delimiter, behind a line that has begun. -/
def restFrom (d : α) : List α → List α → List α
  | l, [] => l
  | l, c :: cs => if c = d then restFrom d [] cs else restFrom d (l ++ [c]) cs

/-- What stands behind the last delimiter. -/
def rest (d : α) (cs : List α) : List α := restFrom d [] cs

/-- The complete lines, and the rest if there is one. -/
def allLines (d : α) (cs : List α) : List (List α) :=
  lines d cs ++ if rest d cs = [] then [] else [rest d cs]

theorem joined_linesFrom : joined d (linesFrom d l cs) ++ restFrom d l cs = l ++ cs := by
  induction cs generalizing l with
  | nil => rw [linesFrom, restFrom, joined, List.flatMap_nil, List.nil_append, List.append_nil]
  | cons c cs ih =>
    rw [linesFrom, restFrom]
    split
    · rename_i hc
      subst hc
      have hjoin : joined c (l :: linesFrom c [] cs) = l ++ [c] ++ joined c (linesFrom c [] cs) := by
        rw [joined, List.flatMap_cons, joined]
      rw [hjoin, List.append_assoc, ih, List.nil_append, List.append_assoc, List.singleton_append]
    · rw [ih, List.append_assoc, List.singleton_append]

/-- A list is its lines with the delimiter behind each of them, and the rest. -/
theorem joined_lines (d : α) (cs : List α) : joined d (lines d cs) ++ rest d cs = cs := joined_linesFrom

theorem notMem_linesFrom (hl : d ∉ l) : (∀ l' ∈ linesFrom d l cs, d ∉ l') ∧ d ∉ restFrom d l cs := by
  induction cs generalizing l with
  | nil => exact ⟨fun l' hl' => absurd hl' List.not_mem_nil, hl⟩
  | cons c cs ih =>
    rw [linesFrom, restFrom]
    split
    · obtain ⟨hlines, hrest⟩ := ih (l := []) List.not_mem_nil
      exact ⟨List.forall_mem_cons.mpr ⟨hl, hlines⟩, hrest⟩
    · rename_i hc
      refine ih fun hd => ?_
      rcases List.mem_append.mp hd with hd | hd
      · exact hl hd
      · exact hc (List.mem_singleton.mp hd).symm

/-- The delimiter is in no line. -/
theorem notMem_lines : ∀ l ∈ lines d cs, d ∉ l := (notMem_linesFrom List.not_mem_nil).1

theorem notMem_rest : d ∉ rest d cs := (notMem_linesFrom List.not_mem_nil).2

/-- What is in a line is in the list. -/
theorem mem_of_mem_lines {a : α} (hl : l ∈ lines d cs) (ha : a ∈ l) : a ∈ cs := by
  rw [← joined_lines d cs, joined]
  exact List.mem_append_left _ (List.mem_flatMap.mpr ⟨l, hl, List.mem_append_left _ ha⟩)

theorem mem_of_mem_rest {a : α} (ha : a ∈ rest d cs) : a ∈ cs := by
  rw [← joined_lines d cs]
  exact List.mem_append_right _ ha

end Nascent.Lines
