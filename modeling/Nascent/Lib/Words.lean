import Mathlib.Data.List.Basic
import Mathlib.Order.Nat

/-!
# The words of a line

A word of a list is a maximal run of elements other than a delimiter, and it is given by the positions
where it starts and where it stops (`IsRun`). A list of pairs of positions has the words of the list in
their order (`AreRuns`).

One element more is a delimiter and leaves the words (`AreRuns.delimiter`), or starts a word
(`AreRuns.start`), or makes the last word longer (`AreRuns.extend`).
-/

namespace Nascent.Words

variable {α : Type*} {d c : α} {s : List α} {R : List (ℕ × ℕ)} {r : ℕ × ℕ} {i j k : ℕ}

/-- A maximal run of elements other than the delimiter, from the position `i` to before `j`. -/
structure IsRun (d : α) (s : List α) (i j : ℕ) : Prop where
  /-- There is an element. -/
  lt : i < j
  /-- They are elements of the list. -/
  le : j ≤ s.length
  /-- None of them is the delimiter. -/
  ne : ∀ k, i ≤ k → k < j → s[k]? ≠ some d
  /-- It does not go on in front. -/
  start : i = 0 ∨ s[i - 1]? = some d
  /-- It does not go on behind. -/
  stop : j = s.length ∨ s[j]? = some d

/-- The words of a list, in their order. -/
structure AreRuns (d : α) (s : List α) (R : List (ℕ × ℕ)) : Prop where
  /-- A word stops before the next one starts. -/
  sorted : R.Pairwise fun r q => r.2 < q.1
  /-- They are the maximal runs. -/
  mem : ∀ r, r ∈ R ↔ IsRun d s r.1 r.2

/-- The elements of a run. -/
def slice (s : List α) (r : ℕ × ℕ) : List α := (s.drop r.1).take (r.2 - r.1)

/-- The list ends where a word may start. -/
def Open (d : α) (s : List α) : Prop := s = [] ∨ s.getLast? = some d

/-- Delimiters only. -/
theorem open_of_forall (h : ∀ c ∈ s, c = d) : Open d s := by
  rcases s.eq_nil_or_concat with rfl | ⟨s, c, rfl⟩
  · exact .inl rfl
  · refine .inr ?_
    rw [List.concat_eq_append, List.getLast?_concat, h c (by simp)]

theorem open_concat : Open d (s ++ [d]) := .inr List.getLast?_concat

/-! ## One element more -/

theorem getElem?_concat_of_lt (hk : k < s.length) : (s ++ [c])[k]? = s[k]? := List.getElem?_append_left hk

/-- A run that stops before the end of the list is a run of any longer one, and no other run stops there. -/
theorem isRun_concat_of_le (hj : j ≤ s.length) :
    IsRun d (s ++ [c]) i j ↔ IsRun d s i j ∧ (j = s.length → c = d) := by
  have hlen : (s ++ [c]).length = s.length + 1 := by simp
  constructor
  · rintro ⟨hlt, hle, hne, hstart, hstop⟩
    have hstop := hstop.resolve_left (by omega)
    refine ⟨⟨hlt, hj, fun k hik hkj => ?_, ?_, ?_⟩, ?_⟩
    · rw [← getElem?_concat_of_lt (c := c) (by omega)]
      exact hne k hik hkj
    · rwa [getElem?_concat_of_lt (by omega)] at hstart
    · rcases Nat.lt_or_eq_of_le hj with hj | hj
      · rw [getElem?_concat_of_lt hj] at hstop
        exact .inr hstop
      · exact .inl hj
    · rintro rfl
      simpa using hstop
  · rintro ⟨⟨hlt, -, hne, hstart, hstop⟩, hc⟩
    refine ⟨hlt, by omega, fun k hik hkj => ?_, ?_, .inr ?_⟩
    · rw [getElem?_concat_of_lt (by omega)]
      exact hne k hik hkj
    · rwa [getElem?_concat_of_lt (by omega)]
    · rcases Nat.lt_or_eq_of_le hj with hj | rfl
      · rw [getElem?_concat_of_lt hj]
        exact hstop.resolve_left (by omega)
      · simpa using hc rfl

/-- The runs that stop at the new end: those that stopped at the old one, and the new element. -/
theorem isRun_concat_end :
    IsRun d (s ++ [c]) i (s.length + 1) ↔ c ≠ d ∧ (IsRun d s i s.length ∨ i = s.length ∧ Open d s) := by
  have hlen : (s ++ [c]).length = s.length + 1 := by simp
  have hlast : (s ++ [c])[s.length]? = some c := by simp
  have hold : ∀ k < s.length, (s ++ [c])[k]? = s[k]? := fun k hk => getElem?_concat_of_lt hk
  constructor
  · rintro ⟨hlt, -, hne, hstart, -⟩
    refine ⟨fun hc => hne s.length (by omega) (by omega) (hc ▸ hlast), ?_⟩
    rcases Nat.lt_or_eq_of_le (Nat.lt_succ_iff.mp hlt) with hi | rfl
    · refine .inl ⟨hi, le_rfl, fun k hik hk => ?_, ?_, .inl rfl⟩
      · rw [← hold k hk]
        exact hne k hik (by omega)
      · rwa [hold _ (by omega)] at hstart
    · refine .inr ⟨rfl, ?_⟩
      rcases hstart with h0 | hstart
      · exact .inl (List.eq_nil_of_length_eq_zero h0)
      · have hpos : s.length - 1 < s.length := by
          by_contra h0
          exact hne (s.length - 1) (by omega) (by omega) hstart
        rw [hold _ hpos] at hstart
        exact .inr (List.getLast?_eq_getElem?.trans hstart)
  · rintro ⟨hc, hrun⟩
    have hlastne : (s ++ [c])[s.length]? ≠ some d := fun h => hc (Option.some.inj (hlast.symm.trans h))
    rcases hrun with ⟨hlt, -, hne, hstart, -⟩ | ⟨rfl, hopen⟩
    · refine ⟨by omega, hlen.ge, fun k hik hk => ?_, ?_, .inl hlen.symm⟩
      · rcases Nat.lt_or_eq_of_le (Nat.lt_succ_iff.mp hk) with hk | rfl
        · rw [hold k hk]
          exact hne k hik hk
        · exact hlastne
      · rwa [hold _ (by omega)]
    · refine ⟨by omega, hlen.ge, fun k hik hk => ?_, ?_, .inl hlen.symm⟩
      · rw [show k = s.length by omega]
        exact hlastne
      · rcases hopen with rfl | hopen
        · exact .inl rfl
        · rw [List.getLast?_eq_getElem?] at hopen
          obtain ⟨hpos, -⟩ := List.getElem?_eq_some_iff.mp hopen
          rw [hold _ hpos]
          exact .inr hopen

/-! ## The words of a prefix -/

/-- A word does not go beyond the list. -/
theorem AreRuns.le (h : AreRuns d s R) (hr : r ∈ R) : r.2 ≤ s.length := ((h.mem r).mp hr).le

/-- There is no word at first. -/
theorem areRuns_nil : AreRuns d [] [] :=
  ⟨List.Pairwise.nil, fun r => iff_of_false List.not_mem_nil fun h => by
    have hlt := h.lt
    have hle := h.le
    rw [List.length_nil] at hle
    omega⟩

/-- A delimiter leaves the words. -/
theorem AreRuns.delimiter (h : AreRuns d s R) : AreRuns d (s ++ [d]) R := by
  refine ⟨h.sorted, fun r => (h.mem r).trans ⟨fun hr => ?_, fun hr => ?_⟩⟩
  · exact (isRun_concat_of_le hr.le).mpr ⟨hr, fun _ => rfl⟩
  · have hle := hr.le
    rw [List.length_append, List.length_singleton] at hle
    rcases Nat.lt_or_eq_of_le hle with hlt | heq
    · exact ((isRun_concat_of_le (Nat.lt_succ_iff.mp hlt)).mp hr).1
    · rw [heq] at hr
      exact absurd rfl (isRun_concat_end.mp hr).1

/-- Where no word goes on, another element starts one. -/
theorem AreRuns.start (h : AreRuns d s R) (hopen : Open d s) (hc : c ≠ d) :
    AreRuns d (s ++ [c]) (R ++ [(s.length, s.length + 1)]) := by
  -- No word stops at the end.
  have hno : ∀ {i}, ¬ IsRun d s i s.length := fun {i} hr => by
    have hlt := hr.lt
    rcases hopen with rfl | hlast
    · exact Nat.not_lt_zero _ hlt
    · rw [List.getLast?_eq_getElem?] at hlast
      exact hr.ne (s.length - 1) (by omega) (by omega) hlast
  have hbefore : ∀ r ∈ R, r.2 < s.length := fun r hr =>
    (h.le hr).lt_of_ne fun heq => hno (i := r.1) (heq ▸ (h.mem r).mp hr)
  refine ⟨List.pairwise_append.mpr ⟨h.sorted, List.pairwise_singleton _ _, fun r hr q hq => ?_⟩,
    fun r => ?_⟩
  · rw [List.mem_singleton.mp hq]
    exact hbefore r hr
  · rw [List.mem_append, List.mem_singleton, h.mem]
    constructor
    · rintro (hr | rfl)
      · exact (isRun_concat_of_le hr.le).mpr ⟨hr, fun heq => absurd (heq ▸ hr) hno⟩
      · exact isRun_concat_end.mpr ⟨hc, .inr ⟨rfl, hopen⟩⟩
    · intro hr
      have hle := hr.le
      rw [List.length_append, List.length_singleton] at hle
      rcases Nat.lt_or_eq_of_le hle with hlt | heq
      · exact .inl ((isRun_concat_of_le (Nat.lt_succ_iff.mp hlt)).mp hr).1
      · rw [heq] at hr
        obtain ⟨hi, -⟩ := (isRun_concat_end.mp hr).2.resolve_left hno
        exact .inr (Prod.ext hi heq)

/-- Where a word goes on, another element makes it longer. -/
theorem AreRuns.extend (h : AreRuns d s (R ++ [(i, s.length)])) (hc : c ≠ d) :
    AreRuns d (s ++ [c]) (R ++ [(i, s.length + 1)]) := by
  obtain ⟨hsorted, -, hlast⟩ := List.pairwise_append.mp h.sorted
  have hbefore : ∀ r ∈ R, r.2 < i := fun r hr => hlast r hr _ (List.mem_singleton_self _)
  have hend : IsRun d s i s.length := (h.mem (i, s.length)).mp (by simp)
  -- It is the only word that stops at the end.
  have honly : ∀ {r}, r ∈ R ∨ r = (i, s.length) ↔ IsRun d s r.1 r.2 := fun {r} => by
    rw [← h.mem r, List.mem_append, List.mem_singleton]
  refine ⟨List.pairwise_append.mpr ⟨hsorted, List.pairwise_singleton _ _, fun r hr q hq => ?_⟩,
    fun r => ?_⟩
  · rw [List.mem_singleton.mp hq]
    exact hbefore r hr
  · rw [List.mem_append, List.mem_singleton]
    have hlt := hend.lt
    constructor
    · rintro (hr | rfl)
      · have hstop := hbefore r hr
        exact (isRun_concat_of_le (by omega)).mpr ⟨honly.mp (.inl hr), fun heq => by omega⟩
      · exact isRun_concat_end.mpr ⟨hc, .inl hend⟩
    · intro hr
      have hle := hr.le
      rw [List.length_append, List.length_singleton] at hle
      rcases Nat.lt_or_eq_of_le hle with hlt | heq
      · obtain ⟨hrun, hstop⟩ := (isRun_concat_of_le (Nat.lt_succ_iff.mp hlt)).mp hr
        rcases honly.mpr hrun with hmem | rfl
        · exact .inl hmem
        · exact absurd (hstop rfl) hc
      · rw [heq] at hr
        refine .inr (Prod.ext ?_ heq)
        rcases (isRun_concat_end.mp hr).2 with hrun | ⟨-, hopen⟩
        · rcases (honly (r := (r.1, s.length))).mpr hrun with hmem | hr
          · have hstop := hbefore _ hmem
            dsimp only at hstop
            omega
          · exact (Prod.mk.inj hr).1
        · -- The word that goes on does not end with a delimiter.
          rcases hopen with rfl | hopen
          · exact absurd hlt (Nat.not_lt_zero _)
          · rw [List.getLast?_eq_getElem?] at hopen
            exact absurd hopen (hend.ne _ (by omega) (by omega))

/-! ## Elements of a run -/

/-- An element behind a run leaves it. -/
theorem slice_concat (h : r.2 ≤ s.length) : slice (s ++ [c]) r = slice s r := by
  unfold slice
  rcases Nat.le_total r.1 s.length with hle | hle
  · rw [List.drop_append_of_le_length hle, List.take_append_of_le_length (by rw [List.length_drop]; omega)]
  · rw [show r.2 - r.1 = 0 by omega, List.take_zero, List.take_zero]

/-- The element behind a run, if it is made longer. -/
theorem slice_concat_end (h : i ≤ s.length) :
    slice (s ++ [c]) (i, s.length + 1) = slice s (i, s.length) ++ [c] := by
  unfold slice
  rw [List.drop_append_of_le_length h, List.take_of_length_le (by simp; omega),
    List.take_of_length_le (by simp)]

theorem slice_self : slice s (s.length, s.length) = [] := by
  unfold slice
  rw [Nat.sub_self, List.take_zero]

end Nascent.Words
