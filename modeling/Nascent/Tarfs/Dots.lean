import Nascent.Tarfs.Paths

/-!
# Dots in names

`remove_d` of `src/sys/tarfs.c` counts the dots of the whole path. At the second dot, unless this is the
character with the index 2, it takes the last part off what it has written, whatever the dots belong to.
Its result is then shorter than the path (`removeDLoop_length_lt`), so a path comes out unchanged if and
only if the loop never gets there (`removeD_eq_iff`). This is a matter of how many dots there are and where
the first two of them are (`quiet_iff`).
-/

namespace Nascent.Tarfs

open Nascent.Bytes (Byte)

/-- The parts of a path, none of which is `.` or `..`. -/
structure Ordinary (path : List Byte) : Prop where
  /-- No part is `.`. -/
  dot_notMem : [dot] ∉ path.splitOn slash
  /-- No part is `..`. -/
  dotdot_notMem : dotdot ∉ path.splitOn slash

/-- The path has one dot at most; or it has two among its first three characters, the second of them with
the index 2, and no other character than a dot behind them. -/
def Harmless (path : List Byte) : Prop :=
  path.count dot ≤ 1 ∨
    (path.take 3).count dot = 2 ∧ path[2]? = some dot ∧ ∀ x ∈ path[3]?, x = dot

instance (path : List Byte) : Decidable (Harmless path) := inferInstanceAs (Decidable (_ ∨ _))

section

variable {path xs b out : List Byte} {x : Byte} {i c : ℕ}

/-- The loop of `remove_d` takes off no part of the output. -/
def Quiet : List Byte → ℕ → ℕ → Prop
  | [], _, _ => True
  | x :: xs, i, c =>
    ¬ ((if x = dot then c + 1 else c) = 2 ∧ i ≠ 2) ∧ Quiet xs (i + 1) (if x = dot then c + 1 else c)

/-! ## The output -/

/-- The last part and two more characters are taken off. -/
theorem length_lastSlash {b' : List Byte} (h : lastSlash b = some b') : b'.length + 2 ≤ b.length := by
  rw [lastSlash] at h
  split at h
  · cases h
  rename_i hlen
  split at h
  · cases h
  · rename_i c cs hdrop
    have hle := (List.dropWhile_suffix (l := (b.take (b.length - 2)).reverse) (· ≠ slash)).length_le
    rw [hdrop, List.length_reverse, List.length_take] at hle
    rw [← Option.some.inj h, List.length_reverse]
    omega

/-- Where the loop takes off a part, it goes on behind the next character with no dot counted. -/
theorem removeDLoop_cut (h : (if x = dot then c + 1 else c) = 2 ∧ i ≠ 2) :
    removeDLoop (x :: xs) i c b = (lastSlash b).bind (removeDLoop (xs.drop 1) (i + 2) 0) := by
  rw [removeDLoop, if_pos h]
  refine congrArg _ (funext fun b' => ?_)
  rcases xs with - | ⟨y, - | ⟨z, zs⟩⟩
  · rfl
  · rfl
  · change removeDLoop zs (i + 3) (if z = dot then 1 else 0) (b' ++ [z]) = removeDLoop (z :: zs) (i + 2) 0 b'
    rw [removeDLoop.eq_2]
    have hone : ¬ ((if z = dot then 0 + 1 else 0) = 2 ∧ i + 2 ≠ 2) := by split <;> simp
    rw [if_neg hone]

/-- Elsewhere it copies the character. -/
theorem removeDLoop_copy (h : ¬ ((if x = dot then c + 1 else c) = 2 ∧ i ≠ 2)) :
    removeDLoop (x :: xs) i c b = removeDLoop xs (i + 1) (if x = dot then c + 1 else c) (b ++ [x]) := by
  rw [removeDLoop, if_neg h]

/-- The output is no longer than the input, and it is shorter where a part is taken off. -/
theorem length_removeDLoop : ∀ (n : ℕ) {xs : List Byte} {i c : ℕ} {b : List Byte}, xs.length ≤ n →
    removeDLoop xs i c b = some out →
    out.length ≤ b.length + xs.length ∧ (¬ Quiet xs i c → out.length < b.length + xs.length)
  | _, [], i, c, b, _, h => by
    rw [removeDLoop] at h
    exact ⟨(Option.some.inj h) ▸ Nat.le_add_right _ _, fun hq => (hq trivial).elim⟩
  | n + 1, x :: xs, i, c, b, hn, h => by
    rw [List.length_cons] at hn ⊢
    by_cases hcut : (if x = dot then c + 1 else c) = 2 ∧ i ≠ 2
    · rw [removeDLoop_cut hcut] at h
      obtain ⟨b', hb', h⟩ := Option.bind_eq_some_iff.mp h
      have hlast := length_lastSlash hb'
      have hdrop : (xs.drop 1).length ≤ xs.length := (List.drop_sublist 1 xs).length_le
      have hle := (length_removeDLoop n (hdrop.trans (by omega)) h).1
      exact ⟨by omega, fun _ => by omega⟩
    · rw [removeDLoop_copy hcut] at h
      obtain ⟨hle, hlt⟩ := length_removeDLoop n (by omega) h
      rw [List.length_append, List.length_singleton] at hle hlt
      refine ⟨by omega, fun hq => ?_⟩
      have := hlt fun hquiet => hq ⟨hcut, hquiet⟩
      omega

/-- The loop copies the path if and only if it takes off nothing. -/
theorem removeDLoop_eq_iff : ∀ {xs : List Byte} {i c : ℕ} {b : List Byte},
    removeDLoop xs i c b = some (b ++ xs) ↔ Quiet xs i c := by
  intro xs i c b
  constructor
  · intro h
    by_contra hq
    have hlt := (length_removeDLoop xs.length le_rfl h).2 hq
    rw [List.length_append] at hlt
    omega
  · intro hq
    induction xs generalizing i c b with
    | nil => rw [removeDLoop, List.append_nil]
    | cons x xs ih =>
      rw [removeDLoop_copy hq.1, ih hq.2, List.append_assoc]
      rfl

/-! ## The dots -/

/-- Nothing is taken off once three dots have been counted. -/
theorem quiet_of_three_le : ∀ {xs : List Byte} {i c : ℕ}, 3 ≤ c → Quiet xs i c
  | [], _, _, _ => trivial
  | x :: xs, i, c, hc => by
    have hle : 3 ≤ if x = dot then c + 1 else c := by split <;> omega
    exact ⟨fun h => by omega, quiet_of_three_le hle⟩

/-- Behind the first three characters, a part is taken off at the second dot. -/
theorem quiet_of_le_one : ∀ {xs : List Byte} {i c : ℕ}, 3 ≤ i → c ≤ 1 →
    (Quiet xs i c ↔ c + xs.count dot ≤ 1)
  | [], i, c, _, hc => by simpa [Quiet] using hc
  | x :: xs, i, c, hi, hc => by
    rw [Quiet, List.count_cons]
    by_cases hx : x = dot
    · rw [if_pos hx, if_pos (by simpa using hx)]
      by_cases h2 : c + 1 = 2
      · exact iff_of_false (fun h => h.1 ⟨h2, by omega⟩) (by omega)
      · rw [quiet_of_le_one (by omega) (by omega)]
        omega
    · rw [if_neg hx, if_neg (by simpa using hx), quiet_of_le_one (by omega) hc]
      omega

/-- Behind two dots among the first three characters, nothing is taken off if there is a third dot or
nothing else. -/
theorem quiet_two : Quiet xs 3 2 ↔ ∀ x ∈ xs.head?, x = dot := by
  cases xs with
  | nil => exact iff_of_true trivial (by simp)
  | cons x xs =>
    rw [Quiet, List.head?_cons]
    by_cases hx : x = dot
    · rw [if_pos hx]
      exact iff_of_true ⟨by decide, quiet_of_three_le le_rfl⟩ (by simpa using hx)
    · rw [if_neg hx]
      exact iff_of_false (fun h => h.1 ⟨rfl, by decide⟩) (by simpa using hx)

/-- The dots of a character. -/
def dots (x : Byte) : ℕ := if x = dot then 1 else 0

theorem count_cons_dots : (x :: xs).count dot = dots x + xs.count dot := by
  rw [List.count_cons, dots, Nat.add_comm]
  simp only [beq_iff_eq]

theorem quiet_nil : Quiet [] i c ↔ True := Iff.rfl

theorem quiet_cons : Quiet (x :: xs) i c ↔ ¬ (c + dots x = 2 ∧ i ≠ 2) ∧ Quiet xs (i + 1) (c + dots x) := by
  have hadd : (if x = dot then c + 1 else c) = c + dots x := by
    rw [dots]
    split <;> rfl
  rw [Quiet, hadd]

/-- The loop takes off no part of a harmless path only. -/
theorem quiet_iff : Quiet path 0 0 ↔ Harmless path := by
  have hle : ∀ x, dots x ≤ 1 := fun x => by
    rw [dots]
    split <;> omega
  unfold Harmless
  rcases path with - | ⟨x, - | ⟨y, - | ⟨z, rest⟩⟩⟩
  · exact iff_of_true trivial (.inl (Nat.zero_le 1))
  · have hx := hle x
    refine iff_of_true (quiet_cons.mpr ⟨by omega, trivial⟩) (.inl ?_)
    rw [count_cons_dots, List.count_nil]
    exact hx
  · have hx := hle x
    have hy := hle y
    simp only [quiet_cons, quiet_nil, count_cons_dots, List.count_nil, Nat.zero_add]
    rcases Nat.lt_or_ge (dots x + dots y) 2 with hlt | hge
    · exact iff_of_true ⟨by omega, by omega, trivial⟩ (.inl (by omega))
    · refine iff_of_false (fun h => h.2.1 ⟨by omega, by decide⟩) ?_
      rintro (h | ⟨-, h, -⟩)
      · omega
      · cases h
  · have hx := hle x
    have hy := hle y
    have hz : dots z = 0 ∧ z ≠ dot ∨ dots z = 1 ∧ z = dot := by
      rw [dots]
      split
      · exact .inr ⟨rfl, ‹_›⟩
      · exact .inl ⟨rfl, ‹_›⟩
    have htake : ((x :: y :: z :: rest).take 3).count dot = dots x + dots y + dots z := by
      simp only [List.take_succ_cons, List.take_zero, count_cons_dots, List.count_nil]
      omega
    have hthird : (x :: y :: z :: rest)[2]? = some z := rfl
    have hfourth : (x :: y :: z :: rest)[3]? = rest.head? := by
      rw [List.head?_eq_getElem?]
      rfl
    simp only [htake, hthird, hfourth, quiet_cons, count_cons_dots, Option.some.injEq, Nat.zero_add]
    rcases Nat.lt_or_ge (dots x + dots y + dots z) 2 with hlt | hge
    · -- One dot at most, so that the next one counts.
      rw [quiet_of_le_one le_rfl (by omega)]
      constructor
      · exact fun h => .inl (by omega)
      · rintro (h | h)
        · exact ⟨by omega, by omega, by omega, by omega⟩
        · omega
    · by_cases hthree : dots x + dots y = 2
      · -- The second dot has the index 1.
        refine iff_of_false (fun h => h.2.1 ⟨hthree, by decide⟩) ?_
        rintro (h | ⟨h, hdot, -⟩)
        · omega
        · have hone := (hz.resolve_left fun hz => hz.2 hdot).1
          omega
      · have htwo : dots x + dots y + dots z = 2 := by omega
        rw [htwo, quiet_two]
        constructor
        · exact fun h => .inr ⟨rfl, (hz.resolve_left (by omega)).2, h.2.2.2⟩
        · rintro (h | h)
          · omega
          · exact ⟨by omega, by omega, by omega, h.2.2⟩

/-- `remove_d` leaves a path as it is if and only if the path is harmless. -/
theorem removeD_eq_iff : removeD path = some path ↔ Harmless path := by
  rw [removeD, ← quiet_iff, ← removeDLoop_eq_iff, List.nil_append]

/-- A path from the root, or any other, is copied by `remove_d` if and only if it is harmless. A path
relative to a directory is put behind it by `path_sanitize` if and only if both together are harmless and
fit the buffer. -/
theorem paths_copied_iff (path cwd : List Byte) :
    (removeD path = some path ↔ Harmless path) ∧
      (path.head? ≠ some slash → cwd.getLast? = some slash →
        (pathSanitize cwd path = some (cwd ++ path) ↔
          (cwd ++ path).length < pathSize ∧ Harmless (cwd ++ path))) := by
  refine ⟨removeD_eq_iff, fun hrel hcwd => ?_⟩
  rw [pathSanitize, if_neg hrel, hcwd]
  dsimp only
  rw [if_pos rfl, List.append_nil, Option.bind_some]
  split_ifs with hlen
  · rw [removeD_eq_iff]
    exact (and_iff_right hlen).symm
  · exact iff_of_false (by simp) fun h => hlen h.1

/-- The directory `/bin/` and the name `cat`. -/
theorem paths_copied_cat :
    pathSanitize [47, 98, 105, 110, 47] [99, 97, 116] = some [47, 98, 105, 110, 47, 99, 97, 116] :=
  ((paths_copied_iff [99, 97, 116] [47, 98, 105, 110, 47]).2 (by decide) rfl).mpr ⟨by decide, by decide⟩

/-- The path `/a.b.c` has one part, which is neither `.` nor `..`, and comes out as `/`. -/
theorem name_with_dots_lost :
    Ordinary [47, 97, 46, 98, 46, 99] ∧ removeD [47, 97, 46, 98, 46, 99] = some [47] ∧
      ¬ removeD [47, 97, 46, 98, 46, 99] = some [47, 97, 46, 98, 46, 99] :=
  ⟨⟨by decide, by decide⟩, by decide, by decide⟩

end

end Nascent.Tarfs
