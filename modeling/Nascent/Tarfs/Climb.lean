import Mathlib.Data.List.TakeWhile
import Mathlib.Logic.Relation
import Nascent.Tarfs.Dots

/-!
# Paths that climb above the root

The loop of `remove_d` as a sequence of states (`Scan.step`), with the indices at which it reads or writes
`b` (`Scan.accesses`). It looks for a `/` from `j - 3` on. This is below the start of `b` when two dots
follow a `/` that is all there is in `b`, so a `..` at the root is out of bounds (`inBounds_iff`), but for
one at the start of the path: there the second dot has the index 2, and the part is taken off at the next
character, with one more character of the rest. `staysInRoot_iff` says which paths stay at the root.
-/

namespace Nascent.Tarfs

open Nascent.Bytes (Byte)
open Nascent.Lines

/-- The loop of `remove_d` between two characters. -/
@[ext] structure Scan where
  /-- `buff` from the index `i` on. -/
  rest : List Byte
  /-- The index of the next character. -/
  i : ℕ
  /-- The number of dots. -/
  c : ℕ
  /-- The first `j` characters of `b`. -/
  b : List Byte

/-- The state before the first character. -/
def Scan.start (path : List Byte) : Scan := ⟨path, 0, 0, []⟩

/-- The loop takes off a part at the next character. -/
def Scan.Cuts : Scan → Prop
  | ⟨[], _, _, _⟩ => False
  | ⟨x :: _, i, c, _⟩ => (if x = dot then c + 1 else c) = 2 ∧ i ≠ 2

instance : (s : Scan) → Decidable s.Cuts
  | ⟨[], _, _, _⟩ => inferInstanceAs (Decidable False)
  | ⟨_ :: _, _, _, _⟩ => inferInstanceAs (Decidable (_ ∧ _))

/-- The loop for the next character. Where it takes off a part it leaves out one more character and goes
on, within the same round, with the one behind it, which is the next step here. -/
def Scan.step (s : Scan) : Option Scan :=
  match s.rest with
  | [] => none
  | x :: xs =>
    if s.Cuts then (lastSlash s.b).map fun b => ⟨xs.drop 1, s.i + 2, 0, b⟩
    else some ⟨xs, s.i + 1, if x = dot then s.c + 1 else s.c, s.b ++ [x]⟩

/-- The indices that `while (b[p] != '/') p--` reads from `n - 1` on. It leaves the buffer at -1. -/
def searchSlash (b : List Byte) : ℕ → List ℤ
  | 0 => [-1]
  | n + 1 => if b[n]? = some slash then [(n : ℤ)] else (n : ℤ) :: searchSlash b n

/-- The indices that the loop reads from `p = j - 3` on. -/
def searched (b : List Byte) : List ℤ :=
  if b.length < 3 then [(b.length : ℤ) - 3] else searchSlash b (b.length - 2)

/-- The indices at which `b` is read or written for the next character or, behind the last one, for the end
of the string. Where the loop takes off a part at the end of the path, it ends the string twice. -/
def Scan.accesses (s : Scan) : List ℤ :=
  if s.Cuts then
    searched s.b ++ match lastSlash s.b with
      | none => []
      | some b => (b.length : ℤ) :: if s.rest.length ≤ 2 then [(b.length : ℤ) + 1] else []
  else [(s.b.length : ℤ)]

/-- The loop comes from one state to another. -/
abbrev Scan.Reaches : Scan → Scan → Prop := Relation.ReflTransGen fun s t => s.step = some t

/-- The output is the root. -/
def AtRoot (b : List Byte) : Prop := b ≠ [] ∧ ∀ x ∈ b, x = slash

/-- A path without the `/` at its start. -/
def dropSlashes (path : List Byte) : List Byte := path.dropWhile (· = slash)

/-- What a path from the root should do: the indices are in `b`, the loop ends, and a `..` at the root leads
to the root, with the rest of the path behind it. -/
structure StaysInRoot (path : List Byte) : Prop where
  /-- The indices are in `b`. -/
  inBounds : ∀ s, (Scan.start path).Reaches s → ∀ k ∈ s.accesses, 0 ≤ k ∧ k < pathSize
  /-- The loop ends. -/
  ends : ∃ s, (Scan.start path).Reaches s ∧ s.rest = []
  /-- A `..` at the root. -/
  atRoot : ∀ s rest, (Scan.start path).Reaches s → AtRoot s.b → s.rest = dotdot ++ rest →
    (rest = [] ∨ rest.head? = some slash) →
    ∃ t, s.Reaches t ∧ AtRoot t.b ∧ dropSlashes t.rest = dropSlashes rest

/-- The path is `/..`, or starts with `/../` and another character than `/`. -/
def StartsUp (path : List Byte) : Prop :=
  path = slash :: dotdot ∨ ∃ x xs, x ≠ slash ∧ path = slash :: dotdot ++ slash :: x :: xs

section

variable {path b b' xs : List Byte} {x : Byte} {s t : Scan} {n : ℕ}

/-! ## The search for a `/` -/

/-- What is left is the start of the output, up to a `/`. -/
theorem lastSlash_prefix (h : lastSlash b = some b') : b' <+: b ∧ b' ≠ [] := by
  rw [lastSlash] at h
  split at h
  · cases h
  split at h
  · cases h
  · rename_i c cs hdrop
    have hsuffix := List.dropWhile_suffix (l := (b.take (b.length - 2)).reverse) (· ≠ slash)
    rw [hdrop] at hsuffix
    have hinit : (c :: cs).reverse <+: b.take (b.length - 2) := by
      rwa [← List.reverse_suffix, List.reverse_reverse]
    rw [← Option.some.inj h]
    exact ⟨hinit.trans (List.take_prefix _ _), by simp⟩

/-- There is something to search from three characters on. -/
theorem lastSlash_of_head (hlen : 3 ≤ b.length) (h : b.head? = some slash) :
    ∃ b', lastSlash b = some b' := by
  rw [lastSlash, if_neg (by omega)]
  split
  · rename_i hdrop
    rw [List.dropWhile_eq_nil_iff] at hdrop
    obtain ⟨x, xs, rfl⟩ : ∃ x xs, b = x :: xs := List.exists_cons_of_length_pos (by omega)
    have hx : x = slash := Option.some.inj h
    have hmem : x ∈ ((x :: xs).take ((x :: xs).length - 2)).reverse := by
      rw [List.mem_reverse, List.length_cons]
      rw [List.length_cons] at hlen
      have hpos : xs.length + 1 - 2 = (xs.length - 2) + 1 := by omega
      rw [hpos, List.take_succ_cons]
      exact List.mem_cons_self ..
    exact absurd (hdrop x hmem) (by simp [hx])
  · exact ⟨_, rfl⟩

theorem lastSlash_of_lt (h : b.length < 3) : lastSlash b = none := if_pos h

/-- The search ends at the start of the output at the latest. -/
theorem mem_searchSlash (h : b.head? = some slash) : ∀ {n : ℕ}, 1 ≤ n → ∀ k ∈ searchSlash b n,
    0 ≤ k ∧ k < n
  | n + 1, _, k, hk => by
    rw [searchSlash] at hk
    split at hk
    · rw [List.mem_singleton.mp hk]
      omega
    · rename_i hne
      rcases List.mem_cons.mp hk with rfl | hk
      · omega
      · have hn : n ≠ 0 := by
          rintro rfl
          rw [List.head?_eq_getElem?] at h
          exact hne h
        have := mem_searchSlash h (Nat.one_le_iff_ne_zero.mpr hn) k hk
        omega

theorem mem_searched (hlen : 3 ≤ b.length) (h : b.head? = some slash) {k : ℤ} (hk : k ∈ searched b) :
    0 ≤ k ∧ k < b.length := by
  rw [searched, if_neg (by omega)] at hk
  have := mem_searchSlash h (by omega) k hk
  omega

/-! ## Steps -/

/-- What a step does: it takes off a part, or it copies a character. -/
theorem Scan.step_cases (h : s.step = some t) : ∃ x xs, s.rest = x :: xs ∧
    (s.Cuts ∧ (∃ b, lastSlash s.b = some b ∧ t = ⟨xs.drop 1, s.i + 2, 0, b⟩) ∨
      ¬ s.Cuts ∧ t = ⟨xs, s.i + 1, if x = dot then s.c + 1 else s.c, s.b ++ [x]⟩) := by
  unfold step at h
  split at h
  · cases h
  · rename_i x xs hrest
    refine ⟨x, xs, hrest, ?_⟩
    by_cases hcut : s.Cuts
    · rw [if_pos hcut] at h
      obtain ⟨b, hb, rfl⟩ := Option.map_eq_some_iff.mp h
      exact .inl ⟨hcut, b, hb, rfl⟩
    · rw [if_neg hcut] at h
      exact .inr ⟨hcut, (Option.some.inj h).symm⟩

/-- There is something to take off only in front of a character. -/
theorem Scan.Cuts.exists_cons (h : s.Cuts) :
    ∃ x xs, s.rest = x :: xs ∧ (if x = dot then s.c + 1 else s.c) = 2 ∧ s.i ≠ 2 := by
  obtain ⟨_ | ⟨x, xs⟩, i, c, b⟩ := s
  · exact h.elim
  · exact ⟨x, xs, rfl, h⟩

theorem Scan.step_copy (hrest : s.rest = x :: xs) (h : ¬ s.Cuts) :
    s.step = some ⟨xs, s.i + 1, if x = dot then s.c + 1 else s.c, s.b ++ [x]⟩ := by
  rw [step, hrest]
  exact if_neg h

theorem Scan.step_cut (hrest : s.rest = x :: xs) (h : s.Cuts) (hb : lastSlash s.b = some b) :
    s.step = some ⟨xs.drop 1, s.i + 2, 0, b⟩ := by
  rw [step, hrest]
  dsimp only
  rw [if_pos h, hb]
  rfl

/-- The result of the loop from a state on. -/
def Scan.result (s : Scan) : Option (List Byte) := removeDLoop s.rest s.i s.c s.b

/-- A step does not change the result, and without one there is none. -/
theorem Scan.result_step (h : s.step = some t) : s.result = t.result := by
  obtain ⟨rest, i, c, b⟩ := s
  obtain ⟨x, xs, hrest, ⟨hcut, b', hb', rfl⟩ | ⟨hcut, rfl⟩⟩ := step_cases h
  all_goals
    dsimp only at hrest
    subst hrest
  · dsimp only at hb'
    rw [result, removeDLoop_cut hcut, hb']
    rfl
  · exact removeDLoop_copy hcut

/-- The loop gets stuck where there is no part to take off. -/
theorem Scan.result_stuck (h : s.Cuts) (hb : lastSlash s.b = none) : s.result = none := by
  obtain ⟨rest, i, c, b⟩ := s
  obtain ⟨x, xs, hrest, hcut⟩ := h.exists_cons
  dsimp only at hrest hcut hb
  rw [result, hrest, removeDLoop_cut hcut, hb]
  rfl

theorem Scan.Reaches.result_eq (h : s.Reaches t) : s.result = t.result := by
  induction h with
  | refl => rfl
  | tail _ hstep ih => exact ih.trans (result_step hstep)

/-- The rest of the path gets shorter. -/
theorem Scan.length_rest_step (h : s.step = some t) : t.rest.length < s.rest.length := by
  obtain ⟨x, xs, hrest, ⟨-, b, -, rfl⟩ | ⟨-, rfl⟩⟩ := step_cases h
  · rw [hrest, List.length_cons, List.length_drop]
    omega
  · rw [hrest]
    exact Nat.lt_succ_self _

theorem Scan.Reaches.length_rest_le (h : s.Reaches t) : t.rest.length ≤ s.rest.length := by
  induction h with
  | refl => exact le_rfl
  | tail _ hstep ih => exact (length_rest_step hstep).le.trans ih

/-- What holds between two characters of a path from the root. -/
structure Scan.Scanning (path : List Byte) (s : Scan) : Prop where
  /-- The output is no longer than what has been read. -/
  size : s.b.length + s.rest.length ≤ path.length
  /-- It is no longer than the index of the next character. -/
  length_le : s.b.length ≤ s.i
  /-- The start. -/
  eq_start : s.i = 0 → s = start path
  /-- The state behind the `/` at the start of the path. -/
  rest_eq : s.i = 1 → s.rest = path.tail
  /-- The output starts with `/`. -/
  head : s.i ≠ 0 → s.b.head? = some slash
  /-- The dots that have been counted are in the output. -/
  count : s.c ≤ s.b.count dot

theorem Scan.Scanning.step (habs : path.head? = some slash) (hs : s.Scanning path)
    (h : s.step = some t) : t.Scanning path := by
  obtain ⟨x, xs, hrest, hcases⟩ := step_cases h
  have hsize := hs.size
  have hlength := hs.length_le
  rw [hrest, List.length_cons] at hsize
  have hzero : s.i = 0 → x = slash ∧ s.c = 0 ∧ s.b = [] ∧ path = x :: xs := by
    intro hi
    have hstart := hs.eq_start hi
    have hpath : path = x :: xs := by rw [← hrest, hstart, start]
    rw [hpath] at habs
    exact ⟨Option.some.inj habs, by rw [hstart, start], by rw [hstart, start], hpath⟩
  rcases hcases with ⟨hcut, b, hb, rfl⟩ | ⟨hcut, rfl⟩
  · obtain ⟨y, ys, hrest', hc, -⟩ := hcut.exists_cons
    rw [hrest'] at hrest
    obtain ⟨rfl, rfl⟩ := List.cons.inj hrest
    have hi : s.i ≠ 0 := by
      intro hi
      obtain ⟨rfl, hc0, -, -⟩ := hzero hi
      rw [hc0] at hc
      exact absurd hc (by decide)
    obtain ⟨hinit, hne⟩ := lastSlash_prefix hb
    have hshort := length_lastSlash hb
    refine ⟨?_, by dsimp only; omega, by simp, by simp, fun _ => ?_, Nat.zero_le _⟩
    · dsimp only
      rw [List.length_drop]
      omega
    · obtain ⟨r, hr⟩ := hinit
      rw [← hs.head hi, ← hr, List.head?_append_of_ne_nil _ hne]
  · refine ⟨?_, ?_, by simp, ?_, fun _ => ?_, ?_⟩
    · dsimp only
      rw [List.length_append, List.length_singleton]
      omega
    · dsimp only
      rw [List.length_append, List.length_singleton]
      omega
    · intro hi
      obtain ⟨-, -, -, hpath⟩ := hzero (by dsimp only at hi; omega)
      rw [hpath]
      rfl
    · dsimp only
      by_cases hi : s.i = 0
      · obtain ⟨rfl, -, hb, -⟩ := hzero hi
        rw [hb]
        rfl
      · rw [List.head?_append, hs.head hi]
        rfl
    · have hcount := hs.count
      dsimp only
      rw [List.count_append, List.count_singleton]
      by_cases hx : x = dot
      · rw [if_pos hx, if_pos (by simpa using hx)]
        omega
      · rw [if_neg hx]
        omega

theorem Scan.scanning_start : (Scan.start path).Scanning path :=
  ⟨by simp [start], le_rfl, fun _ => rfl, by simp [start], by simp [start], le_rfl⟩

theorem Scan.Reaches.scanning (habs : path.head? = some slash) (h : (Scan.start path).Reaches s) :
    s.Scanning path := by
  induction h with
  | refl => exact scanning_start
  | tail _ hstep ih => exact ih.step habs hstep

/-! ## The bounds -/

/-- The loop is where there are two dots and less than three characters in the output. -/
def Scan.Short (s : Scan) : Prop := s.Cuts ∧ s.b.length < 3

/-- There is a part to take off where the output is not short. -/
theorem Scan.Scanning.lastSlash_eq (hs : s.Scanning path) (hcut : s.Cuts) (h : ¬ s.Short) :
    s.b.head? = some slash ∧ 3 ≤ s.b.length ∧ ∃ b, lastSlash s.b = some b := by
  have hlen : 3 ≤ s.b.length := by
    by_contra hlt
    exact h ⟨hcut, by omega⟩
  have hle := hs.length_le
  have hhead := hs.head (by omega)
  exact ⟨hhead, hlen, lastSlash_of_head hlen hhead⟩

/-- The indices of a step are in bounds if and only if the output is not short. -/
theorem Scan.Scanning.inBounds_iff (hlen : path.length < pathSize) (hs : s.Scanning path) :
    (∀ k ∈ s.accesses, 0 ≤ k ∧ k < pathSize) ↔ ¬ s.Short := by
  have hsize := hs.size
  constructor
  · rintro h ⟨hcut, hlt⟩
    have hmem : (s.b.length : ℤ) - 3 ∈ s.accesses := by
      rw [accesses, if_pos hcut, searched, if_pos hlt]
      exact List.mem_append_left _ (List.mem_singleton_self _)
    have := (h _ hmem).1
    omega
  · intro h k hk
    rw [accesses] at hk
    by_cases hcut : s.Cuts
    · rw [if_pos hcut] at hk
      obtain ⟨hhead, h3, b, hb⟩ := hs.lastSlash_eq hcut h
      have hshort := length_lastSlash hb
      rcases List.mem_append.mp hk with hk | hk
      · have := mem_searched h3 hhead hk
        omega
      · rw [hb] at hk
        rcases List.mem_cons.mp hk with rfl | hk
        · omega
        · by_cases hend : s.rest.length ≤ 2
          · rw [if_pos hend] at hk
            rw [List.mem_singleton.mp hk]
            omega
          · rw [if_neg hend] at hk
            cases hk
    · rw [if_neg hcut] at hk
      rw [List.mem_singleton.mp hk]
      unfold pathSize at hlen ⊢
      omega

/-- The loop ends where the output is never short. -/
theorem Scan.exists_end (habs : path.head? = some slash) : ∀ (n : ℕ) {s : Scan}, s.rest.length ≤ n →
    s.Scanning path → (∀ t, s.Reaches t → ¬ t.Short) →
    ∃ t, s.Reaches t ∧ t.rest = []
  | n, s, hn, hs, h => by
    by_cases hrest : s.rest = []
    · exact ⟨s, .refl, hrest⟩
    obtain ⟨x, xs, hrest⟩ := List.exists_cons_of_ne_nil hrest
    obtain ⟨t, ht⟩ : ∃ t, s.step = some t := by
      by_cases hcut : s.Cuts
      · obtain ⟨-, -, b, hb⟩ := hs.lastSlash_eq hcut (h s .refl)
        exact ⟨_, step_cut hrest hcut hb⟩
      · exact ⟨_, step_copy hrest hcut⟩
    have hlt := length_rest_step ht
    match n with
    | 0 => omega
    | n + 1 =>
      obtain ⟨u, hu, hend⟩ := exists_end habs n (by omega) (hs.step habs ht)
        fun u hu => h u (hu.head ht)
      exact ⟨u, hu.head ht, hend⟩

/-- `remove_d` has a result if and only if the output is never short. -/
theorem isSome_removeD_iff (habs : path.head? = some slash) :
    (removeD path).isSome ↔ ∀ s, (Scan.start path).Reaches s → ¬ s.Short := by
  have hstart : removeD path = (Scan.start path).result := rfl
  rw [hstart]
  constructor
  · rintro h s hs ⟨hcut, hlt⟩
    rw [hs.result_eq, Scan.result_stuck hcut (lastSlash_of_lt hlt)] at h
    cases h
  · intro h
    obtain ⟨t, ht, hrest⟩ := Scan.exists_end habs _ le_rfl Scan.scanning_start h
    rw [ht.result_eq, Scan.result, hrest, removeDLoop]
    rfl

/-! ## The root -/

theorem dropSlashes_cons_slash : dropSlashes (slash :: xs) = dropSlashes xs :=
  List.dropWhile_cons_of_pos (by simp)

theorem dropSlashes_cons (h : x ≠ slash) : dropSlashes (x :: xs) = x :: xs :=
  List.dropWhile_cons_of_neg (by simpa using h)

theorem length_dropSlashes_le (xs : List Byte) : (dropSlashes xs).length ≤ xs.length :=
  (List.dropWhile_suffix _).length_le

/-- No dot has been counted at the root. -/
theorem Scan.Scanning.c_eq (hs : s.Scanning path) (hroot : AtRoot s.b) : s.c = 0 := by
  have hcount : s.b.count dot = 0 :=
    List.count_eq_zero.mpr fun hmem => absurd (hroot.2 dot hmem) (by decide)
  have := hs.count
  omega

/-- The first dot behind the root is copied. -/
theorem Scan.step_dot {rest : List Byte} (hc : s.c = 0) (hrest : s.rest = dot :: rest) :
    s.step = some ⟨rest, s.i + 1, 1, s.b ++ [dot]⟩ := by
  have hcut : ¬ s.Cuts := by
    intro hcut
    obtain ⟨x, xs, hrest', h2, -⟩ := hcut.exists_cons
    rw [hc] at h2
    split at h2 <;> omega
  rw [step_copy hrest hcut, if_pos rfl, hc]

/-- Behind two slashes or more, a `..` takes off one of them. -/
theorem lastSlash_slashes (n : ℕ) :
    lastSlash (List.replicate (n + 2) slash ++ [dot]) = some (List.replicate (n + 1) slash) := by
  have hw : slash ∉ ([] : List Byte) := List.not_mem_nil
  have h := lastSlash_eq (b := List.replicate n slash) hw
  rw [List.append_nil, ← List.replicate_succ'] at h
  rw [← h, List.replicate_succ' (n := n + 1), List.append_assoc]
  rfl

/-- A `..` behind two slashes or more leads to the root. -/
theorem Scan.Scanning.dotdot_slashes (hs : s.Scanning path) (hroot : AtRoot s.b) (hlen : 2 ≤ s.b.length)
    {rest : List Byte} (hrest : s.rest = dotdot ++ rest) :
    ∃ t, s.Reaches t ∧ AtRoot t.b ∧ t.rest = rest.drop 1 := by
  have hstep := step_dot (hs.c_eq hroot) hrest
  obtain ⟨n, hn⟩ : ∃ n, s.b.length = n + 2 := ⟨s.b.length - 2, by omega⟩
  have hb : s.b = List.replicate (n + 2) slash := List.eq_replicate_iff.mpr ⟨hn, hroot.2⟩
  have hi := hs.length_le
  have hcut : Scan.Cuts ⟨dot :: rest, s.i + 1, 1, s.b ++ [dot]⟩ := ⟨if_pos rfl, by omega⟩
  have hlast : lastSlash (s.b ++ [dot]) = some (List.replicate (n + 1) slash) := by
    rw [hb, lastSlash_slashes]
  have hstep' : Scan.step ⟨dot :: rest, s.i + 1, 1, s.b ++ [dot]⟩ = _ := step_cut rfl hcut hlast
  exact ⟨_, .head hstep (.single hstep'), ⟨by simp, fun x hx => List.eq_of_mem_replicate hx⟩, rfl⟩

/-- A `..` behind the only slash is out of bounds, but for one at the start of the path. -/
theorem Scan.Scanning.dotdot_short (hs : s.Scanning path) (hroot : AtRoot s.b) (hlen : s.b.length < 2)
    {rest : List Byte} (hrest : s.rest = dotdot ++ rest) (hi : s.i ≠ 1) : ∃ t, s.Reaches t ∧ t.Short := by
  have hstep := step_dot (hs.c_eq hroot) hrest
  refine ⟨_, .single hstep, ⟨if_pos rfl, by omega⟩, ?_⟩
  rw [List.length_append, List.length_singleton]
  omega

/-- The state behind the `/` at the start of the path. -/
theorem Scan.reaches_first : (start (slash :: xs)).Reaches ⟨xs, 1, 0, [slash]⟩ := .single rfl

/-- The loop at a `..` at the start of the path: it goes on behind one more character. -/
theorem Scan.steps_startsUp (rest : List Byte) :
    Scan.step ⟨dotdot ++ slash :: rest, 1, 0, [slash]⟩ = some ⟨dot :: slash :: rest, 2, 1, [slash, dot]⟩ ∧
      Scan.step ⟨dot :: slash :: rest, 2, 1, [slash, dot]⟩ =
        some ⟨slash :: rest, 3, 2, [slash, dot, dot]⟩ ∧
      Scan.step ⟨slash :: rest, 3, 2, [slash, dot, dot]⟩ = some ⟨rest.drop 1, 5, 0, [slash]⟩ :=
  ⟨rfl, rfl, rfl⟩

/-- What the loop comes to is the state itself or behind the next step. -/
theorem Scan.Reaches.cases {u : Scan} (h : s.Reaches t) (hstep : s.step = some u) : t = s ∨ u.Reaches t := by
  rcases h.cases_head with rfl | ⟨u', hu', hreach⟩
  · exact .inl rfl
  · rw [hstep] at hu'
    exact .inr (Option.some.inj hu' ▸ hreach)

/-- An output with a dot is not the root. -/
theorem not_atRoot (h : dot ∈ b) : ¬ AtRoot b := fun hroot => absurd (hroot.2 dot h) (by decide)

/-- A `..` at the root is resolved where the output is never short and the path does not start up. -/
theorem exists_atRoot (habs : path.head? = some slash)
    (hshort : ∀ s, (Scan.start path).Reaches s → ¬ s.Short) (hup : ¬ StartsUp path) {rest : List Byte}
    (hreach : (Scan.start path).Reaches s) (hroot : AtRoot s.b) (hrest : s.rest = dotdot ++ rest)
    (hend : rest = [] ∨ rest.head? = some slash) :
    ∃ t, s.Reaches t ∧ AtRoot t.b ∧ dropSlashes t.rest = dropSlashes rest := by
  have hs := hreach.scanning habs
  rcases Nat.lt_or_ge s.b.length 2 with hlen | hlen
  · by_cases hi : s.i = 1
    · -- The `..` is the start of the path.
      obtain ⟨x, hx⟩ : ∃ x, s.b = [x] :=
        List.length_eq_one_iff.mp (by have := List.length_pos_of_ne_nil hroot.1; omega)
      have hb : s.b = [slash] := by rw [hx, hroot.2 x (by simp [hx])]
      obtain ⟨y, ys, rfl⟩ := List.exists_cons_of_ne_nil (l := path) (by rintro rfl; cases habs)
      have hy : y = slash := Option.some.inj habs
      have hys : ys = dotdot ++ rest := (hs.rest_eq hi).symm.trans hrest
      obtain ⟨r, hr⟩ : ∃ r, rest = slash :: r := by
        rcases rest with - | ⟨z, r⟩
        · exact (hup (.inl (by rw [hy, hys]; rfl))).elim
        · exact ⟨r, by rw [Option.some.inj (hend.resolve_left (List.cons_ne_nil z r))]⟩
      have hseq : s = ⟨dotdot ++ slash :: r, 1, 0, [slash]⟩ :=
        Scan.ext (by rw [hrest, hr]) hi (hs.c_eq hroot) hb
      obtain ⟨h1, h2, h3⟩ := Scan.steps_startsUp r
      have hsteps : s.Reaches ⟨r.drop 1, 5, 0, [slash]⟩ := by
        rw [hseq]
        exact .head h1 (.head h2 (.single h3))
      refine ⟨_, hsteps, ⟨by simp, by simp⟩, ?_⟩
      rw [hr, dropSlashes_cons_slash]
      rcases r with - | ⟨z, r⟩
      · rfl
      · have hz : z = slash := by
          by_contra hz
          exact hup (.inr ⟨z, r, hz, by rw [hy, hys, hr]; rfl⟩)
        rw [hz, dropSlashes_cons_slash]
        rfl
    · obtain ⟨t, ht, hts⟩ := hs.dotdot_short hroot hlen hrest hi
      exact (hshort t (hreach.trans ht) hts).elim
  · obtain ⟨t, ht, htroot, htrest⟩ := hs.dotdot_slashes hroot hlen hrest
    refine ⟨t, ht, htroot, ?_⟩
    rw [htrest]
    rcases hend with rfl | hhead
    · rfl
    · obtain ⟨r, rfl⟩ := List.head?_eq_some_iff.mp hhead
      exact dropSlashes_cons_slash.symm

/-- A `..` at the start of a path is not resolved. -/
theorem StaysInRoot.not_startsUp (h : StaysInRoot path) : ¬ StartsUp path := by
  have hroot : AtRoot [slash] := ⟨by simp, by simp⟩
  rintro (rfl | ⟨x, xs, hx, rfl⟩)
  · obtain ⟨t, ht, htroot, htrest⟩ := h.atRoot _ [] Scan.reaches_first hroot rfl (.inl rfl)
    rcases ht.cases (u := ⟨[dot], 2, 1, [slash, dot]⟩) rfl with rfl | ht
    · cases htrest
    rcases ht.cases (u := ⟨[], 3, 2, [slash, dot, dot]⟩) rfl with rfl | ht
    · exact not_atRoot (by simp) htroot
    rcases ht.cases_head with rfl | ⟨u, hu, -⟩
    · exact not_atRoot (by simp) htroot
    · cases hu
  · obtain ⟨t, ht, htroot, htrest⟩ := h.atRoot _ (slash :: x :: xs) Scan.reaches_first hroot rfl (.inr rfl)
    rw [dropSlashes_cons_slash, dropSlashes_cons hx] at htrest
    obtain ⟨h1, h2, h3⟩ := Scan.steps_startsUp (x :: xs)
    rcases ht.cases h1 with rfl | ht
    · have hlen := congrArg List.length htrest
      simp [dropSlashes, dotdot, dot, slash] at hlen
      omega
    rcases ht.cases h2 with rfl | ht
    · exact not_atRoot (by simp) htroot
    rcases ht.cases h3 with rfl | ht
    · exact not_atRoot (by simp) htroot
    -- The first character of the rest has been left out.
    have hlen := (length_dropSlashes_le t.rest).trans ht.length_rest_le
    rw [htrest] at hlen
    exact absurd hlen (Nat.not_succ_le_self xs.length)

/-- A path from the root stays there if and only if the output is never short and the path does not start
up. -/
theorem staysInRoot_iff_short (habs : path.head? = some slash) (hlen : path.length < pathSize) :
    StaysInRoot path ↔ (∀ s, (Scan.start path).Reaches s → ¬ s.Short) ∧ ¬ StartsUp path := by
  constructor
  · intro h
    exact ⟨fun s hs => ((hs.scanning habs).inBounds_iff hlen).mp (h.inBounds s hs), h.not_startsUp⟩
  · rintro ⟨hshort, hup⟩
    refine ⟨fun s hs => ((hs.scanning habs).inBounds_iff hlen).mpr (hshort s hs),
      Scan.exists_end habs _ le_rfl Scan.scanning_start hshort, ?_⟩
    exact fun s rest hreach hroot hrest hend => exists_atRoot habs hshort hup hreach hroot hrest hend

/-! ## Paths of names without dots -/

/-- A path that climbs has a `..` at the root. -/
theorem exists_dotdot_of_climb : ∀ {cs stack : List (List Byte)}, ¬ NoClimb stack.length cs →
    ∃ pre post, cs = pre ++ dotdot :: post ∧ NoClimb stack.length pre ∧ resolve stack pre = []
  | [], stack, h => (h trivial).elim
  | c :: cs, stack, h => by
    rw [NoClimb] at h
    by_cases hc : c = dotdot
    · rw [if_pos hc] at h
      by_cases hstack : stack.length = 0
      · exact ⟨[], cs, by rw [hc]; rfl, trivial, List.length_eq_zero_iff.mp hstack⟩
      · have hclimb : ¬ NoClimb stack.dropLast.length cs := by
          rw [List.length_dropLast]
          exact fun hn => h ⟨hstack, hn⟩
        obtain ⟨pre, post, rfl, hpre, hres⟩ := exists_dotdot_of_climb hclimb
        refine ⟨c :: pre, post, rfl, ?_, ?_⟩
        · rw [NoClimb, if_pos hc, ← List.length_dropLast]
          exact ⟨hstack, hpre⟩
        · rw [resolve, if_pos hc]
          exact hres
    · rw [if_neg hc] at h
      have hclimb : ¬ NoClimb (stack ++ [c]).length cs := by
        rwa [List.length_append, List.length_singleton]
      obtain ⟨pre, post, rfl, hpre, hres⟩ := exists_dotdot_of_climb hclimb
      refine ⟨c :: pre, post, rfl, ?_, ?_⟩
      · rw [List.length_append, List.length_singleton] at hpre
        rw [NoClimb, if_neg hc]
        exact hpre
      · rw [resolve, if_neg hc]
        exact hres

/-- `remove_d` has no result at a `..` behind the only slash. -/
theorem removeDLoop_dotdot_root {i : ℕ} (hi : i ≠ 1) : removeDLoop (dotdot ++ xs) i 0 [slash] = none := by
  have hcopy : removeDLoop (dotdot ++ xs) i 0 [slash] = removeDLoop (dot :: xs) (i + 1) 1 [slash, dot] :=
    removeDLoop_copy (by simp)
  rw [hcopy, removeDLoop_cut ⟨if_pos rfl, by omega⟩, lastSlash_of_lt (by decide)]
  rfl

/-- What a path has behind some of its parts and a `..`. -/
theorem Path.body_eq {p : Path} {pre post : List (List Byte)} (h : p.parts = pre ++ dotdot :: post) :
    ∃ zs, p.body = joined slash pre ++ (dotdot ++ zs) ∧
      (zs = slash :: joined slash post ∨ zs = (slash :: joined slash post).dropLast) := by
  have hjoined : joined slash p.parts = joined slash pre ++ (dotdot ++ slash :: joined slash post) := by
    rw [h]
    simp [joined]
  rw [body, hjoined]
  split
  · exact ⟨_, rfl, .inl rfl⟩
  · refine ⟨_, ?_, .inr rfl⟩
    rw [List.dropLast_append_of_ne_nil (by simp), List.dropLast_append_of_ne_nil (by simp)]

/-- A part of a path starts with another character than `/`. -/
theorem Path.exists_part (p : Path) {c : List Byte} (hc : c ∈ p.parts) : ∃ x xs, c = x :: xs ∧ x ≠ slash := by
  rcases p.valid c hc with rfl | hname
  · exact ⟨dot, [dot], rfl, by decide⟩
  · obtain ⟨x, xs, rfl⟩ := List.exists_cons_of_ne_nil hname.ne_nil
    exact ⟨x, xs, rfl, fun hx => hname.slash_notMem (hx ▸ List.mem_cons_self ..)⟩

/-- A path that climbs starts up, or has no result, or is `/../`. -/
theorem Path.of_climb (p : Path) (habs : p.absolute = true) (h : ¬ NoClimb 0 p.parts) :
    StartsUp p.bytes ∨ removeD p.bytes = none ∨ p.bytes = slash :: dotdot ++ [slash] := by
  obtain ⟨pre, post, hparts, hclimb, hres⟩ := @exists_dotdot_of_climb _ [] h
  obtain ⟨zs, hbody, hzs⟩ := Path.body_eq hparts
  have hvalid : ∀ c ∈ pre, c = dotdot ∨ IsName c := fun c hc => p.valid c (by rw [hparts]; simp [hc])
  rw [bytes, if_pos habs, hbody]
  by_cases hpre : pre = []
  · -- The first part climbs.
    rw [hpre, joined, List.flatMap_nil, List.nil_append]
    rcases post with - | ⟨c, post⟩
    · rcases hzs with rfl | rfl
      · exact .inr (.inr rfl)
      · exact .inl (.inl rfl)
    · obtain ⟨x, xs, rfl, hx⟩ := p.exists_part (c := c) (by rw [hparts]; simp)
      refine .inl (.inr ?_)
      rcases hzs with rfl | rfl
      · exact ⟨x, xs ++ [slash] ++ joined slash post, hx, by simp [joined]⟩
      · refine ⟨x, (xs ++ [slash] ++ joined slash post).dropLast, hx, ?_⟩
        have hcons : joined slash ((x :: xs) :: post) = x :: (xs ++ [slash] ++ joined slash post) := by
          simp [joined]
        rw [hcons, List.dropLast_cons_of_ne_nil (by simp), List.dropLast_cons_of_ne_nil (by simp)]
        rfl
  · -- The loop has read the parts before it.
    refine .inr (.inl ?_)
    obtain ⟨j, hj, -, hloop⟩ := @removeDLoop_joined (dotdot ++ zs) pre [] 1 hvalid
      (List.forall_mem_nil _) hclimb le_rfl
    have hslash : dot ∉ [slash] := by decide
    have hstart : removeD (slash :: (joined slash pre ++ (dotdot ++ zs))) =
        removeDLoop (joined slash pre ++ (dotdot ++ zs)) 1 0 (slash :: joined slash []) :=
      removeDLoop_append hslash
    have hpos := List.length_pos_of_ne_nil hpre
    rw [hstart, hloop, hres]
    exact removeDLoop_dotdot_root (by omega)

/-- A path that does not climb does not start up. -/
theorem Path.not_startsUp (p : Path) (habs : p.absolute = true) (h : NoClimb 0 p.parts) :
    ¬ StartsUp p.bytes := by
  intro hup
  have hbody : ∃ ys, p.body = dotdot ++ ys := by
    rw [StartsUp, bytes, if_pos habs] at hup
    rcases hup with hup | ⟨x, xs, -, hup⟩
    · exact ⟨[], (List.cons.inj hup).2⟩
    · exact ⟨_, (List.cons.inj hup).2⟩
  obtain ⟨ys, hys⟩ := hbody
  cases hparts : p.parts with
  | nil =>
    rw [body, hparts] at hys
    simp [joined, dotdot] at hys
  | cons c cs =>
    have hc : c ≠ dotdot := by
      rintro rfl
      rw [hparts, NoClimb, if_pos rfl] at h
      exact h.1 rfl
    have hname := (p.valid c (by simp [hparts])).resolve_left hc
    obtain ⟨x, xs, rfl⟩ := List.exists_cons_of_ne_nil hname.ne_nil
    -- The first character of the body is that of a name.
    have hhead : p.body.head? = some x := by
      rw [body, hparts]
      have hcons : joined slash ((x :: xs) :: cs) = x :: (xs ++ [slash] ++ joined slash cs) := by
        simp [joined]
      rw [hcons]
      split
      · rfl
      · rw [List.dropLast_cons_of_ne_nil (by simp)]
        rfl
    rw [hys] at hhead
    have hx : dot = x := Option.some.inj hhead
    exact hname.dot_notMem (hx ▸ List.mem_cons_self ..)

/-- A path from the root stays there if and only if the loop never has two dots and less than three
characters in its output, and the path does not start up. Where the names have no dots, this is so if and
only if no `..` climbs above the root, or the path is `/../`. -/
theorem staysInRoot_iff (path : List Byte) (habs : path.head? = some slash) (hlen : path.length < pathSize) :
    (StaysInRoot path ↔ (∀ s, (Scan.start path).Reaches s → ¬ s.Short) ∧ ¬ StartsUp path) ∧
      ∀ p : Path, p.absolute = true → p.bytes = path →
        (StaysInRoot path ↔ NoClimb 0 p.parts ∨ path = slash :: dotdot ++ [slash]) := by
  refine ⟨staysInRoot_iff_short habs hlen, ?_⟩
  rintro p hp rfl
  rw [staysInRoot_iff_short habs hlen, ← isSome_removeD_iff habs]
  constructor
  · rintro ⟨hsome, hup⟩
    by_cases hclimb : NoClimb 0 p.parts
    · exact .inl hclimb
    · rcases p.of_climb hp hclimb with h | h | h
      · exact (hup h).elim
      · rw [h] at hsome
        cases hsome
      · exact .inr h
  · rintro (hclimb | hpath)
    · refine ⟨?_, p.not_startsUp hp hclimb⟩
      have hbytes : p.bytes = slash :: joined slash [] ++ p.body := by
        rw [Path.bytes, if_pos hp]
        rfl
      rw [hbytes, removeD_body p (List.forall_mem_nil _) hclimb]
      rfl
    · rw [hpath]
      refine ⟨by decide, ?_⟩
      rintro (h | ⟨x, xs, -, h⟩)
      · exact absurd h (by decide)
      · cases h

/-- The path `/a/b/../../c/..` stays in the root. -/
theorem staysInRoot_sample : StaysInRoot samplePath.bytes :=
  ((staysInRoot_iff samplePath.bytes rfl (by decide)).2 samplePath rfl rfl).mpr
    (.inl (by simp [NoClimb, samplePath, dotdot, dot]))

/-- The path `/a/../..` is searched at the index -1, and `/../abc` comes out as `/bc`. -/
theorem climb_leaves_root :
    (∃ s, (Scan.start [47, 97, 47, 46, 46, 47, 46, 46]).Reaches s ∧ (-1 : ℤ) ∈ s.accesses) ∧
      ¬ StaysInRoot [47, 97, 47, 46, 46, 47, 46, 46] ∧
      removeD [47, 46, 46, 47, 97, 98, 99] = some [47, 98, 99] ∧
      ¬ StaysInRoot [47, 46, 46, 47, 97, 98, 99] := by
  have hreach : (Scan.start [47, 97, 47, 46, 46, 47, 46, 46]).Reaches ⟨[46], 7, 1, [47, 46]⟩ :=
    .head (b := ⟨[97, 47, 46, 46, 47, 46, 46], 1, 0, [47]⟩) rfl <|
    .head (b := ⟨[47, 46, 46, 47, 46, 46], 2, 0, [47, 97]⟩) rfl <|
    .head (b := ⟨[46, 46, 47, 46, 46], 3, 0, [47, 97, 47]⟩) rfl <|
    .head (b := ⟨[46, 47, 46, 46], 4, 1, [47, 97, 47, 46]⟩) rfl <|
    .head (b := ⟨[46, 46], 6, 0, [47]⟩) rfl <| .single rfl
  have hmem : (-1 : ℤ) ∈ Scan.accesses ⟨[46], 7, 1, [47, 46]⟩ := by decide
  refine ⟨⟨_, hreach, hmem⟩, fun h => ?_, by decide, fun h => ?_⟩
  · exact absurd (h.inBounds _ hreach _ hmem).1 (by decide)
  · exact h.not_startsUp (.inr ⟨97, [98, 99], by decide, rfl⟩)

end

end Nascent.Tarfs
