import Nascent.Lib.Numeral
import Nascent.Lib.Strings
import Nascent.Lib.Words
import Nascent.Shell.Env

/-!
# The words of a command line

`split_and_count` of `src/libc/strings.c` on the bytes of its arrays. `final_array` is an array of rows
of 150 bytes, and the byte `i` of the row `j` lies `150 j + i` bytes behind its start, so that a longer
string would run into the next row. The array and the line are apart. `splitAndCount` of
`Nascent.Shell.Env` has the rows as lists.

For a line with a word, without the character for a new line, and of fewer than 100 characters, the rows
are the words of the line in their order, and the number that is returned is that of the last row
(`splitAndCount_words`). The proof has two parts. The rows as lists are the words of what has been read,
whether the last word may still go on, has been closed by a blank, or has not come yet (`Reads`). The
bytes are those of the rows (`Matches`).
-/

namespace Nascent.Shell

open Bytes (Byte)
open Numeral
open Strings (Str IsString scan scan_eq)
open Words

/-! ## The function -/

/-- The variables of `split_and_count`. -/
structure SplitBytes where
  /-- The bytes from `final_array` on. -/
  finalArray : ℕ → Byte
  /-- `fin_arr_itr`. -/
  finArrItr : ℕ
  /-- `block`. -/
  block : ℕ
  /-- `found_flag`. -/
  foundFlag : Bool
  /-- `letter_flag`. -/
  letterFlag : Bool

namespace SplitBytes

/-- `final_array[block][fin_arr_itr] = c`. -/
def put (x : SplitBytes) (c : Byte) : ℕ → Byte := Function.update x.finalArray (150 * x.block + x.finArrItr) c

/-- One character of the loop. -/
def step (delimiter : Byte) (x : SplitBytes) (c : Byte) : SplitBytes :=
  let x := if c ≠ blank then { x with letterFlag := true } else x
  let x := if c = delimiter ∧ x.letterFlag then { x with foundFlag := true } else x
  let x := if x.foundFlag ∧ c ≠ delimiter then
      { x with finalArray := x.put 0, finArrItr := 0, block := x.block + 1, foundFlag := false }
    else x
  if ¬ x.foundFlag ∧ x.letterFlag ∧ c ≠ newline then
    { x with finalArray := x.put c, finArrItr := x.finArrItr + 1 }
  else x

end SplitBytes

/-- `split_and_count`: the bytes from `final_array` on, and the number that it returns. A delimiter that is
zero makes the array null, so that the last write faults. -/
def splitAndCountBytes (s : Str) (delimiter : Byte) (finalArray : ℕ → Byte) : Option ((ℕ → Byte) × ℕ) :=
  if delimiter = 0 then none
  else
    (scan (SplitBytes.step delimiter) s (2 ^ 64) 0 ⟨finalArray, 0, 0, false, false⟩).map fun x =>
      (x.put 0, x.block)

/-- A row of an array. -/
def row (a : ℕ → Byte) (j : ℕ) : Str := fun i => a (150 * j + i)

/-! ## The rows as lists -/

variable {d c : Byte} {s p : Row} {y : Split} {R : List (ℕ × ℕ)} {r : ℕ × ℕ} {i j : ℕ}

/-- What the loop has after some characters of a line, when the delimiter is a blank. -/
inductive Reads : Row → Split → List (ℕ × ℕ) → Prop
  /-- No word has come yet. -/
  | blanks {p : Row} (hruns : AreRuns blank p []) (hblanks : ∀ c ∈ p, c = blank) :
    Reads p ⟨[], [], false, false⟩ []
  /-- The last word may go on. -/
  | word {p : Row} {R : List (ℕ × ℕ)} {i : ℕ} (hruns : AreRuns blank p (R ++ [(i, p.length)])) :
    Reads p ⟨R.map (slice p), slice p (i, p.length), false, true⟩ (R ++ [(i, p.length)])
  /-- The last word has ended. -/
  | gap {p : Row} {R : List (ℕ × ℕ)} {r : ℕ × ℕ} (hruns : AreRuns blank p (R ++ [r])) (hopen : Open blank p) :
    Reads p ⟨R.map (slice p), slice p r, true, true⟩ (R ++ [r])

theorem Reads.areRuns (h : Reads p y R) : AreRuns blank p R := by
  cases h with
  | blanks hruns => exact hruns
  | word hruns => exact hruns
  | gap hruns => exact hruns

/-- The words of what has been read stay when a character comes. -/
theorem map_slice_concat (hR : ∀ r ∈ R, r.2 ≤ p.length) : R.map (slice (p ++ [c])) = R.map (slice p) :=
  List.map_congr_left fun r hr => slice_concat (hR r hr)

/-- One character of the line. -/
theorem Reads.step (h : Reads p y R) (hc : c ≠ newline) : ∃ R', Reads (p ++ [c]) (y.step blank c) R' := by
  have hlen : (p ++ [c]).length = p.length + 1 := by simp
  by_cases hblank : c = blank
  · subst hblank
    cases h with
    | blanks hruns hblanks =>
      refine ⟨[], Reads.blanks hruns.delimiter fun c hc => ?_⟩
      rcases List.mem_append.mp hc with hc | hc
      · exact hblanks c hc
      · exact List.mem_singleton.mp hc
    | @word R i hruns =>
      have hle : ∀ r ∈ R ++ [(i, p.length)], r.2 ≤ p.length := fun r hr => hruns.le hr
      have hgap := Reads.gap hruns.delimiter open_concat
      rw [map_slice_concat fun r hr => hle r (List.mem_append_left _ hr), slice_concat le_rfl] at hgap
      exact ⟨_, hgap⟩
    | @gap R r hruns hopen =>
      have hle : ∀ q ∈ R ++ [r], q.2 ≤ p.length := fun q hq => hruns.le hq
      have hgap := Reads.gap hruns.delimiter open_concat
      rw [map_slice_concat fun r hr => hle r (List.mem_append_left _ hr), slice_concat (hle r (by simp))] at hgap
      exact ⟨_, hgap⟩
  · cases h with
    | blanks hruns hblanks =>
      have hword := Reads.word (R := []) (i := p.length)
        (hlen ▸ hruns.start (open_of_forall hblanks) hblank)
      rw [hlen, slice_concat_end le_rfl, slice_self] at hword
      exact ⟨_, by simpa [Split.step, hblank, hc] using hword⟩
    | @word R i hruns =>
      have hle : ∀ r ∈ R ++ [(i, p.length)], r.2 ≤ p.length := fun r hr => hruns.le hr
      have hi : i ≤ p.length := (((hruns.mem _).mp (List.mem_append_right R (List.mem_singleton_self _))).lt).le
      have hword := Reads.word (p := p ++ [c]) (R := R) (i := i) (hlen ▸ hruns.extend hblank)
      rw [hlen, slice_concat_end hi, map_slice_concat fun r hr => hle r (List.mem_append_left _ hr)] at hword
      exact ⟨_, by simpa [Split.step, hblank, hc] using hword⟩
    | @gap R r hruns hopen =>
      have hle : ∀ q ∈ R ++ [r], q.2 ≤ p.length := fun q hq => hruns.le hq
      have hword := Reads.word (p := p ++ [c]) (R := R ++ [r]) (i := p.length)
        (hlen ▸ hruns.start hopen hblank)
      rw [hlen, slice_concat_end le_rfl, slice_self, map_slice_concat hle, List.map_append] at hword
      exact ⟨_, by simpa [Split.step, hblank, hc] using hword⟩

/-- The loop reads the words of a line. -/
theorem exists_reads (hnewline : newline ∉ s) :
    ∃ R, Reads s (s.foldl (Split.step blank) ⟨[], [], false, false⟩) R := by
  induction s using List.reverseRecOn with
  | nil => exact ⟨[], Reads.blanks areRuns_nil fun c hc => absurd hc List.not_mem_nil⟩
  | append_singleton s c ih =>
    rw [List.mem_append, List.mem_singleton, not_or] at hnewline
    obtain ⟨R, hreads⟩ := ih hnewline.1
    rw [List.foldl_append, List.foldl_cons, List.foldl_nil]
    exact hreads.step (Ne.symm hnewline.2)

/-- The rows of a line with a word are its words. -/
theorem splitAndCount_eq (hnewline : newline ∉ s) (hword : ∃ c ∈ s, c ≠ blank) :
    ∃ R, R ≠ [] ∧ AreRuns blank s R ∧ splitAndCount s blank = R.map (slice s) := by
  obtain ⟨R, hreads⟩ := exists_reads hnewline
  have hruns := hreads.areRuns
  unfold splitAndCount
  generalize s.foldl (Split.step blank) ⟨[], [], false, false⟩ = y at hreads ⊢
  cases hreads with
  | blanks _ hblanks =>
    obtain ⟨c, hc, hne⟩ := hword
    exact absurd (hblanks c hc) hne
  | word => exact ⟨_, by simp, hruns, by simp⟩
  | gap => exact ⟨_, by simp, hruns, by simp⟩

/-! ## The bytes -/

variable {a old : ℕ → Byte} {L : List Row} {w : Row} {x : SplitBytes} {string : Str}

/-- The bytes of an array are those of some rows, each written over the start of what was there. -/
def Rows (old a : ℕ → Byte) (L : List Row) : Prop :=
  ∀ j i, i < 150 → row a j i = fill (row old j) (L.getD j []) i

/-- A row that starts has no bytes. -/
theorem Rows.new (h : Rows old a L) : Rows old a (L ++ [[]]) := by
  intro j i hi
  rw [h j i hi]
  congr 1
  rcases Nat.lt_or_ge j L.length with hj | hj
  · rw [List.getD_append _ _ _ _ hj]
  · rw [List.getD_append_right _ _ _ _ hj, List.getD_eq_default _ _ hj]
    cases j - L.length <;> rfl

/-- One byte more in the last row. -/
theorem Rows.put (h : Rows old a (L ++ [w])) (hw : w.length < 150) :
    Rows old (Function.update a (150 * L.length + w.length) c) (L ++ [w ++ [c]]) := by
  intro j i hi
  have hold := h j i hi
  unfold row at hold ⊢
  rcases Nat.lt_trichotomy j L.length with hj | rfl | hj
  · rw [Function.update_of_ne (by omega), hold, List.getD_append _ _ _ _ hj, List.getD_append _ _ _ _ hj]
  · rw [List.getD_append_right _ _ _ _ le_rfl, Nat.sub_self] at hold ⊢
    change _ = fill _ (w ++ [c]) i
    change _ = fill _ w i at hold
    rw [← update_fill]
    by_cases hiw : i = w.length
    · subst hiw
      rw [Function.update_self, Function.update_self]
    · rw [Function.update_of_ne (by omega), Function.update_of_ne hiw, hold]
  · rw [Function.update_of_ne (by omega), hold, List.getD_eq_default _ _ (by simp; omega),
      List.getD_eq_default _ _ (by simp; omega)]

/-- The variables are those of the rows as lists. -/
structure Matches (old : ℕ → Byte) (x : SplitBytes) (y : Split) : Prop where
  /-- The rows: a complete one ends with a zero byte. -/
  rows : Rows old x.finalArray (y.rows.map (· ++ [0]) ++ [y.row])
  /-- The number of the row. -/
  block : x.block = y.rows.length
  /-- The place in the row. -/
  finArrItr : x.finArrItr = y.row.length
  /-- The flag for a delimiter. -/
  found : x.foundFlag = y.found
  /-- The flag for a character. -/
  letter : x.letterFlag = y.letter

/-- A byte is put behind the row. -/
theorem Matches.put (h : Matches old x y) (hy : y.row.length < 150) :
    Rows old (x.put c) (y.rows.map (· ++ [0]) ++ [y.row ++ [c]]) := by
  have hput := h.rows.put (c := c) hy
  rw [List.length_map, ← h.block, ← h.finArrItr] at hput
  exact hput

theorem Matches.setLetter (h : Matches old x y) :
    Matches old { x with letterFlag := true } { y with letter := true } :=
  ⟨h.rows, h.block, h.finArrItr, h.found, rfl⟩

theorem Matches.setFound (h : Matches old x y) :
    Matches old { x with foundFlag := true } { y with found := true } :=
  ⟨h.rows, h.block, h.finArrItr, rfl, h.letter⟩

/-- A row is closed. -/
theorem Matches.close (h : Matches old x y) (hy : y.row.length < 150) :
    Matches old { x with finalArray := x.put 0, finArrItr := 0, block := x.block + 1, foundFlag := false }
      { y with rows := y.rows ++ [y.row], row := [], found := false } where
  rows := by
    have hnew := (h.put (c := 0) hy).new
    simpa using hnew
  block := by rw [h.block, List.length_append, List.length_singleton]
  finArrItr := rfl
  found := rfl
  letter := h.letter

/-- A character is appended to the row. -/
theorem Matches.append (h : Matches old x y) (hy : y.row.length < 150) :
    Matches old { x with finalArray := x.put c, finArrItr := x.finArrItr + 1 }
      { y with row := y.row ++ [c] } where
  rows := h.put hy
  block := h.block
  finArrItr := by rw [h.finArrItr, List.length_append, List.length_singleton]
  found := h.found
  letter := h.letter

/-- A branch that both take. -/
theorem Matches.ite {P Q : Prop} [Decidable P] [Decidable Q] {x' : SplitBytes} {y' : Split} (hPQ : P ↔ Q)
    (hthen : Matches old x y) (helse : Matches old x' y') :
    Matches old (if P then x else x') (if Q then y else y') := by
  by_cases hP : P
  · rwa [if_pos hP, if_pos (hPQ.mp hP)]
  · rwa [if_neg hP, if_neg (mt hPQ.mpr hP)]

/-- One character. -/
theorem Matches.step (h : Matches old x y) (hy : y.row.length < 150) :
    Matches old (x.step d c) (y.step d c) := by
  unfold SplitBytes.step Split.step
  extract_lets x₁ x₂ x₃ y₁ y₂ y₃
  have h₁ : Matches old x₁ y₁ := Matches.ite Iff.rfl h.setLetter h
  have h₂ : Matches old x₂ y₂ :=
    Matches.ite (and_congr_right fun _ => by rw [h₁.letter]) h₁.setFound h₁
  have hy₂ : y₂.row = y.row := by
    unfold y₂ y₁
    split_ifs <;> rfl
  have h₃ : Matches old x₃ y₃ :=
    Matches.ite (and_congr_left fun _ => by rw [h₂.found]) (h₂.close (by rwa [hy₂])) h₂
  have hy₃ : y₃.row.length < 150 := by
    unfold y₃
    split_ifs
    · exact Nat.succ_pos _
    · rwa [hy₂]
  exact Matches.ite (by rw [h₃.found, h₃.letter]) (h₃.append hy₃) h₃

/-! ## The whole line -/

/-- A character makes the row, and the number of rows, larger by at most one. -/
theorem length_step :
    (y.step d c).row.length ≤ y.row.length + 1 ∧ (y.step d c).rows.length ≤ y.rows.length + 1 := by
  unfold Split.step
  dsimp only
  split_ifs <;> simp

/-- Neither a row nor the number of rows is larger than the number of characters. -/
theorem length_foldl_step :
    (s.foldl (Split.step d) y).row.length ≤ y.row.length + s.length ∧
      (s.foldl (Split.step d) y).rows.length ≤ y.rows.length + s.length := by
  induction s generalizing y with
  | nil => exact ⟨le_rfl, le_rfl⟩
  | cons c s ih =>
    obtain ⟨hrow, hrows⟩ := length_step (d := d) (c := c) (y := y)
    obtain ⟨ihrow, ihrows⟩ := ih (y := y.step d c)
    rw [List.foldl_cons, List.length_cons]
    exact ⟨by omega, by omega⟩

/-- The characters of a line that fits in a row. -/
theorem Matches.foldl (h : Matches old x y) (hlen : y.row.length + s.length ≤ 150) :
    Matches old (s.foldl (SplitBytes.step d) x) (s.foldl (Split.step d) y) := by
  induction s generalizing x y with
  | nil => exact h
  | cons c s ih =>
    rw [List.length_cons] at hlen
    obtain ⟨hrow, -⟩ := length_step (d := d) (c := c) (y := y)
    exact ih (h.step (by omega)) (by omega)

/-- The variables before the first character. -/
theorem matches_start : Matches old ⟨old, 0, 0, false, false⟩ ⟨[], [], false, false⟩ where
  rows j i _ := by cases j <;> rfl
  block := rfl
  finArrItr := rfl
  found := rfl
  letter := rfl

/-- The bytes that the function leaves for a line that fits in a row are those of its rows, and it returns
the number of the last row. -/
theorem splitAndCountBytes_eq (hstring : IsString string s) (hd : d ≠ 0) (hlen : s.length < 150) :
    ∃ a, splitAndCountBytes string d old = some (a, (splitAndCount s d).length - 1) ∧
      Rows old a ((splitAndCount s d).map (· ++ [0])) := by
  have hmatches : Matches old _ _ := matches_start.foldl (s := s) (d := d) (by simpa using hlen.le)
  obtain ⟨hrow, -⟩ := length_foldl_step (s := s) (d := d) (y := ⟨[], [], false, false⟩)
  unfold splitAndCountBytes splitAndCount
  rw [if_neg hd, scan_eq hstring (by omega), Option.map_some]
  generalize s.foldl (Split.step d) ⟨[], [], false, false⟩ = y at hmatches hrow ⊢
  dsimp only at hrow ⊢
  refine ⟨_, ?_, by
    rw [List.map_append]
    exact hmatches.put (by rw [List.length_nil] at hrow; omega)⟩
  rw [hmatches.block, List.length_append, List.length_singleton, Nat.add_sub_cancel]

/-- For a line of fewer than 100 characters with a character other than the blank, and without the one for
a new line, `split_and_count` fills the first rows with the strings of the words of the line, in their
order, and returns the number of the last of these rows. It writes nothing behind them. -/
theorem splitAndCount_words (line : Row) (string : Str) (old : ℕ → Byte) (hstring : IsString string line)
    (hnewline : newline ∉ line) (hlen : line.length < 100) (hword : ∃ c ∈ line, c ≠ blank) :
    ∃ (a : ℕ → Byte) (R : List (ℕ × ℕ)), splitAndCountBytes string blank old = some (a, R.length - 1) ∧
      AreRuns blank line R ∧ 0 < R.length ∧ R.length ≤ 150 ∧
      (∀ k (hk : k < R.length), IsString (row a k) (slice line R[k])) ∧
      ∀ o, 150 * R.length ≤ o → a o = old o := by
  obtain ⟨R, hR, hruns, hsplit⟩ := splitAndCount_eq hnewline hword
  obtain ⟨a, heq, hrows⟩ : ∃ a, splitAndCountBytes string blank old =
      some (a, (splitAndCount line blank).length - 1) ∧ Rows old a ((splitAndCount line blank).map (· ++ [0])) :=
    splitAndCountBytes_eq hstring (by decide) (by omega)
  have hcount : R.length ≤ 150 := by
    obtain ⟨-, hrows⟩ := length_foldl_step (s := line) (d := blank) (y := ⟨[], [], false, false⟩)
    have hlength := congrArg List.length hsplit
    simp only [splitAndCount, List.length_append, List.length_singleton, List.length_map,
      List.length_nil] at hlength hrows
    omega
  rw [hsplit, List.length_map] at heq
  rw [hsplit, List.map_map] at hrows
  refine ⟨a, R, heq, hruns, List.length_pos_iff.mpr hR, hcount, fun k hk => ?_, fun o ho => ?_⟩
  · have hle := hruns.le (List.getElem_mem hk)
    have hshort : (slice line R[k]).length < 150 := by
      unfold slice
      rw [List.length_take, List.length_drop]
      omega
    have hget : ∀ i < 150, row a k i = fill (row old k) (slice line R[k] ++ [0]) i := fun i hi => by
      rw [hrows k i hi, List.getD_eq_getElem _ _ (by simpa using hk), List.getElem_map]
      rfl
    refine ⟨fun i hi => ?_, ?_, fun h0 => hstring.ne_zero (List.mem_of_mem_drop (List.mem_of_mem_take h0))⟩
    · rw [hget i (by omega), fill_of_lt (by simp; omega), List.getElem_append_left hi]
    · rw [hget _ hshort, fill_of_lt (by simp), List.getElem_concat_length rfl]
  · have hbyte := hrows (o / 150) (o % 150) (Nat.mod_lt _ (by decide))
    rw [List.getD_eq_default _ _ (by rw [List.length_map]; omega), fill_nil] at hbyte
    unfold row at hbyte
    rwa [Nat.div_add_mod] at hbyte

/-- The line ` ls  a`, with blanks in front of and between its words. -/
theorem splitAndCount_words_blanks :
    ∃ (a : ℕ → Byte) (R : List (ℕ × ℕ)),
      splitAndCountBytes (Strings.strOf [32, 108, 115, 32, 32, 97]) blank Bytes.zero =
        some (a, R.length - 1) ∧
      AreRuns blank [32, 108, 115, 32, 32, 97] R ∧
      ∀ k (hk : k < R.length), IsString (row a k) (slice [32, 108, 115, 32, 32, 97] R[k]) := by
  obtain ⟨a, R, heq, hruns, -, -, hrows, -⟩ := splitAndCount_words [32, 108, 115, 32, 32, 97] _ Bytes.zero
    (Strings.isString_strOf (by decide)) (by decide) (by decide) (by decide)
  exact ⟨a, R, heq, hruns, hrows⟩

end Nascent.Shell
