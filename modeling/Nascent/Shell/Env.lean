import Mathlib.Data.List.Basic
import Mathlib.Logic.Function.Basic
import Nascent.Lib.Bytes

/-!
# The variables of the shell

`setenv` and `getenv` of `src/bin/sbush/sbush.c` (and, word for word, of `src/libc/env.c`), with the lines
that lead to them: `split_and_count`, the branches `export` and `getenv` of `command_handler`, and the
loop of `main`. A row of a table is the string in it, without its zero byte, and `str_compare` of two rows
tells whether they are equal. A local array that is read before it is written has what was on the stack
(`junk`). `export` splits its argument into `split_array`, which has two rows, on the stack; where
`split_and_count` writes a third one, behind the array, nothing is known of what comes.

No line ever changes `ENV_ARRAY_LENGTH`. So `setenv` finds no name and writes to the second row, and
`getenv` looks at no name and returns the first row, which is empty. And a value with a further word behind a
character `=` is a third row (`Shell.variables_iff`).
-/

namespace Nascent.Shell

open Bytes (Byte)

/-- The string that a row holds. -/
abbrev Row := List Byte

/-- The character `=`. -/
def equals : Byte := 61

/-- The character ` `. -/
def blank : Byte := 32

/-- The character that ends a line. -/
def newline : Byte := 10

/-- The word `export`. -/
def exportWord : Row := [101, 120, 112, 111, 114, 116]

/-- The word `getenv`. -/
def getenvWord : Row := [103, 101, 116, 101, 110, 118]

/-- The name `PS1`. -/
def ps1Name : Row := [80, 83, 49]

/-! ## `split_and_count` -/

/-- The state of the loop of `split_and_count`. -/
structure Split where
  /-- The rows that are complete. -/
  rows : List Row
  /-- The row that is written. -/
  row : Row
  /-- `found_flag`. -/
  found : Bool
  /-- `letter_flag`. -/
  letter : Bool

/-- One character of `split_and_count`. -/
def Split.step (delimiter : Byte) (x : Split) (c : Byte) : Split :=
  let x := if c ≠ blank then { x with letter := true } else x
  let x := if c = delimiter ∧ x.letter then { x with found := true } else x
  let x := if x.found ∧ c ≠ delimiter then { x with rows := x.rows ++ [x.row], row := [], found := false }
    else x
  if ¬ x.found ∧ x.letter ∧ c ≠ newline then { x with row := x.row ++ [c] } else x

/-- `split_and_count`: the rows that it writes. -/
def splitAndCount (s : Row) (delimiter : Byte) : List Row :=
  let x := s.foldl (Split.step delimiter) ⟨[], [], false, false⟩
  x.rows ++ [x.row]

/-! ## The shell -/

/-- The tables of the shell. -/
structure Vars where
  /-- `ENV_KEY`. -/
  envKey : ℕ → Row
  /-- `ENV_VALUE`. -/
  envValue : ℕ → Row
  /-- `ENV_ARRAY_LENGTH`. -/
  envArrayLength : ℕ
  /-- `PS1`. -/
  ps1 : Row

namespace Vars

variable (s : Vars)

/-- The tables when the shell starts. -/
def start : Vars where
  envKey := fun _ => []
  envValue := fun _ => []
  envArrayLength := 0
  ps1 := [115, 98, 117, 115, 104, 62]

/-- The loop of both functions: the first row of the table with a name, or the row behind the table. -/
def index (name : Row) : ℕ :=
  ((List.range s.envArrayLength).find? fun i => decide (s.envKey i = name)).getD s.envArrayLength

/-- `getenv`. -/
def getenv (key : Row) : Row := if key = ps1Name then s.ps1 else s.envValue (s.index key)

/-- `setenv`. -/
def setenv (name value : Row) : Vars :=
  let i := s.index name
  if i < s.envArrayLength then { s with envValue := Function.update s.envValue i value }
  else { s with
    envKey := Function.update s.envKey (i + 1) name
    envValue := Function.update s.envValue (i + 1) value }

/-- The branch `export` of `command_handler`, or nothing where `split_and_count` writes behind `split_array`. -/
def exportVar (arg : Row) (junk : Row) : Option Vars :=
  let split := splitAndCount arg equals
  if 2 < split.length then none
  else
    let name := split.headD []
    let value := split.getD 1 junk
    let s := s.setenv name value
    some (if name = ps1Name then { s with ps1 := value } else s)

/-- `puts`. -/
def puts (x : Row) : Row := x ++ [blank, newline]

/-- `command_handler`, as far as the variables go: what it writes by `getenv`, and the tables. The other
commands do not touch the tables. -/
def commandHandler (commandArray : List Row) (junk : Row) : Option (Row × Vars) :=
  if commandArray.headD [] = exportWord then
    (s.exportVar (commandArray.getD 1 []) junk).map fun s => ([], s)
  else if commandArray.headD [] = getenvWord then some (puts (s.getenv (commandArray.getD 1 [])), s)
  else some ([], s)

/-- The loop of `main` for one line. -/
def line (input : Row) (junk : Row) : Option (Row × Vars) :=
  if input = [] then some ([], s) else s.commandHandler (splitAndCount input blank) junk

/-! ## Splitting -/

end Vars

/-- The characters of a word. -/
def Plain (delimiter : Byte) (w : Row) : Prop := ∀ c ∈ w, c ≠ delimiter ∧ c ≠ newline ∧ c ≠ blank

/-- A row is some characters `=`, a word, and the rest, which is empty or starts with `=`. -/
theorem exists_word (value : Row) : ∃ (a : ℕ) (w t : Row), value = List.replicate a equals ++ (w ++ t) ∧ equals ∉ w ∧
    (w = [] → t = []) ∧ (t = [] ∨ ∃ t', t = equals :: t') := by
  induction value with
  | nil => exact ⟨0, [], [], rfl, List.not_mem_nil, fun _ => rfl, .inl rfl⟩
  | cons c value ih =>
    obtain ⟨a, w, t, rfl, hw, hwt, ht⟩ := ih
    by_cases hc : c = equals
    · subst hc
      exact ⟨a + 1, w, t, rfl, hw, hwt, ht⟩
    · cases a with
      | zero =>
        refine ⟨0, c :: w, t, rfl, ?_, fun h => absurd h (List.cons_ne_nil c w), ht⟩
        rw [List.mem_cons, not_or]
        exact ⟨Ne.symm hc, hw⟩
      | succ a =>
        refine ⟨0, [c], List.replicate (a + 1) equals ++ (w ++ t), rfl, ?_, fun h => absurd h (List.cons_ne_nil c []),
          .inr ⟨_, rfl⟩⟩
        rw [List.mem_singleton]
        exact Ne.symm hc

/-- A character of a word is appended to the row. -/
theorem step_plain {delimiter c : Byte} {x : Split} (hd : c ≠ delimiter) (hn : c ≠ newline)
    (hb : c ≠ blank) (hfound : x.found = false) :
    x.step delimiter c = { x with row := x.row ++ [c], letter := true } := by
  simp [Split.step, hd, hn, hb, hfound]

/-- A word is appended to the row. -/
theorem foldl_plain {delimiter : Byte} : ∀ {w : Row} {x : Split}, Plain delimiter w → w ≠ [] →
    x.found = false →
    w.foldl (Split.step delimiter) x = { x with row := x.row ++ w, letter := true }
  | [], _, _, hne, _ => absurd rfl hne
  | [c], x, hw, _, hfound => by
    obtain ⟨hd, hn, hb⟩ := hw c (List.mem_singleton_self c)
    exact step_plain hd hn hb hfound
  | c :: c' :: w, x, hw, _, hfound => by
    obtain ⟨hd, hn, hb⟩ := hw c List.mem_cons_self
    have hrest := foldl_plain (x := ⟨x.rows, x.row ++ [c], x.found, true⟩)
      (fun a ha => hw a (List.mem_cons_of_mem c ha)) (List.cons_ne_nil c' w) hfound
    rw [List.foldl_cons, step_plain hd hn hb hfound, hrest, List.append_assoc]
    rfl

/-- Delimiters behind a word set `found_flag`. -/
theorem foldl_delimiters {delimiter : Byte} : ∀ (n : ℕ) {x : Split},
    x.letter = true → (List.replicate n delimiter).foldl (Split.step delimiter) x =
      { x with found := x.found || decide (n ≠ 0) }
  | 0, x, _ => by simp
  | n + 1, x, hletter => by
    have hsame : (if delimiter ≠ blank then { x with letter := true } else x) = x := by
      rw [← hletter, ite_id]
    have hstep : x.step delimiter delimiter = { x with found := true } := by
      unfold Split.step
      simp [hsame, hletter]
    rw [List.replicate_succ, List.foldl_cons, hstep, foldl_delimiters n (x := { x with found := true }) hletter]
    simp

/-- A word behind a delimiter is a row of its own. -/
theorem foldl_found {delimiter : Byte} {w : Row} {x : Split} (hw : Plain delimiter w) (hne : w ≠ [])
    (hfound : x.found = true) :
    w.foldl (Split.step delimiter) x = ⟨x.rows ++ [x.row], w, false, true⟩ := by
  obtain ⟨c, w, rfl⟩ := List.exists_cons_of_ne_nil hne
  obtain ⟨hd, hn, hb⟩ := hw c List.mem_cons_self
  have hfirst : x.step delimiter c = ⟨x.rows ++ [x.row], [c], false, true⟩ := by
    simp [Split.step, hd, hn, hb, hfound]
  rw [List.foldl_cons, hfirst]
  cases w with
  | nil => rfl
  | cons c' w => exact foldl_plain (fun a ha => hw a (List.mem_cons_of_mem c ha)) (List.cons_ne_nil c' w) rfl

/-- No row is ever taken back. -/
theorem length_rows_le {delimiter : Byte} (w : Row) (x : Split) :
    x.rows.length ≤ (w.foldl (Split.step delimiter) x).rows.length := by
  induction w generalizing x with
  | nil => exact le_rfl
  | cons c w ih =>
    refine le_trans ?_ (ih (x.step delimiter c))
    unfold Split.step
    dsimp only
    split_ifs <;> simp

/-- Two words with the delimiter between them are two rows. -/
theorem splitAndCount_two {delimiter : Byte} {w v : Row} (hw : Plain delimiter w)
    (hwne : w ≠ []) (hv : Plain delimiter v) (hvne : v ≠ []) :
    splitAndCount (w ++ delimiter :: v) delimiter = [w, v] := by
  have hdelim := @foldl_delimiters delimiter 1 ⟨[], w, false, true⟩ rfl
  have hsplit : w ++ delimiter :: v = w ++ (List.replicate 1 delimiter ++ v) := rfl
  rw [hsplit, splitAndCount, List.foldl_append, foldl_plain hw hwne rfl, List.nil_append, List.foldl_append, hdelim,
    foldl_found hv hvne rfl]
  rfl

/-- The value is one word, with any number of characters `=` in front of it and behind it, or has no other
characters. -/
def OneWord (value : Row) : Prop :=
  ∃ (a b : ℕ) (w : Row), value = List.replicate a equals ++ w ++ List.replicate b equals ∧ equals ∉ w

/-- The argument of `export` is split into two rows at most exactly if the value is one word. -/
theorem splitAndCount_export {name value : Row} (hname : Plain equals name) (hne : name ≠ [])
    (hvalue : Plain blank value) :
    (splitAndCount (name ++ equals :: value) equals).length ≤ 2 ↔ OneWord value := by
  have hplain : ∀ w : Row, w ⊆ value → equals ∉ w → Plain equals w := fun w hsub hw c hc =>
    ⟨fun h => hw (h ▸ hc), (hvalue c (hsub hc)).2⟩
  -- The state behind the first delimiters, and the number of rows.
  have hstart : ∀ a (u : Row), (splitAndCount (name ++ equals :: (List.replicate a equals ++ u)) equals).length =
      (u.foldl (Split.step equals) ⟨[], name, true, true⟩).rows.length + 1 := by
    intro a u
    have hdelims := @foldl_delimiters equals (a + 1) ⟨[], name, false, true⟩ rfl
    have happend : name ++ equals :: (List.replicate a equals ++ u) = name ++ (List.replicate (a + 1) equals ++ u) := rfl
    rw [happend, splitAndCount, List.foldl_append, List.foldl_append, foldl_plain hname hne rfl, List.nil_append,
      hdelims, List.length_append]
    rfl
  constructor
  · intro hle
    obtain ⟨a, w, t, rfl, hw, hwt, ht⟩ := exists_word value
    obtain ⟨b, w', t', rfl, hw', hwt', -⟩ := exists_word t
    by_cases hnil : w' = []
    · rw [hnil, hwt' hnil, List.append_nil, List.append_nil, ← List.append_assoc]
      exact ⟨a, b, w, rfl, hw⟩
    · -- There is a delimiter between the words, so that the second one is a third row.
      have hb : b ≠ 0 := by
        rintro rfl
        rcases ht with ht | ⟨t, ht⟩
        · exact hnil (List.append_eq_nil_iff.mp (List.append_eq_nil_iff.mp ht).2).1
        · obtain ⟨c, w', rfl⟩ := List.exists_cons_of_ne_nil hnil
          obtain rfl : c = equals := (List.cons.inj ht).1
          exact hw' List.mem_cons_self
      have hwnil : w ≠ [] := fun h =>
        hnil (List.append_eq_nil_iff.mp (List.append_eq_nil_iff.mp (hwt h)).2).1
      rw [hstart, List.foldl_append, foldl_found (hplain w (fun c hc => by simp [hc]) hw) hwnil rfl, List.foldl_append,
        foldl_delimiters b rfl, List.foldl_append,
        foldl_found (hplain w' (fun c hc => by simp [hc]) hw') hnil (by simp [hb])] at hle
      have hrows := @length_rows_le equals t' ⟨[] ++ [name] ++ [w], w', false, true⟩
      change 2 ≤ _ at hrows
      exact absurd (hrows.trans (Nat.le_of_succ_le_succ hle)) (by decide)
  · rintro ⟨a, b, w, rfl, hw⟩
    rw [List.append_assoc, hstart]
    by_cases hnil : w = []
    · rw [hnil, List.nil_append, foldl_delimiters b rfl]
      exact Nat.succ_le_succ (Nat.zero_le 1)
    · rw [List.foldl_append, foldl_found (hplain w (fun c hc => by simp [hc]) hw) hnil rfl, foldl_delimiters b rfl]
      exact le_rfl

namespace Vars

variable {s : Vars}

/-! ## The tables -/

/-- The table has no row that `getenv` looks at, and the row that it returns is empty. -/
structure Unset (s : Vars) : Prop where
  /-- The length. -/
  length : s.envArrayLength = 0
  /-- The first row. -/
  value : s.envValue 0 = []

theorem Unset.index (h : s.Unset) (name : Row) : s.index name = 0 := by
  rw [Vars.index, h.length]
  rfl

/-- `setenv` writes to the second row. -/
theorem Unset.setenv (h : s.Unset) (name value : Row) : (s.setenv name value).Unset := by
  have hnot : ¬ s.index name < s.envArrayLength := by rw [h.length]; exact Nat.not_lt_zero _
  have hkept : Function.update s.envValue 1 value 0 = [] := by
    rw [Function.update_of_ne Nat.zero_ne_one, h.value]
  rw [Vars.setenv, if_neg hnot, h.index]
  exact ⟨h.length, hkept⟩

/-- No line makes a variable. -/
theorem Unset.line (h : s.Unset) {input junk : Row} {r : Row × Vars} (hline : s.line input junk = some r) :
    r.2.Unset := by
  have hexport : ∀ arg s', s.exportVar arg junk = some s' → s'.Unset := by
    intro arg s' hs
    have hset := h.setenv ((splitAndCount arg equals).headD []) ((splitAndCount arg equals).getD 1 junk)
    unfold exportVar at hs
    dsimp only at hs
    split_ifs at hs
    · obtain rfl := Option.some.inj hs
      exact ⟨hset.length, hset.value⟩
    · obtain rfl := Option.some.inj hs
      exact hset
  unfold Vars.line commandHandler at hline
  split_ifs at hline
  · obtain rfl := Option.some.inj hline
    exact h
  · obtain ⟨s', hs', rfl⟩ := Option.map_eq_some_iff.mp hline
    exact hexport _ s' hs'
  · obtain rfl := Option.some.inj hline
    exact h
  · obtain rfl := Option.some.inj hline
    exact h

/-- `getenv` of a name other than `PS1` writes an empty string. -/
theorem Unset.getenv_line (h : s.Unset) {k : Row} (hk : Plain blank k) (hne : k ≠ [])
    (hps : k ≠ ps1Name) (junk : Row) : s.line (getenvWord ++ blank :: k) junk = some (puts [], s) := by
  have hsplit : splitAndCount (getenvWord ++ blank :: k) blank = [getenvWord, k] :=
    splitAndCount_two (by unfold Plain; decide) (by decide) hk hne
  have hword : getenvWord ≠ exportWord := by decide
  have hhandler : s.commandHandler [getenvWord, k] junk = some (puts (s.getenv k), s) := by
    rw [commandHandler, List.headD_cons, if_neg hword, if_pos rfl]
    rfl
  rw [Vars.line, if_neg (by simp [getenvWord]), hsplit, hhandler, getenv, if_neg hps, h.index, h.value]

end Vars

/-! ## Runs of `export` -/

/-- A command `export K=V`. -/
structure Export where
  /-- The name. -/
  name : Row
  /-- The value. -/
  value : Row
  /-- What the stack has where the value is read. -/
  junk : Row
  /-- The name is not empty. -/
  name_ne_nil : name ≠ []
  /-- The name is not `PS1`. -/
  name_ne_ps1 : name ≠ ps1Name
  /-- The name has no blank and no `=`. -/
  name_plain : Plain blank name ∧ equals ∉ name
  /-- The value is not empty. -/
  value_ne_nil : value ≠ []
  /-- The value has no blank. -/
  value_plain : Plain blank value
  /-- The name and the value fit in their rows. -/
  fits : name.length < 150 ∧ value.length < 150

/-- The line of the command. -/
def Export.input (e : Export) : Row := exportWord ++ blank :: (e.name ++ equals :: e.value)

/-- The value of the last command for a name, or the empty string. -/
def lastValue (es : List Export) (k : Row) : Row :=
  ((es.reverse.find? fun e => decide (e.name = k)).map Export.value).getD []

namespace Vars

/-- The tables after some commands. -/
def exports (s : Vars) (es : List Export) : Option Vars :=
  es.foldlM (fun s e => (s.line e.input e.junk).map Prod.snd) s

/-- What `getenv k` writes after some commands. -/
def shows (es : List Export) (k junk : Row) : Option Row :=
  (start.exports es).bind fun s => (s.line (getenvWord ++ blank :: k) junk).map Prod.fst

/-- The commands make the variable `k` a map: `getenv` shows the last value that was exported, and none of the commands
for another name changes what it shows. -/
def IsMap (es : List Export) (k junk : Row) : Prop :=
  shows es k junk = some (puts (lastValue es k)) ∧
    ∀ es' e, es' ++ [e] <+: es → e.name ≠ k → shows (es' ++ [e]) k junk = shows es' k junk

/-- A command comes back exactly if its value is one word. -/
theorem isSome_line_export (s : Vars) (e : Export) : (s.line e.input e.junk).isSome ↔ OneWord e.value := by
  have hname : Plain equals e.name := fun c hc =>
    ⟨fun h => e.name_plain.2 (h ▸ hc), (e.name_plain.1 c hc).2⟩
  have harg : Plain blank (e.name ++ equals :: e.value) := by
    intro c hc
    rcases List.mem_append.mp hc with hc | hc
    · exact e.name_plain.1 c hc
    · rcases List.mem_cons.mp hc with rfl | hc
      · decide
      · exact e.value_plain c hc
  have hsplit : splitAndCount e.input blank = [exportWord, e.name ++ equals :: e.value] :=
    splitAndCount_two (by unfold Plain; decide) (by decide) harg (by simp)
  have hline : s.line e.input e.junk = (s.exportVar (e.name ++ equals :: e.value) e.junk).map fun s => ([], s) := by
    rw [Vars.line, if_neg (by simp [Export.input, exportWord]), hsplit, commandHandler, List.headD_cons, if_pos rfl]
    rfl
  rw [hline, Option.isSome_map, ← splitAndCount_export hname e.name_ne_nil e.value_plain]
  unfold exportVar
  dsimp only
  by_cases hrows : 2 < (splitAndCount (e.name ++ equals :: e.value) equals).length
  · rw [if_pos hrows]
    exact iff_of_false Bool.false_ne_true (Nat.not_le.mpr hrows)
  · rw [if_neg hrows]
    exact iff_of_true rfl (Nat.not_lt.mp hrows)

/-- The commands come back exactly if all values are one word, and they make no variable. -/
theorem exports_iff (es : List Export) {s : Vars} (h : s.Unset) :
    ((s.exports es).isSome ↔ ∀ e ∈ es, OneWord e.value) ∧ ∀ t ∈ s.exports es, t.Unset := by
  induction es generalizing s with
  | nil => exact ⟨iff_of_true rfl fun e he => absurd he List.not_mem_nil, fun t ht => Option.some.inj ht ▸ h⟩
  | cons e es ih =>
    unfold exports at ih ⊢
    rw [List.foldlM_cons, List.forall_mem_cons, ← isSome_line_export s e]
    cases hline : s.line e.input e.junk with
    | none => exact ⟨iff_of_false Bool.false_ne_true fun h => Bool.false_ne_true h.1, fun t ht => nomatch ht⟩
    | some r =>
      obtain ⟨hiff, hunset⟩ := ih (h.line hline)
      exact ⟨hiff.trans (and_iff_right rfl).symm, hunset⟩

/-- A name is shown empty, whatever was exported, as long as no command leaves `split_array`. -/
theorem shows_eq (es : List Export) {k : Row} (hk : Plain blank k) (hne : k ≠ []) (hps : k ≠ ps1Name)
    (junk : Row) : shows es k junk = (start.exports es).map fun _ => puts [] := by
  obtain ⟨-, hunset⟩ := exports_iff es (s := start) ⟨rfl, rfl⟩
  unfold shows
  cases hs : start.exports es with
  | none => rfl
  | some s => rw [Option.bind_some, (hunset s hs).getenv_line hk hne hps]; rfl

theorem shows_eq_some (es : List Export) {k : Row} (hk : Plain blank k) (hne : k ≠ []) (hps : k ≠ ps1Name)
    (junk : Row) (hwords : ∀ e ∈ es, OneWord e.value) : shows es k junk = some (puts []) := by
  obtain ⟨s, hs⟩ := Option.isSome_iff_exists.mp ((exports_iff es (s := start) ⟨rfl, rfl⟩).1.mpr hwords)
  rw [shows_eq es hk hne hps, hs, Option.map_some]

/-- The last value is empty only where there is none. -/
theorem lastValue_eq_nil {es : List Export} {k : Row} : lastValue es k = [] ↔ k ∉ es.map Export.name := by
  rw [lastValue]
  cases hfind : es.reverse.find? fun e => decide (e.name = k) with
  | none =>
    refine iff_of_true rfl fun hmem => ?_
    obtain ⟨e, he, hname⟩ := List.mem_map.mp hmem
    exact List.find?_eq_none.mp hfind e (List.mem_reverse.mpr he) (decide_eq_true hname)
  | some e =>
    have hname : e.name = k := of_decide_eq_true (List.find?_some hfind :)
    have hmem : e ∈ es := List.mem_reverse.mp (List.mem_of_find?_eq_some hfind)
    exact iff_of_false e.value_ne_nil (not_not_intro (List.mem_map.mpr ⟨e, hmem, hname⟩))

/-- After any commands `export K=V`, `getenv` shows the last value of a name, and no command for another
name changes it, exactly if there was no command for the name and every value was one word. -/
theorem variables_iff (es : List Export) (k junk : Row) (hk : Plain blank k) (hne : k ≠ [])
    (hps : k ≠ ps1Name) :
    IsMap es k junk ↔ k ∉ es.map Export.name ∧ ∀ e ∈ es, OneWord e.value := by
  constructor
  · rintro ⟨hlast, -⟩
    rw [shows_eq es hk hne hps] at hlast
    obtain ⟨s, hs, hputs⟩ := Option.map_eq_some_iff.mp hlast
    have hall := (exports_iff es (s := start) ⟨rfl, rfl⟩).1.mp (by rw [hs]; rfl)
    rw [puts, puts, List.append_left_inj] at hputs
    exact ⟨lastValue_eq_nil.mp hputs.symm, hall⟩
  · rintro ⟨hnot, hall⟩
    refine ⟨?_, fun es' e hpre _ => ?_⟩
    · rw [lastValue_eq_nil.mpr hnot]
      exact shows_eq_some es hk hne hps junk hall
    · have hmem : ∀ x ∈ es' ++ [e], OneWord x.value := fun x hx => hall x (hpre.subset hx)
      rw [shows_eq_some _ hk hne hps junk hmem,
        shows_eq_some es' hk hne hps junk fun x hx => hmem x (List.mem_append_left _ hx)]

/-- The command `export A=B`. -/
def sampleExport : Export where
  name := [65]
  value := [66]
  junk := []
  name_ne_nil := by decide
  name_ne_ps1 := by decide
  name_plain := ⟨by unfold Plain; decide, by decide⟩
  value_ne_nil := by decide
  value_plain := by unfold Plain; decide
  fits := by decide

/-- `getenv C` after `export A=B`. -/
theorem variables_iff_other : shows [sampleExport] [67] [] = some (puts []) := by
  have hwords : ∀ e ∈ [sampleExport], OneWord e.value := fun e he => by
    obtain rfl := List.mem_singleton.mp he
    exact ⟨0, 0, [66], rfl, by decide⟩
  exact ((variables_iff [sampleExport] [67] [] (by unfold Plain; decide) (by decide) (by decide)).mpr
    ⟨by decide, hwords⟩).1

/-- `getenv A` after `export A=B` shows nothing. -/
theorem exported_not_shown : ¬ ∀ (es : List Export) (k junk : Row), Plain blank k → k ≠ [] →
    k ≠ ps1Name → IsMap es k junk := by
  intro hall
  have hshow := (hall [sampleExport] [65] [] (by unfold Plain; decide) (by decide) (by decide)).1
  revert hshow
  decide

end Vars

end Nascent.Shell
