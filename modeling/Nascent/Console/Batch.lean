import Nascent.Console.Model

/-!
# A string at once and character by character

`kprintf("%s", s)` prints a string with one call of `print_to_console`, and `write_to_console` with one
call for each character. The two differ where the one call should have scrolled again, and where a
control character makes its loop pass over the next character. They agree exactly where neither happens
(`Console.batch_iff`).
-/

namespace Nascent.Console

open Bytes (Byte)

variable {c : Console} {b : Byte} {s t : List Byte}

/-- A character other than `\n` and `\r`. -/
def Printable (b : Byte) : Prop := b ≠ lineFeed ∧ b ≠ carriageReturn

instance (b : Byte) : Decidable (Printable b) := inferInstanceAs (Decidable (_ ∧ _))

theorem putChar_of_printable (hb : Printable b) : c.putChar b =
    { c with
      video := Function.update c.video c.arrayPointer b
      arrayPointer := c.arrayPointer + 2
      stores := c.stores ++ [c.arrayPointer]
      taken := c.taken ++ [b] } := by
  rw [putChar, if_neg hb.1, if_neg hb.2]

/-- A control character is not stored. -/
theorem putChar_of_control (hb : ¬ Printable b) : (c.putChar b).stores = c.stores := by
  rw [putChar]
  split
  · rfl
  · split
    · rfl
    · exact absurd ⟨‹_›, ‹_›⟩ hb

/-- Each character that is not passed over is looked at. -/
theorem putChar_taken : (c.putChar b).taken = c.taken ++ [b] := by
  rw [putChar]
  split
  · rfl
  · split <;> rfl

/-! ## The loop -/

/-- The loop takes printable characters one by one. -/
theorem printLoop_append (ht : ∀ b ∈ t, Printable b) :
    printLoop (t ++ s) false c = printLoop s false (t.foldl putChar c) := by
  induction t generalizing c with
  | nil => rfl
  | cons b t ih =>
    obtain ⟨hb, ht⟩ := List.forall_mem_cons.mp ht
    have hflag : decide (b = lineFeed ∨ b = carriageReturn) = false :=
      decide_eq_false fun h => h.elim hb.1 hb.2
    rw [List.cons_append, printLoop, hflag, ih ht]
    rfl

/-- A last character of any kind is taken too. -/
theorem printLoop_concat (ht : ∀ b ∈ t, Printable b) :
    printLoop (t ++ [b]) false c = (t ++ [b]).foldl putChar c := by
  rw [printLoop_append ht, List.foldl_append]
  rfl

/-- The loop looks at no more than the characters of the buffer. -/
theorem length_taken_printLoop (s : List Byte) (skip : Bool) (c : Console) :
    (printLoop s skip c).taken.length ≤ c.taken.length + s.length := by
  induction s generalizing skip c with
  | nil => exact le_rfl
  | cons b s ih =>
    cases skip with
    | true => exact (ih false c).trans (by simp)
    | false =>
      refine (ih _ _).trans ?_
      rw [putChar_taken, List.length_append]
      simp only [List.length_cons, List.length_nil]
      omega

/-- The loop passes over a character behind a control character. -/
theorem length_taken_of_control (ht : ∀ b ∈ t, Printable b) (hb : ¬ Printable b) (b' : Byte) :
    (printLoop (t ++ b :: b' :: s) false c).taken.length <
      c.taken.length + (t ++ b :: b' :: s).length := by
  have hflag : decide (b = lineFeed ∨ b = carriageReturn) = true := by
    refine decide_eq_true ?_
    by_contra h
    exact hb (not_or.mp h)
  have htaken : (t.foldl putChar c).taken.length = c.taken.length + t.length := by
    clear ht
    induction t generalizing c with
    | nil => rfl
    | cons a t ih =>
      rw [List.foldl_cons, ih, putChar_taken, List.length_append, List.length_cons, List.length_cons]
      simp only [List.length_nil]
      omega
  rw [printLoop_append ht, printLoop, hflag, printLoop]
  refine (length_taken_printLoop s false _).trans_lt ?_
  rw [putChar_taken, List.length_append, htaken, List.length_append]
  simp only [List.length_cons, List.length_nil]
  omega

/-- A string that the loop does not pass over has control characters at its end only. -/
theorem printable_of_taken (h : (printLoop s false c).taken = c.taken ++ s) :
    s = [] ∨ ∃ t b, s = t ++ [b] ∧ ∀ a ∈ t, Printable a := by
  by_cases hall : ∀ a ∈ s, Printable a
  · rcases List.eq_nil_or_concat' s with rfl | ⟨t, b, rfl⟩
    · exact .inl rfl
    · exact .inr ⟨t, b, rfl, fun a ha => hall a (List.mem_append_left _ ha)⟩
  · -- The first control character is the last character.
    push Not at hall
    obtain ⟨a, ha, hnot⟩ := hall
    obtain ⟨b, t, s', hs, hb, ht⟩ : ∃ b t s', s = t ++ b :: s' ∧ ¬ Printable b ∧
        ∀ a ∈ t, Printable a := by
      have hfind : (s.find? fun b => decide (¬ Printable b)).isSome :=
        List.find?_isSome.mpr ⟨a, ha, decide_eq_true hnot⟩
      obtain ⟨b, hb⟩ := Option.isSome_iff_exists.mp hfind
      obtain ⟨hbad, t, s', hs, hbefore⟩ := List.find?_eq_some_iff_append.mp hb
      exact ⟨b, t, s', hs, of_decide_eq_true hbad, fun x hx => by simpa using hbefore x hx⟩
    subst hs
    cases s' with
    | nil => exact .inr ⟨t, b, rfl, ht⟩
    | cons b' s' =>
      have hlt := length_taken_of_control (c := c) (s := s') ht hb b'
      rw [h, List.length_append] at hlt
      exact absurd hlt (lt_irrefl _)

/-! ## The characters one after the other -/

theorem foldl_taken : (s.foldl putChar c).taken = c.taken ++ s := by
  induction s generalizing c with
  | nil => exact (List.append_nil _).symm
  | cons b s ih => rw [List.foldl_cons, ih, putChar_taken, List.append_assoc, List.singleton_append]

/-- Printable characters are stored one behind the other. -/
theorem foldl_printable (ht : ∀ b ∈ t, Printable b) :
    (t.foldl putChar c).arrayPointer = c.arrayPointer + 2 * t.length ∧
      (t.foldl putChar c).stores =
        c.stores ++ (List.range t.length).map (c.arrayPointer + 2 * ·) := by
  induction t using List.reverseRecOn with
  | nil => exact ⟨rfl, (List.append_nil _).symm⟩
  | append_singleton t b ih =>
    obtain ⟨hap, hstores⟩ := ih fun a ha => ht a (List.mem_append_left _ ha)
    have hb : Printable b := ht b (by simp)
    rw [List.foldl_append, List.foldl_cons, List.foldl_nil, putChar_of_printable hb]
    simp only [hap, hstores, List.length_append, List.length_cons, List.length_nil, List.range_succ,
      List.map_append, List.map_cons, List.map_nil, List.append_assoc]
    exact ⟨by omega, trivial⟩

theorem scroll_scroll : c.scroll.scroll = c.scroll := scroll_of_lt arrayPointer_scroll_lt

/-- The scrolling of `kprintf` at the start comes with the first character. -/
theorem writeToConsole_scroll (hne : s ≠ []) : c.scroll.writeToConsole s = c.writeToConsole s := by
  obtain ⟨b, bs, rfl⟩ := List.exists_cons_of_ne_nil hne
  rw [writeToConsole_cons, writeToConsole_cons, scroll_scroll]

theorem writeToConsole_append : c.writeToConsole (s ++ t) = (c.writeToConsole s).writeToConsole t :=
  List.foldl_append

/-- Printable characters that stay on the screen need no more scrolling. -/
theorem writeToConsole_printable (ht : ∀ b ∈ t, Printable b)
    (hfit : ∀ i < t.length, c.arrayPointer + 2 * i < screenEnd) :
    c.writeToConsole t = t.foldl putChar c := by
  induction t using List.reverseRecOn with
  | nil => rfl
  | append_singleton t b ih =>
    have ht' : ∀ a ∈ t, Printable a := fun a ha => ht a (List.mem_append_left _ ha)
    have hlen : (t ++ [b]).length = t.length + 1 := by simp
    have hlast : (t.foldl putChar c).arrayPointer < screenEnd := by
      rw [(foldl_printable ht').1]
      exact hfit _ (by omega)
    rw [writeToConsole_append, ih ht' fun i hi => hfit i (by omega), writeToConsole_cons,
      scroll_of_lt hlast, List.foldl_append]
    rfl

/-! ## The two ways -/

/-- `kprintf("%s", s)` does what `write_to_console` does, passes over no character, and stores no
character behind the screen. -/
structure Agrees (c : Console) (s : List Byte) : Prop where
  /-- The screen. -/
  video : (c.kprintf [37, 115] [s]).video = (c.writeToConsole s).video
  /-- The place of the next character. -/
  arrayPointer : (c.kprintf [37, 115] [s]).arrayPointer = (c.writeToConsole s).arrayPointer
  /-- The characters. -/
  taken : (c.kprintf [37, 115] [s]).taken = c.taken ++ s
  /-- The offsets. -/
  stores : ∃ new, (c.kprintf [37, 115] [s]).stores = c.stores ++ new ∧ ∀ o ∈ new, o < screenEnd

/-- Where the first character goes. -/
def firstPlace (arrayPointer : ℕ) : ℕ := if screenEnd ≤ arrayPointer then lastRow else arrayPointer

/-- The string has a control character at its end at most, and its last character is on the screen. The
empty string needs a cursor on the screen. -/
def FitsAtOnce (arrayPointer : ℕ) (s : List Byte) : Prop :=
  if s = [] then arrayPointer < screenEnd
  else (∀ b ∈ s.dropLast, Printable b) ∧ firstPlace arrayPointer + 2 * s.dropLast.length < screenEnd

theorem arrayPointer_scroll : c.scroll.arrayPointer = firstPlace c.arrayPointer := by
  rw [scroll, firstPlace]
  split <;> rfl

theorem scroll_ghosts : c.scroll.stores = c.stores ∧ c.scroll.taken = c.taken := by
  rw [scroll]
  split <;> exact ⟨rfl, rfl⟩

/-- The empty string. -/
theorem agrees_nil : c.Agrees [] ↔ c.arrayPointer < screenEnd := by
  have hbatch : c.kprintf [37, 115] [[]] = c.scroll := by
    rw [kprintf_string, printToConsole, printLoop]
  constructor
  · intro h
    by_contra hle
    have hap : c.scroll.arrayPointer = c.arrayPointer := hbatch ▸ h.arrayPointer
    exact hle (hap ▸ arrayPointer_scroll_lt)
  · intro hlt
    rw [scroll_of_lt hlt] at hbatch
    exact ⟨by rw [hbatch]; rfl, by rw [hbatch]; rfl, by rw [hbatch, List.append_nil],
      [], by rw [hbatch, List.append_nil], fun o ho => absurd ho List.not_mem_nil⟩

/-- A string whose last character is on the screen. -/
theorem agrees_of_fits (ht : ∀ a ∈ t, Printable a)
    (hfit : c.scroll.arrayPointer + 2 * t.length < screenEnd) : c.Agrees (t ++ [b]) := by
  have hbatch : c.kprintf [37, 115] [t ++ [b]] = (t ++ [b]).foldl putChar c.scroll := by
    rw [kprintf_string, printToConsole, printLoop_concat ht]
  obtain ⟨hap, hstores⟩ := foldl_printable (c := c.scroll) ht
  have hsingle : c.writeToConsole (t ++ [b]) = (t ++ [b]).foldl putChar c.scroll := by
    rw [← writeToConsole_scroll (by simp), writeToConsole_append,
      writeToConsole_printable ht fun i hi => by omega, writeToConsole_cons,
      scroll_of_lt (by rw [hap]; exact hfit), List.foldl_append]
    rfl
  refine ⟨by rw [hbatch, hsingle], by rw [hbatch, hsingle], ?_, ?_⟩
  · rw [hbatch, foldl_taken, scroll_ghosts.2]
  · rw [hbatch, List.foldl_append, List.foldl_cons, List.foldl_nil]
    by_cases hb : Printable b
    · refine ⟨(List.range t.length).map (c.scroll.arrayPointer + 2 * ·) ++
        [c.scroll.arrayPointer + 2 * t.length], ?_, fun o ho => ?_⟩
      · rw [scroll_ghosts.1] at hstores
        rw [putChar_of_printable hb, ← List.append_assoc, ← hstores, ← hap]
      · rcases List.mem_append.mp ho with ho | ho
        · obtain ⟨i, hi, rfl⟩ := List.mem_map.mp ho
          have hi := List.mem_range.mp hi
          omega
        · rwa [List.mem_singleton.mp ho]
    · refine ⟨(List.range t.length).map (c.scroll.arrayPointer + 2 * ·), ?_, fun o ho => ?_⟩
      · rw [putChar_of_control hb, hstores, scroll_ghosts.1]
      · obtain ⟨i, hi, rfl⟩ := List.mem_map.mp ho
        have hi := List.mem_range.mp hi
        omega

/-- A control character behind the screen leads to different places. -/
theorem arrayPointer_control (hb : ¬ Printable b) (hle : screenEnd ≤ c.arrayPointer) :
    (c.putChar b).arrayPointer ≠ (c.scroll.putChar b).arrayPointer := by
  rw [screenEnd] at hle
  rw [scroll_of_le hle, putChar, putChar]
  split
  · have hdiv : 24 ≤ c.arrayPointer / 160 := by omega
    simp only [lastRow]
    omega
  · split
    · have hdiv : 24 ≤ c.arrayPointer / 160 := by omega
      simp only [lastRow]
      omega
    · exact absurd ⟨‹_›, ‹_›⟩ hb

/-- The last character of a string that is printed right is on the screen. -/
theorem fits_of_agrees (ht : ∀ a ∈ t, Printable a) (h : c.Agrees (t ++ [b])) :
    c.scroll.arrayPointer + 2 * t.length < screenEnd := by
  have hbatch : c.kprintf [37, 115] [t ++ [b]] = (t.foldl putChar c.scroll).putChar b := by
    rw [kprintf_string, printToConsole, printLoop_concat ht, List.foldl_append]
    rfl
  obtain ⟨hap, hstores⟩ := foldl_printable (c := c.scroll) ht
  obtain ⟨new, hnew, hlt⟩ := h.stores
  rw [hbatch] at hnew
  by_cases hb : Printable b
  · -- The character is stored at the place in question.
    have hlast : c.stores ++ new = (t.foldl putChar c.scroll).stores ++
        [c.scroll.arrayPointer + 2 * t.length] := by
      rw [← hnew, putChar_of_printable hb, ← hap]
    rw [hstores, scroll_ghosts.1, List.append_assoc] at hlast
    rw [List.append_cancel_left hlast] at hlt
    exact hlt _ (by simp)
  · -- The other characters are on the screen, so `write_to_console` scrolls before the last one.
    rw [putChar_of_control hb, hstores, scroll_ghosts.1] at hnew
    rw [← List.append_cancel_left hnew] at hlt
    have hbefore : ∀ i < t.length, c.scroll.arrayPointer + 2 * i < screenEnd := fun i hi =>
      hlt _ (List.mem_map.mpr ⟨i, List.mem_range.mpr hi, rfl⟩)
    by_contra hle
    have hsingle : c.writeToConsole (t ++ [b]) = (t.foldl putChar c.scroll).scroll.putChar b := by
      rw [← writeToConsole_scroll (by simp), writeToConsole_append,
        writeToConsole_printable ht hbefore, writeToConsole_cons]
      rfl
    have hsame := h.arrayPointer
    rw [hbatch, hsingle] at hsame
    exact arrayPointer_control hb (by rw [hap]; exact Nat.not_lt.mp hle) hsame

/-- From every place of the cursor, `kprintf` of a string agrees with `write_to_console` of its
characters, passes over none of them, and stores none of them behind the screen, if and only if the
string has no control character before its last character and its last character is on the screen. -/
theorem batch_iff (c : Console) (s : List Byte) : c.Agrees s ↔ FitsAtOnce c.arrayPointer s := by
  rw [FitsAtOnce, ← arrayPointer_scroll]
  rcases List.eq_nil_or_concat' s with rfl | ⟨t, b, rfl⟩
  · rw [if_pos rfl, agrees_nil]
  · rw [if_neg (by simp), List.dropLast_concat]
    refine ⟨fun h => ?_, fun h => agrees_of_fits h.1 h.2⟩
    have htaken := h.taken
    rw [kprintf_string, printToConsole, ← scroll_ghosts (c := c).2] at htaken
    rcases printable_of_taken htaken with hnil | ⟨t', b', heq, ht⟩
    · exact absurd hnil (List.append_ne_nil_of_right_ne_nil t (List.cons_ne_nil b []))
    · obtain ⟨rfl, -⟩ := List.append_inj' heq rfl
      exact ⟨ht, fits_of_agrees ht h⟩

/-- Two lines at once: the character behind the first newline is lost. -/
theorem newline_drops_character : ¬ ∀ (c : Console) (s : List Byte), c.arrayPointer ≤ screenEnd →
    0 ∉ s → s.length < 20480 → c.Agrees s := by
  intro hall
  have h := (hall ⟨fun _ => space, 0, [], []⟩ [97, 10, 98] (Nat.zero_le _) (by decide)
    (by decide)).arrayPointer
  revert h
  decide

end Nascent.Console
