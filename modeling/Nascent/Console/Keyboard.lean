import Mathlib.Data.Int.Order.Basic
import Nascent.Console.Terminal

/-!
# The keyboard

`keyboard_intr` of `src/sys/keyboard_intr.c`, with `terminal_handler` and `dec_term` of `src/sys/terminal.c`
and what `print_key` of `src/sys/kprintf.c` does to the terminal. Control-h erases: `print_key` calls
`dec_term` where the cursor is not at the start of the screen, and `dec_term` moves the writer down by two,
past the `h` and the character before it. Nothing looks at the place of the writer. On an empty line it moves
to -1, where the next character is stored (`erase_on_empty_line`).

So the place of the writer and the cursor are integers here, and the array is a function of integers. The
fields `touched` and `filled` are not in the source and nothing depends on them: they have the places of
`term_buff` that are read or written, and the places of the caller's buffer that `read_buffer` writes. Where
the place of the writer is not negative, the functions are those of `Terminal` (`toTerminal_terminalHandler`
and `toTerminal_readBuffer`).
-/

namespace Nascent

open Bytes (Byte)
open Runs

/-- The terminal, with the flags of `keyboard_intr`. -/
structure Tty where
  /-- `term_buff`, and the bytes around it. -/
  termBuff : ℤ → Byte
  /-- `r_buff_ptr`. -/
  rBuffPtr : ℕ
  /-- `w_buff_ptr`. -/
  wBuffPtr : ℤ
  /-- `terminal_line_count`. -/
  terminalLineCount : ℕ
  /-- `array_pointer`, the cursor. -/
  arrayPointer : ℤ
  /-- `shift_flag`. -/
  shiftFlag : Bool
  /-- `control_flag`. -/
  controlFlag : Bool
  /-- The places of `term_buff` so far. -/
  touched : List ℤ
  /-- The places of the caller's buffer so far. -/
  filled : List ℕ

namespace Tty

variable (t : Tty)

/-- `term_buff[i] = c`. -/
def store (i : ℤ) (c : Byte) : Tty :=
  { t with termBuff := Function.update t.termBuff i c, touched := t.touched ++ [i] }

/-- The cursor after `kprintf("%c", c)`. -/
def echo (p : ℤ) (c : Byte) : ℤ :=
  let p : ℤ := if screenEnd ≤ p then lastRow else p
  if c = lineFeed then 160 * (p.tdiv 160 + 1)
  else if c = carriageReturn then 160 * p.tdiv 160
  else p + 2

/-- `terminal_handler`, but for the call of `wake_up_task`. -/
def terminalHandler (c : Byte) : Tty :=
  let t := if c = lineFeed then { t with terminalLineCount := t.terminalLineCount + 1 } else t
  let t := { t with arrayPointer := echo t.arrayPointer c }
  let t := if t.wBuffPtr > (buffSize : ℤ) - 2 then { t with wBuffPtr := t.wBuffPtr.tmod buffSize } else t
  if c ≠ carriageReturn then { t.store t.wBuffPtr c with wBuffPtr := t.wBuffPtr + 1 } else t

/-- `dec_term`. -/
def decTerm : Tty :=
  let t := t.store t.wBuffPtr 0
  let t := { t with wBuffPtr := t.wBuffPtr - 1 }
  let t := t.store t.wBuffPtr 0
  { t with wBuffPtr := t.wBuffPtr - 1 }

/-- `print_key`, but for what it writes to the video memory. -/
def printKey (shiftFlag : Bool) (c : Byte) : Tty :=
  let t :=
    if c = 14 then
      if t.arrayPointer > 0 then decTerm { t with arrayPointer := t.arrayPointer - 2 } else t
    else t
  if shiftFlag then
    if c = 104 then
      if t.arrayPointer > 0 then
        let t := decTerm { t with arrayPointer := t.arrayPointer - 2 }
        { t with arrayPointer := t.arrayPointer - 2 }
      else t
    else t
  else t

/-- `asciicodes`. -/
def asciicodes : List (Byte × Byte) :=
  [(0, 0), (69, 69), (49, 33), (50, 64), (51, 35), (52, 36), (53, 37), (54, 94), (55, 38), (56, 42), (57, 40),
    (48, 41), (45, 95), (61, 43), (8, 8), (9, 9), (113, 81), (119, 87), (101, 69), (114, 82), (116, 84),
    (121, 89), (117, 85), (105, 73), (111, 79), (112, 80), (91, 123), (93, 125), (13, 13), (0, 0), (97, 65),
    (115, 83), (100, 68), (102, 70), (103, 71), (104, 72), (106, 74), (107, 75), (108, 76), (59, 58), (39, 34),
    (96, 126), (0, 0), (92, 124), (122, 90), (120, 88), (99, 67), (118, 86), (98, 66), (110, 78), (109, 77),
    (44, 60), (46, 62), (47, 63), (0, 0), (0, 0), (0, 0), (32, 32)]

/-- What `keyboard_intr` does for a character of the table. -/
def key (c : Byte) : Tty :=
  let controlFlag := t.controlFlag
  let t := (t.terminalHandler c).printKey controlFlag c
  { t with controlFlag := false }

/-- `keyboard_intr`, for the value that `inb` returns. There is no result where the index is behind the
table. -/
def keyboardIntr (keyboardValue : ℕ) : Option Tty :=
  let t := if keyboardValue = 28 then t.terminalHandler lineFeed else t
  if keyboardValue = 29 then some { t with controlFlag := true }
  else if keyboardValue = 42 then some { t with shiftFlag := true }
  else if keyboardValue < 60 then
    asciicodes[keyboardValue]?.map fun codes =>
      if t.shiftFlag then key { t with shiftFlag := false } codes.2 else t.key codes.1
  else some t

/-- The loop of `read_buffer`, for the number of characters that the buffer still has room for: the index
`i` where it stops, the buffer, and the terminal. -/
def readLoop : ℕ → ℕ → (ℕ → Byte) → Tty → ℕ × (ℕ → Byte) × Tty
  | 0, i, buffer, t => (i, buffer, { t with touched := t.touched ++ [(t.rBuffPtr : ℤ)] })
  | n + 1, i, buffer, t =>
    let c := t.termBuff t.rBuffPtr
    let t := { t with touched := t.touched ++ [(t.rBuffPtr : ℤ)] }
    if c = lineFeed then (i, buffer, t)
    else readLoop n (i + 1) (Function.update buffer i c)
      { t with rBuffPtr := (t.rBuffPtr + 1) % buffSize, filled := t.filled ++ [i] }

/-- `read_buffer`, with a buffer of a size that is not 0. -/
def readBuffer (buffer : ℕ → Byte) (size : ℕ) : ℕ × (ℕ → Byte) × Tty :=
  if t.terminalLineCount ≠ 0 then
    let (i, buffer, t) := readLoop (size - 1) 0 buffer t
    (0, Function.update buffer (i + 1) 0,
      { t with
        rBuffPtr := t.rBuffPtr + 1
        terminalLineCount := t.terminalLineCount - 1
        filled := t.filled ++ [i + 1] })
  else (1, buffer, t)

/-- The terminal without the keyboard, where the place of the writer is not negative. -/
def toTerminal : Terminal := ⟨fun i => t.termBuff i, t.rBuffPtr, t.wBuffPtr.toNat, t.terminalLineCount⟩

/-- A place of the writer, wrapped. -/
def wrap (w : ℤ) : ℤ := if w > (buffSize : ℤ) - 2 then w.tmod buffSize else w

variable {t}

/-! ## Each function -/

/-- The wrapped place is in the ring if and only if the place is not negative. -/
theorem wrap_lt {w : ℤ} : wrap w < buffSize := by
  unfold wrap buffSize
  split_ifs with h
  · exact Int.tmod_lt_of_pos _ (by decide)
  · omega

theorem wrap_nonneg {w : ℤ} : 0 ≤ wrap w ↔ 0 ≤ w := by
  unfold wrap
  split_ifs with h
  · have hpos : 0 ≤ w := by
      unfold buffSize at h
      omega
    exact iff_of_true (Int.tmod_nonneg _ hpos) hpos
  · exact Iff.rfl

/-- `\r` is not stored. -/
theorem terminalHandler_return : t.terminalHandler carriageReturn =
    { t with wBuffPtr := wrap t.wBuffPtr, arrayPointer := echo t.arrayPointer carriageReturn } := by
  have hfeed : carriageReturn ≠ lineFeed := by decide
  simp only [terminalHandler, if_neg hfeed, ne_eq, not_true_eq_false, if_false, wrap]
  split <;> rfl

/-- Other characters are stored. -/
theorem terminalHandler_store {c : Byte} (hc : c ≠ carriageReturn) : t.terminalHandler c =
    { t with
      termBuff := Function.update t.termBuff (wrap t.wBuffPtr) c
      wBuffPtr := wrap t.wBuffPtr + 1
      terminalLineCount := t.terminalLineCount + if c = lineFeed then 1 else 0
      arrayPointer := echo t.arrayPointer c
      touched := t.touched ++ [wrap t.wBuffPtr] } := by
  simp only [terminalHandler, store, ne_eq, hc, not_false_eq_true, if_true, wrap]
  by_cases hfeed : c = lineFeed
  · simp only [if_pos hfeed]
    split <;> rfl
  · simp only [if_neg hfeed]
    split <;> rfl

/-- What `dec_term` touches, and where it leaves the writer. -/
theorem decTerm_touched : t.decTerm.touched = t.touched ++ [t.wBuffPtr, t.wBuffPtr - 1] :=
  List.append_assoc ..

theorem decTerm_wBuffPtr : t.decTerm.wBuffPtr = t.wBuffPtr - 2 := by
  change t.wBuffPtr - 1 - 1 = _
  omega

/-- The cursor is behind the start of the screen after the echo of `h`, unless it was before it. -/
theorem echo_pos_iff {p : ℤ} : 0 < echo p 104 ↔ -2 < p := by
  have hfeed : (104 : Byte) ≠ lineFeed := by decide
  have hreturn : (104 : Byte) ≠ carriageReturn := by decide
  unfold echo
  dsimp only
  rw [if_neg hfeed, if_neg hreturn]
  unfold screenEnd lastRow
  split_ifs <;> omega

/-- `print_key` moves the writer for control-h only. -/
theorem printKey_eq {shiftFlag : Bool} {c : Byte} (hc : c ≠ 14)
    (h : ¬ (shiftFlag = true ∧ c = 104 ∧ 0 < t.arrayPointer)) : t.printKey shiftFlag c = t := by
  unfold printKey
  dsimp only
  rw [if_neg hc]
  by_cases hshift : shiftFlag = true
  · rw [if_pos hshift]
    by_cases hh : c = 104
    · rw [if_pos hh, if_neg fun hpos => h ⟨hshift, hh, hpos⟩]
    · rw [if_neg hh]
  · rw [if_neg hshift]

theorem printKey_erase (h : 0 < t.arrayPointer) : t.printKey true 104 =
    { decTerm { t with arrayPointer := t.arrayPointer - 2 } with arrayPointer := t.arrayPointer - 4 } := by
  have hc : (104 : Byte) ≠ 14 := by decide
  unfold printKey
  dsimp only
  rw [if_neg hc, if_pos rfl, if_pos rfl, if_pos h]
  change ({ decTerm _ with arrayPointer := t.arrayPointer - 2 - 2 } : Tty) = _
  rw [show t.arrayPointer - 2 - 2 = t.arrayPointer - 4 by omega]

/-- The key of the character `c` erases: `control_flag` is set, and the cursor is not before the screen. -/
def Erases (t : Tty) (c : Byte) : Prop := t.controlFlag = true ∧ c = 104 ∧ -2 < t.arrayPointer

instance (t : Tty) (c : Byte) : Decidable (t.Erases c) := inferInstanceAs (Decidable (_ ∧ _))

/-- What a key touches, and where it leaves the writer. -/
theorem key_touched {c : Byte} (hc : c ≠ carriageReturn) (h14 : c ≠ 14) :
    (t.key c).touched = t.touched ++
      wrap t.wBuffPtr :: (if t.Erases c then [wrap t.wBuffPtr + 1, wrap t.wBuffPtr] else []) ∧
    (t.key c).wBuffPtr = if t.Erases c then wrap t.wBuffPtr - 1 else wrap t.wBuffPtr + 1 := by
  have hstore := terminalHandler_store (t := t) hc
  by_cases h : t.Erases c
  · obtain ⟨hcontrol, rfl, hpos⟩ := id h
    have hpos : 0 < (t.terminalHandler 104).arrayPointer := by
      rw [hstore]
      exact echo_pos_iff.mpr hpos
    have hkey : t.key 104 = { (t.terminalHandler 104).printKey true 104 with controlFlag := false } := by
      rw [key, hcontrol]
    rw [if_pos h, if_pos h, hkey, printKey_erase hpos]
    dsimp only
    rw [decTerm_touched, decTerm_wBuffPtr, hstore]
    dsimp only
    rw [List.append_assoc, add_sub_cancel_right]
    exact ⟨rfl, by omega⟩
  · have hkey : t.key c = { t.terminalHandler c with controlFlag := false } := by
      unfold key
      dsimp only
      rw [printKey_eq h14]
      rintro ⟨hcontrol, rfl, hpos⟩
      rw [hstore] at hpos
      exact h ⟨hcontrol, rfl, echo_pos_iff.mp hpos⟩
    rw [if_neg h, if_neg h, hkey, hstore]
    exact ⟨rfl, rfl⟩

theorem key_return : (t.key carriageReturn).touched = t.touched ∧
    (t.key carriageReturn).wBuffPtr = wrap t.wBuffPtr := by
  have hkey : t.key carriageReturn = { t.terminalHandler carriageReturn with controlFlag := false } := by
    unfold key
    dsimp only
    rw [printKey_eq (by decide) fun h => absurd h.2.1 (by decide)]
  rw [hkey, terminalHandler_return]
  exact ⟨rfl, rfl⟩

/-- The characters of the table: none is 14, only the key 28 gives `\r`, and only the key 35 gives `h`. -/
theorem asciicodes_facts {value : ℕ} {codes : Byte × Byte} (h : asciicodes[value]? = some codes) :
    codes.1 ≠ 14 ∧ codes.2 ≠ 14 ∧ (codes.1 = carriageReturn ↔ value = 28) ∧
      (codes.2 = carriageReturn ↔ value = 28) ∧ (codes.1 = 104 ↔ value = 35) ∧ codes.2 ≠ 104 := by
  have hall : ∀ x ∈ asciicodes.zipIdx,
      x.1.1 ≠ 14 ∧ x.1.2 ≠ 14 ∧ (x.1.1 = carriageReturn ↔ x.2 = 28) ∧
        (x.1.2 = carriageReturn ↔ x.2 = 28) ∧ (x.1.1 = 104 ↔ x.2 = 35) ∧ x.1.2 ≠ 104 := by
    decide
  exact hall (codes, value) (List.mk_mem_zipIdx_iff_getElem?.mpr h)

/-- A value for which `keyboard_intr` stores a character. -/
def Stores (value : ℕ) : Prop := value ≠ 29 ∧ value ≠ 42 ∧ value < 58

instance (value : ℕ) : Decidable (Stores value) := inferInstanceAs (Decidable (_ ∧ _))

/-- A value for which `keyboard_intr` erases. -/
def ErasesAt (t : Tty) (value : ℕ) : Prop :=
  value = 35 ∧ t.shiftFlag = false ∧ t.controlFlag = true ∧ -2 < t.arrayPointer

/-- What `keyboard_intr` touches, and where it leaves the writer. -/
theorem keyboardIntr_cases {value : ℕ} {t' : Tty} (h : t.keyboardIntr value = some t') :
    (¬ Stores value ∧ t'.touched = t.touched ∧ t'.wBuffPtr = t.wBuffPtr) ∨
    (Stores value ∧ t.ErasesAt value ∧ t'.wBuffPtr = wrap t.wBuffPtr - 1 ∧
      t'.touched = t.touched ++ [wrap t.wBuffPtr, wrap t.wBuffPtr + 1, wrap t.wBuffPtr]) ∨
    (Stores value ∧ ¬ t.ErasesAt value ∧ t'.touched = t.touched ++ [wrap t.wBuffPtr] ∧
      t'.wBuffPtr = if value = 28 then wrap (wrap t.wBuffPtr + 1) else wrap t.wBuffPtr + 1) := by
  unfold keyboardIntr at h
  dsimp only at h
  by_cases henter : value = 28
  · -- Enter stores `\n`, and then `\r` is not stored.
    subst henter
    rw [if_pos rfl, if_neg (by decide), if_neg (by decide), if_pos (by decide)] at h
    have hstore := terminalHandler_store (t := t) (c := lineFeed) (by decide)
    generalize t.terminalHandler lineFeed = t₁ at h hstore
    obtain ⟨codes, hcodes, rfl⟩ := Option.map_eq_some_iff.mp h
    obtain ⟨-, -, hfirst, hsecond, -⟩ := asciicodes_facts hcodes
    refine .inr (.inr ⟨by decide, fun h => absurd h.1 (by decide), ?_⟩)
    rw [if_pos rfl, hfirst.mpr rfl, hsecond.mpr rfl]
    split_ifs
    · obtain ⟨htouched, hw⟩ := key_return (t := { t₁ with shiftFlag := false })
      rw [htouched, hw, hstore]
      exact ⟨rfl, rfl⟩
    · obtain ⟨htouched, hw⟩ := key_return (t := t₁)
      rw [htouched, hw, hstore]
      exact ⟨rfl, rfl⟩
  · rw [if_neg henter] at h
    split_ifs at h with hcontrol hshift hlt hflag
    · obtain rfl := Option.some.inj h
      exact .inl ⟨fun h => h.1 hcontrol, rfl, rfl⟩
    · obtain rfl := Option.some.inj h
      exact .inl ⟨fun h => h.2.1 hshift, rfl, rfl⟩
    · -- With shift, the character is not `h`.
      obtain ⟨codes, hcodes, rfl⟩ := Option.map_eq_some_iff.mp h
      obtain ⟨-, h14, -, hreturn, -, hh⟩ := asciicodes_facts hcodes
      have hlt := (List.getElem?_eq_some_iff.mp hcodes).choose
      have hnot : ¬ Erases { t with shiftFlag := false } codes.2 := fun h => hh h.2.1
      obtain ⟨htouched, hw⟩ := key_touched (t := { t with shiftFlag := false }) (mt hreturn.mp henter) h14
      rw [if_neg hnot] at htouched hw
      refine .inr (.inr ⟨⟨hcontrol, hshift, hlt⟩, fun h => ?_, htouched, ?_⟩)
      · rw [h.2.1] at hflag
        exact Bool.false_ne_true hflag
      · rw [if_neg henter]
        exact hw
    · obtain ⟨codes, hcodes, rfl⟩ := Option.map_eq_some_iff.mp h
      obtain ⟨h14, -, hreturn, -, hh, -⟩ := asciicodes_facts hcodes
      have hlt := (List.getElem?_eq_some_iff.mp hcodes).choose
      obtain ⟨htouched, hw⟩ := key_touched (t := t) (mt hreturn.mp henter) h14
      have hflag := Bool.eq_false_of_not_eq_true hflag
      by_cases herase : t.Erases codes.1
      · rw [if_pos herase] at htouched hw
        obtain ⟨hcontrol', hc, hpos⟩ := herase
        exact .inr (.inl ⟨⟨hcontrol, hshift, hlt⟩, ⟨hh.mp hc, hflag, hcontrol', hpos⟩, hw, htouched⟩)
      · rw [if_neg herase] at htouched hw
        refine .inr (.inr ⟨⟨hcontrol, hshift, hlt⟩, fun h => ?_, htouched, ?_⟩)
        · exact herase ⟨h.2.2.1, hh.mpr h.1, h.2.2.2⟩
        · rw [if_neg henter]
          exact hw
    · obtain rfl := Option.some.inj h
      exact .inl ⟨fun h => hlt (Nat.lt_add_right 2 h.2.2), rfl, rfl⟩

theorem exists_keyboardIntr {value : ℕ} (h : Stores value) : ∃ t', t.keyboardIntr value = some t' := by
  obtain ⟨hcontrol, hshift, hlt⟩ := h
  have hcodes : asciicodes[value]? = some (asciicodes.get ⟨value, hlt⟩) := List.getElem?_eq_getElem hlt
  unfold keyboardIntr
  dsimp only
  rw [if_neg hcontrol, if_neg hshift, if_pos (Nat.lt_add_right 2 hlt), hcodes, Option.map_some]
  exact ⟨_, rfl⟩

/-- The place that the loop of `read_buffer` looks at for the character `j` of a line. -/
def place (r j : ℕ) : ℕ := if j = 0 then r else (r + j) % buffSize

theorem place_succ {r j : ℕ} : place ((r + 1) % buffSize) j = place r (j + 1) := by
  unfold place
  rw [if_neg (Nat.succ_ne_zero j)]
  split_ifs with h
  · rw [h]
  · rw [Nat.mod_add_mod, Nat.add_assoc, Nat.add_comm 1]

theorem place_of_lt {r j : ℕ} (hr : r < buffSize) : place r j = (r + j) % buffSize := by
  unfold place
  split_ifs with h
  · rw [h, Nat.add_zero, Nat.mod_eq_of_lt hr]
  · rfl

/-- The loop looks at the places from the reader on, and stops at a newline or where the buffer is full. -/
theorem readLoop_touched : ∀ (n i : ℕ) (buffer : ℕ → Byte) (t : Tty), ∃ k ≤ n,
    (readLoop n i buffer t).1 = i + k ∧ (readLoop n i buffer t).2.2.wBuffPtr = t.wBuffPtr ∧
    (readLoop n i buffer t).2.2.touched =
      t.touched ++ (List.range (k + 1)).map (fun j => (place t.rBuffPtr j : ℤ)) ∧
    (readLoop n i buffer t).2.2.filled = t.filled ++ (List.range k).map (i + ·) ∧
    (k < n → t.termBuff (place t.rBuffPtr k) = lineFeed) ∧
    ∀ j < k, t.termBuff (place t.rBuffPtr j) ≠ lineFeed
  | 0, i, buffer, t => by
    refine ⟨0, le_rfl, rfl, rfl, rfl, (List.append_nil _).symm, fun h => absurd h (Nat.lt_irrefl 0), fun j hj => ?_⟩
    exact absurd hj (Nat.not_lt_zero j)
  | n + 1, i, buffer, t => by
    by_cases hc : t.termBuff t.rBuffPtr = lineFeed
    · refine ⟨0, Nat.zero_le _, ?_⟩
      rw [readLoop]
      dsimp only
      rw [if_pos hc]
      refine ⟨rfl, rfl, rfl, (List.append_nil _).symm, fun _ => hc, fun j hj => absurd hj (Nat.not_lt_zero j)⟩
    · obtain ⟨k, hk, hi, hw, htouched, hfilled, hstop, hgo⟩ := readLoop_touched n (i + 1)
        (Function.update buffer i (t.termBuff t.rBuffPtr))
        { t with
          touched := t.touched ++ [(t.rBuffPtr : ℤ)]
          rBuffPtr := (t.rBuffPtr + 1) % buffSize
          filled := t.filled ++ [i] }
      refine ⟨k + 1, Nat.succ_le_succ hk, ?_⟩
      rw [readLoop]
      dsimp only
      rw [if_neg hc, hi, hw, htouched, hfilled]
      dsimp only at hstop hgo ⊢
      simp only [place_succ] at hstop hgo ⊢
      refine ⟨by omega, trivial, ?_, ?_, fun h => hstop (Nat.lt_of_succ_lt_succ h), fun j hj => ?_⟩
      · rw [List.range_succ_eq_map (n := k + 1), List.map_cons, List.map_map, List.append_assoc]
        rfl
      · rw [List.range_succ_eq_map, List.map_cons, List.map_map, List.append_assoc, Nat.add_zero]
        refine congrArg (t.filled ++ i :: ·) (List.map_congr_left fun j _ => ?_)
        change i + 1 + j = i + (j + 1)
        omega
      · cases j with
        | zero => exact hc
        | succ j => exact hgo j (Nat.lt_of_succ_lt_succ hj)

/-! ## The terminal without the keyboard -/

/-- The cursor moves as by `kprintf`, where it is not negative. -/
theorem echo_eq_kprintf {n : ℕ} {b : Byte} {c : Console} (h : c.arrayPointer = n) :
    echo n b = (c.kprintf [37, 99] [[b]]).arrayPointer := by
  rw [Console.kprintf_char]
  have hscroll : (if (screenEnd : ℤ) ≤ n then (lastRow : ℤ) else n) = c.scroll.arrayPointer := by
    unfold Console.scroll
    rw [h]
    rcases Nat.lt_or_ge n screenEnd with hlt | hge
    · rw [if_neg (Nat.not_le.mpr hlt), if_neg (not_le.mpr (Int.ofNat_lt.mpr hlt)), h]
    · rw [if_pos hge, if_pos (Int.ofNat_le.mpr hge)]
  unfold echo Console.putChar
  rw [hscroll]
  dsimp only
  split_ifs
  · rw [Int.tdiv_eq_ediv_of_nonneg (Int.natCast_nonneg _)]
    push_cast
    rfl
  · rw [Int.tdiv_eq_ediv_of_nonneg (Int.natCast_nonneg _)]
    push_cast
    rfl
  · rfl

/-- The place is wrapped as by `Terminal`. -/
theorem wrap_eq_wrapped (h : 0 ≤ t.wBuffPtr) : wrap t.wBuffPtr = t.toTerminal.wrapped := by
  have hw : t.wBuffPtr = t.toTerminal.wBuffPtr := (Int.toNat_of_nonneg h).symm
  rw [hw]
  unfold wrap Terminal.wrapped buffSize
  rw [Int.tmod_eq_emod_of_nonneg (Int.natCast_nonneg _)]
  split_ifs <;> omega

/-- A character is handled as by `Terminal`. -/
theorem toTerminal_terminalHandler {c : Byte} (h : 0 ≤ t.wBuffPtr) :
    (t.terminalHandler c).toTerminal = t.toTerminal.terminalHandler c := by
  have hwrap := wrap_eq_wrapped h
  by_cases hc : c = carriageReturn
  · subst hc
    rw [terminalHandler_return, Terminal.terminalHandler_return, hwrap]
    rfl
  · rw [terminalHandler_store hc, Terminal.terminalHandler_store hc, hwrap]
    have hupdate : (fun i : ℕ => Function.update t.termBuff (t.toTerminal.wrapped : ℤ) c (i : ℤ)) =
        Function.update t.toTerminal.termBuff t.toTerminal.wrapped c := by
      funext i
      simp only [Function.update_apply, Int.natCast_inj]
      rfl
    unfold toTerminal at hupdate ⊢
    dsimp only at hupdate ⊢
    rw [hupdate]
    rfl

/-- The buffer in which the first characters are those of a line. -/
def overlay (buffer : ℕ → Byte) (line : List Byte) : ℕ → Byte :=
  fun i => if i < line.length then line.getD i 0 else buffer i

theorem update_overlay {buffer : ℕ → Byte} {line : List Byte} {c : Byte} :
    Function.update (overlay buffer line) line.length c = overlay buffer (line ++ [c]) := by
  funext i
  unfold overlay
  rw [Function.update_apply, List.length_append, List.length_singleton]
  rcases lt_trichotomy i line.length with h | rfl | h
  · rw [if_neg h.ne, if_pos h, if_pos (Nat.lt_succ_of_lt h), List.getD_append _ _ _ _ h]
  · rw [if_pos rfl, if_pos (Nat.lt_succ_self _), List.getD_append_right _ _ _ _ le_rfl, Nat.sub_self]
    rfl
  · rw [if_neg h.ne', if_neg (Nat.lt_asymm h), if_neg (by omega)]

/-- The loop reads what the loop of `Terminal` reads. -/
theorem readLoop_toTerminal (buffer : ℕ → Byte) : ∀ (n : ℕ) (line : List Byte) (t : Tty),
    ∃ t' : Tty, readLoop n line.length (overlay buffer line) t =
      ((Terminal.readLoop t.toTerminal.termBuff n t.rBuffPtr line).1.length,
        overlay buffer (Terminal.readLoop t.toTerminal.termBuff n t.rBuffPtr line).1, t') ∧
      t'.toTerminal = { t.toTerminal with
        rBuffPtr := (Terminal.readLoop t.toTerminal.termBuff n t.rBuffPtr line).2 }
  | 0, line, t => ⟨_, rfl, rfl⟩
  | n + 1, line, t => by
    by_cases hc : t.termBuff t.rBuffPtr = lineFeed
    · have hc' : t.toTerminal.termBuff t.rBuffPtr = lineFeed := hc
      rw [readLoop, Terminal.readLoop, if_pos hc']
      dsimp only
      rw [if_pos hc]
      exact ⟨_, rfl, rfl⟩
    · have hc' : ¬ t.toTerminal.termBuff t.rBuffPtr = lineFeed := hc
      rw [readLoop, Terminal.readLoop, if_neg hc']
      dsimp only
      rw [if_neg hc, update_overlay]
      have hnext := readLoop_toTerminal buffer n (line ++ [t.termBuff t.rBuffPtr])
        { t with
          touched := t.touched ++ [(t.rBuffPtr : ℤ)]
          rBuffPtr := (t.rBuffPtr + 1) % buffSize
          filled := t.filled ++ [line.length] }
      rw [List.length_append, List.length_singleton] at hnext
      exact hnext

/-- A call of `read_buffer` does what it does to `Terminal`. -/
theorem toTerminal_readBuffer {buffer : ℕ → Byte} {size : ℕ} :
    ((t.readBuffer buffer size).1, (t.readBuffer buffer size).2.1, (t.readBuffer buffer size).2.2.toTerminal) =
      t.toTerminal.readBuffer buffer size := by
  have hempty : overlay buffer [] = buffer := rfl
  by_cases hcount : t.terminalLineCount ≠ 0
  · have hcount' : t.toTerminal.terminalLineCount ≠ 0 := hcount
    obtain ⟨t', hloop, ht'⟩ := readLoop_toTerminal buffer (size - 1) [] t
    rw [hempty, List.length_nil] at hloop
    unfold readBuffer Terminal.readBuffer
    rw [if_pos hcount, if_pos hcount', hloop]
    change (0, _, (⟨t'.toTerminal.termBuff, t'.toTerminal.rBuffPtr + 1, t'.toTerminal.wBuffPtr,
      t'.toTerminal.terminalLineCount - 1⟩ : Terminal)) = _
    rw [ht']
    rfl
  · have hcount' : ¬ t.toTerminal.terminalLineCount ≠ 0 := hcount
    unfold readBuffer Terminal.readBuffer
    rw [if_neg hcount, if_neg hcount']

end Tty

/-! ## Runs -/

/-- A key, a call of `read_buffer`, and output of other tasks, which moves the cursor. -/
inductive KeyOp
  | press (keyboardValue : ℕ)
  | read (buffer : ℕ → Byte) (size : ℕ)
  | print (arrayPointer : ℤ)

namespace Tty

/-- The terminal at boot. -/
def start (termBuff : ℤ → Byte) : Tty := ⟨termBuff, 0, 0, 0, 0, false, false, [], []⟩

/-- No place has been touched yet. -/
def fresh (t : Tty) : Tty := { t with touched := [], filled := [] }

/-- One step. The places that are left in the state are those of this step. -/
def step (t : Tty) : KeyOp → Option Tty
  | .press keyboardValue => t.fresh.keyboardIntr keyboardValue
  | .read buffer size => some (t.fresh.readBuffer buffer size).2.2
  | .print arrayPointer => some { t.fresh with arrayPointer := arrayPointer }

/-- The places of a step are in `term_buff` and in the caller's buffer. -/
def InRange (t : Tty) : KeyOp → Prop
  | .press keyboardValue => ∀ t', t.step (.press keyboardValue) = some t' →
    ∀ i ∈ t'.touched, 0 ≤ i ∧ i < buffSize
  | .read buffer size => ∀ t', t.step (.read buffer size) = some t' →
    (∀ i ∈ t'.touched, 0 ≤ i ∧ i < buffSize) ∧ ∀ i ∈ t'.filled, i < size
  | .print _ => True

/-- A key that stores a character finds the writer at a place that is not negative, and a key that erases
does not find it at the last byte of the ring. A call of `read_buffer` that does not wait finds the reader in
the ring, and a newline among the characters that the buffer has room for. -/
def Keeps (t : Tty) : KeyOp → Prop
  | .press keyboardValue => Stores keyboardValue →
    0 ≤ t.wBuffPtr ∧ (t.ErasesAt keyboardValue → t.wBuffPtr % buffSize ≠ buffSize - 1)
  | .read _ size => t.terminalLineCount = 0 ∨
    t.rBuffPtr < buffSize ∧ ∃ i < size - 1, t.termBuff ((t.rBuffPtr + i) % buffSize : ℕ) = lineFeed
  | .print _ => True

variable {t t' : Tty} {op : KeyOp}

theorem wrap_of_nonneg {w : ℤ} (h : 0 ≤ w) : wrap w = w % buffSize := by
  unfold wrap
  rw [Int.tmod_eq_emod_of_nonneg h]
  split_ifs with hle
  · rfl
  · unfold buffSize at hle ⊢
    omega

/-- The places of a key are in the ring if and only if the writer is where the key needs it. -/
theorem inRange_press {value : ℕ} : t.InRange (.press value) ↔ t.Keeps (.press value) := by
  have hlt := wrap_lt (w := t.wBuffPtr)
  constructor
  · intro h hstores
    obtain ⟨t', hs⟩ := exists_keyboardIntr (t := t.fresh) hstores
    have hrange := h t' hs
    rcases keyboardIntr_cases hs with ⟨hnot, -⟩ | ⟨-, herase, -, htouched⟩ | ⟨-, hnot, htouched, -⟩
    · exact absurd hstores hnot
    · rw [htouched] at hrange
      have hfirst := hrange (wrap t.wBuffPtr) (by simp [fresh])
      have hsecond := hrange (wrap t.wBuffPtr + 1) (by simp [fresh])
      have hpos := wrap_nonneg.mp hfirst.1
      rw [wrap_of_nonneg hpos] at hsecond
      exact ⟨hpos, fun _ => by omega⟩
    · rw [htouched] at hrange
      have hfirst := hrange (wrap t.wBuffPtr) (by simp [fresh])
      exact ⟨wrap_nonneg.mp hfirst.1, fun herase => absurd herase hnot⟩
  · intro h t' hs
    rcases keyboardIntr_cases hs with ⟨-, htouched, -⟩ | ⟨hstores, herase, -, htouched⟩ |
      ⟨hstores, -, htouched, -⟩
    · rw [htouched]
      exact fun i hi => absurd hi List.not_mem_nil
    · obtain ⟨hpos, hlast⟩ := h hstores
      have hlast := hlast herase
      have hwrap := wrap_of_nonneg hpos
      have hmod := Int.emod_lt_of_pos t.wBuffPtr (b := buffSize) (by decide)
      have hmod' := Int.emod_nonneg t.wBuffPtr (b := buffSize) (by decide)
      rw [htouched]
      change ∀ i ∈ [wrap t.wBuffPtr, wrap t.wBuffPtr + 1, wrap t.wBuffPtr], _
      rw [hwrap]
      simp only [List.forall_mem_cons, List.not_mem_nil, false_imp_iff, implies_true, and_true]
      omega
    · obtain ⟨hpos, -⟩ := h hstores
      rw [htouched]
      intro i hi
      obtain rfl := List.mem_singleton.mp hi
      exact ⟨wrap_nonneg.mpr hpos, hlt⟩

/-- The places of a call of `read_buffer` are in range if and only if the reader is in the ring and the line
ends in time. -/
theorem inRange_read {buffer : ℕ → Byte} {size : ℕ} :
    t.InRange (.read buffer size) ↔ t.Keeps (.read buffer size) := by
  have hstep : t.step (.read buffer size) = some (t.fresh.readBuffer buffer size).2.2 := rfl
  unfold InRange Keeps
  by_cases hcount : t.terminalLineCount = 0
  · -- A call that waits touches nothing.
    have hwait : (t.fresh.readBuffer buffer size).2.2 = t.fresh := by
      have hcount' : t.fresh.terminalLineCount = 0 := hcount
      unfold readBuffer
      rw [if_neg (not_not.mpr hcount')]
    refine iff_of_true (fun t' hs => ?_) (.inl hcount)
    obtain rfl := Option.some.inj (hs.symm.trans hstep)
    rw [hwait]
    exact ⟨fun i hi => absurd hi List.not_mem_nil, fun i hi => absurd hi List.not_mem_nil⟩
  · obtain ⟨k, hk, hi, -, htouched, hfilled, hstop, hgo⟩ := readLoop_touched (size - 1) 0 buffer t.fresh
    have hread : (t.fresh.readBuffer buffer size).2.2.touched =
          (List.range (k + 1)).map (fun j => (place t.rBuffPtr j : ℤ)) ∧
        (t.fresh.readBuffer buffer size).2.2.filled = (List.range k).map (0 + ·) ++ [0 + k + 1] := by
      have hcount' : t.fresh.terminalLineCount ≠ 0 := hcount
      unfold readBuffer
      rw [if_pos hcount']
      generalize readLoop (size - 1) 0 buffer t.fresh = result at hi htouched hfilled
      obtain ⟨i, buffer', t₁⟩ := result
      dsimp only at hi htouched hfilled ⊢
      rw [htouched, hfilled, hi]
      exact ⟨rfl, rfl⟩
    change k < size - 1 → t.termBuff (place t.rBuffPtr k) = lineFeed at hstop
    change ∀ j < k, t.termBuff (place t.rBuffPtr j) ≠ lineFeed at hgo
    constructor
    · intro h
      obtain ⟨hrange, hbuffer⟩ := h _ hstep
      rw [hread.1] at hrange
      rw [hread.2] at hbuffer
      have hfirst := (hrange (place t.rBuffPtr 0) (List.mem_map_of_mem (List.mem_range.mpr (Nat.succ_pos k)))).2
      have hr : t.rBuffPtr < buffSize := Int.ofNat_lt.mp hfirst
      have hlast := hbuffer (0 + k + 1) (List.mem_append_right _ (List.mem_singleton_self _))
      have hlt : k < size - 1 := by omega
      exact .inr ⟨hr, k, hlt, place_of_lt hr ▸ hstop hlt⟩
    · rintro (h0 | ⟨hr, j, hj, hfeed⟩) t' hs
      · exact absurd h0 hcount
      obtain rfl := Option.some.inj (hs.symm.trans hstep)
      rw [hread.1, hread.2]
      have hkj : k ≤ j := Nat.not_lt.mp fun hlt => hgo j hlt (by rw [place_of_lt hr]; exact hfeed)
      refine ⟨fun i hi => ?_, fun i hi => ?_⟩
      · obtain ⟨l, -, rfl⟩ := List.mem_map.mp hi
        rw [place_of_lt hr]
        exact ⟨Int.natCast_nonneg _, Int.ofNat_lt.mpr (Nat.mod_lt _ (by decide))⟩
      · rcases List.mem_append.mp hi with hi | hi
        · obtain ⟨l, hl, rfl⟩ := List.mem_map.mp hi
          have := List.mem_range.mp hl
          omega
        · rw [List.mem_singleton.mp hi]
          omega

/-- Any step. -/
theorem inRange_iff : t.InRange op ↔ t.Keeps op := by
  cases op with
  | press value => exact inRange_press
  | read buffer size => exact inRange_read
  | print p => exact Iff.rfl

/-- In any run, from any state, the places are in `term_buff` and in the caller's buffer if and only if each
step finds the writer and the reader where it needs them. -/
theorem in_range_iff (t : Tty) (ops : List KeyOp) : Along step InRange t ops ↔ Along step Keeps t ops :=
  along_iff trivial (fun _ _ _ => inRange_iff) fun _ _ _ _ _ _ => trivial

/-- A key that erases finds a character before its `h`, and neither of them is in the last byte of the ring.
A call of `read_buffer` is as in `Keeps`. -/
def Tidy (t : Tty) : KeyOp → Prop
  | .press keyboardValue => t.ErasesAt keyboardValue →
    wrap t.wBuffPtr ≠ 0 ∧ wrap t.wBuffPtr ≠ buffSize - 1
  | .read buffer size => t.Keeps (.read buffer size)
  | .print _ => True

theorem readBuffer_wBuffPtr {buffer : ℕ → Byte} {size : ℕ} :
    (t.readBuffer buffer size).2.2.wBuffPtr = t.wBuffPtr := by
  obtain ⟨k, -, -, hw, -⟩ := readLoop_touched (size - 1) 0 buffer t
  unfold readBuffer
  split_ifs
  · exact hw
  · rfl

/-- The place of the writer is not negative. -/
def Ahead (t : Tty) : Prop := 0 ≤ t.wBuffPtr

/-- It stays so. -/
theorem Tidy.ahead (h : t.Tidy op) (hpos : t.Ahead) (hs : t.step op = some t') : t'.Ahead := by
  unfold Ahead at hpos ⊢
  cases op with
  | press value =>
    have hwrap := wrap_nonneg.mpr hpos
    rcases keyboardIntr_cases hs with ⟨-, -, hw⟩ | ⟨-, herase, hw, -⟩ | ⟨-, -, -, hw⟩
    · rw [hw]
      exact hpos
    · have hne := (h herase).1
      change t'.wBuffPtr = wrap t.wBuffPtr - 1 at hw
      omega
    · change t'.wBuffPtr = if value = 28 then wrap (wrap t.wBuffPtr + 1) else wrap t.wBuffPtr + 1 at hw
      rw [hw]
      split_ifs
      · exact wrap_nonneg.mpr (by omega)
      · omega
  | read buffer size =>
    obtain rfl := Option.some.inj hs
    rw [readBuffer_wBuffPtr]
    exact hpos
  | print p =>
    obtain rfl := Option.some.inj hs
    exact hpos

theorem Tidy.keeps (h : t.Tidy op) (hpos : t.Ahead) : t.Keeps op := by
  cases op with
  | press value =>
    refine fun _ => ⟨hpos, fun herase => ?_⟩
    rw [← wrap_of_nonneg hpos]
    exact (h herase).2
  | read buffer size => exact h
  | print p => trivial

/-- The places of a run from the start are in range where nothing is erased but characters. -/
theorem in_range_of_tidy (termBuff : ℤ → Byte) (ops : List KeyOp)
    (h : Along step Tidy (start termBuff) ops) : Along step InRange (start termBuff) ops := by
  rw [in_range_iff]
  have hcongr : Along step Keeps (start termBuff) ops ↔ Along step Tidy (start termBuff) ops :=
    h.congr (show (start termBuff).Ahead from le_rfl) (fun _ _ _ hahead hop hs => hop.ahead hahead hs)
      fun _ _ hahead hop => iff_of_true (hop.keeps hahead) hop
  exact hcongr.mpr h

/-- Control-h on an empty line moves the writer to -1, where the next character is stored. A buffer of one
byte gets its zero behind it. -/
theorem erase_on_empty_line :
    (∃ t, run step (start fun _ => 0) [.press 29, .press 35] = some t ∧ t.wBuffPtr = -1) ∧
    ¬ Along step InRange (start fun _ => 0) [.press 29, .press 35, .press 30] ∧
    ¬ Along step InRange (start fun _ => 0) [.press 30, .press 28, .read (fun _ => 0) 1] := by
  refine ⟨⟨_, rfl, rfl⟩, fun h => ?_, fun h => ?_⟩
  · rw [in_range_iff] at h
    have hpos := ((h.2 _ rfl).2 _ rfl).1 (by decide)
    exact absurd hpos.1 (by decide)
  · rw [in_range_iff] at h
    rcases ((h.2 _ rfl).2 _ rfl).1 with h0 | ⟨-, j, hj, -⟩
    · exact absurd h0 (by decide)
    · exact absurd hj (Nat.not_lt_zero j)

end Tty

end Nascent
