import Nascent.Console.Keyboard
import Nascent.Console.Parse
import Nascent.Console.Page

/-!
# The status line

The row below the screen shows the time since the boot and the last key: `print_time` and `print_key` of
`src/sys/kprintf.c`, with what `timer_int` and `keyboard_intr` do to the video memory. Everything else on the
console goes through `write_to_console` or the echo of a key.

The two parts share the video memory and the code that scrolls, which even reads the first cell of the status
line: it moves it to the last row before it clears this row. In whatever order tasks write, keys are pressed,
and the timer ticks, the screen shows the page of the characters that were written and echoed, and the status
line shows the seconds and the last key, as long as no key erases (`screen_shows`).

The fields `text`, `ticks`, and `lastKey` are not in the source and nothing depends on them. `print_key`
moves the cursor back in front of the screen where control-h is the first key of all, and then the model has no
result. `Tty` has the other half of `keyboard_intr`, what it does to `term_buff`: the cursor and the flags are the
same in both (`Screen.Matches.run`).
-/

namespace Nascent

open Bytes (Byte)
open Numbers Numeral Runs
open Tarfs (CInt)

/-- `"Time Since Reboot: "`, with its zero byte. -/
def timeLabel : List Byte := [84, 105, 109, 101, 32, 83, 105, 110, 99, 101, 32, 82, 101, 98, 111, 111, 116, 58, 32, 0]

/-- `"Key Entered: "`, with its zero byte. -/
def keyLabel : List Byte := [75, 101, 121, 32, 69, 110, 116, 101, 114, 101, 100, 58, 32, 0]

namespace Console

/-- A loop that stores some characters in one cell after the other. -/
def stamp (video : ℕ → Byte) (o n : ℕ) (s : ℕ → Byte) : ℕ → Byte :=
  (List.range n).foldl (fun v i => Function.update v (o + 2 * i) (s i)) video

/-- `print_time`. -/
def printTime (c : Console) (time : CInt) : Option Console :=
  (Kprintf.num time (fun _ => 0) 10).map fun r =>
    { c with video := stamp (stamp c.video (24 * 160) 20 (timeLabel.getD · 0)) (24 * 160 + 40) r.2 r.1 }

/-- `*(base_address+array_pointer)=' '`, with the cursor moved back by a cell. -/
def blankBack (c : Console) : Option Console :=
  if c.arrayPointer < 2 then none
  else some { c with
    arrayPointer := c.arrayPointer - 2
    video := Function.update c.video (c.arrayPointer - 2) space }

/-- `print_key`, but for its calls of `dec_term`. -/
def printKey (c : Console) (shiftFlag : Bool) (ch : Byte) : Option Console := do
  let c := { c with video := stamp c.video (24 * 160 + 80) 14 (keyLabel.getD · 0) }
  let c ← if ch = 14 ∧ c.arrayPointer > 0 then c.blankBack else some c
  if shiftFlag then do
    let c ← if ch = 104 ∧ c.arrayPointer > 0 then do
        let c ← c.blankBack
        c.blankBack
      else some c
    some { c with video :=
      Function.update (Function.update c.video (24 * 160 + 80 + 28) 94) (24 * 160 + 82 + 28) ch }
  else
    some { c with video :=
      Function.update (Function.update c.video (24 * 160 + 80 + 28) ch) (24 * 160 + 82 + 28) space }

end Console

/-- The screen, with what the interrupt handlers keep for it. -/
structure Screen where
  /-- The console. -/
  console : Console
  /-- `shift_flag`. -/
  shiftFlag : Bool
  /-- `control_flag`. -/
  controlFlag : Bool
  /-- `timer_count`. -/
  timerCount : ℤ
  /-- `time_from_reboot`. -/
  timeFromReboot : CInt
  /-- The characters that were written or echoed. -/
  text : List Byte
  /-- The number of ticks of the timer. -/
  ticks : ℕ
  /-- The last key of the table, with `control_flag` at that time. -/
  lastKey : Option (Bool × Byte)

/-- What happens on the screen. -/
inductive ScreenOp
  /-- A call of `write_to_console`. -/
  | write (bs : List Byte)
  /-- `keyboard_intr`, for the value that `inb` returns. -/
  | key (keyboardValue : ℕ)
  /-- `timer_int`. -/
  | tick

namespace Screen

/-- The screen when it has been cleared. -/
def boot (video : ℕ → Byte) : Screen := ⟨Console.cleared video, false, false, 0, 0, [], 0, none⟩

variable (s : Screen)

/-- A task writes. -/
def write (bs : List Byte) : Screen :=
  { s with console := s.console.writeToConsole bs, text := s.text ++ bs }

/-- The `kprintf` of `terminal_handler`. -/
def echo (c : Byte) : Screen :=
  { s with console := s.console.kprintf [37, 99] [[c]], text := s.text ++ [c] }

/-- What `keyboard_intr` does for a character of the table. -/
def key (c : Byte) : Option Screen :=
  let s := s.echo c
  (s.console.printKey s.controlFlag c).map fun console =>
    { s with console := console, controlFlag := false, lastKey := some (s.controlFlag, c) }

/-- `keyboard_intr`. -/
def keyboardIntr (keyboardValue : ℕ) : Option Screen :=
  let s := if keyboardValue = 28 then s.echo lineFeed else s
  if keyboardValue = 29 then some { s with controlFlag := true }
  else if keyboardValue = 42 then some { s with shiftFlag := true }
  else if keyboardValue < 60 then
    Tty.asciicodes[keyboardValue]?.bind fun codes =>
      if s.shiftFlag then key { s with shiftFlag := false } codes.2 else s.key codes.1
  else some s

/-- `timer_int`, but for what it does to the tasks. -/
def timerInt : Option Screen := do
  let s := { s with ticks := s.ticks + 1 }
  let s ← if s.timerCount = 18 then do
      let s := { s with timerCount := -1, timeFromReboot := s.timeFromReboot + 1 }
      (s.console.printTime s.timeFromReboot).map fun console => { s with console := console }
    else some s
  some { s with timerCount := s.timerCount + 1 }

/-- One step. -/
def step : ScreenOp → Option Screen
  | .write bs => some (s.write bs)
  | .key keyboardValue => s.keyboardIntr keyboardValue
  | .tick => s.timerInt

/-- The key does not erase: it is not `h` with control. -/
def NoErase : ScreenOp → Prop
  | .key keyboardValue => keyboardValue = 35 → s.shiftFlag = false → s.controlFlag = false
  | _ => True

instance (op : ScreenOp) : Decidable (s.NoErase op) :=
  match op with
  | .key keyboardValue =>
    inferInstanceAs (Decidable (keyboardValue = 35 → s.shiftFlag = false → s.controlFlag = false))
  | .write _ | .tick => isTrue trivial

/-- The status line shows a time. -/
def ShowsTime (video : ℕ → Byte) (time : CInt) : Prop :=
  (∀ i < timeLabel.length, video (screenEnd + 2 * i) = timeLabel.getD i 0) ∧
    ∀ i < (decimalText time).length, video (screenEnd + 40 + 2 * i) = (decimalText time).getD i 0

/-- The status line shows a key. -/
def ShowsKey (video : ℕ → Byte) (controlFlag : Bool) (c : Byte) : Prop :=
  (∀ i < keyLabel.length, video (screenEnd + 80 + 2 * i) = keyLabel.getD i 0) ∧
    video (screenEnd + 108) = (if controlFlag then 94 else c) ∧
    video (screenEnd + 110) = if controlFlag then c else space

end Screen

namespace Console

variable {c c' : Console} {p : Page} {top o n i k : ℕ} {video : ℕ → Byte} {s : ℕ → Byte} {b : Byte}

/-! ## The cells of a loop -/

theorem stamp_apply : stamp video o n s k =
    if o ≤ k ∧ (k - o) % 2 = 0 ∧ (k - o) / 2 < n then s ((k - o) / 2) else video k := by
  unfold stamp
  induction n with
  | zero => rw [if_neg (by omega)]; rfl
  | succ n ih =>
    rw [List.range_succ, List.foldl_append, List.foldl_cons, List.foldl_nil]
    by_cases hk : k = o + 2 * n
    · have hdiv : (k - o) / 2 = n := by omega
      rw [hk, Function.update_self, ← hk, hdiv, if_pos (by omega)]
    · rw [Function.update_of_ne hk, ih]
      refine if_congr ?_ rfl rfl
      omega

theorem stamp_cell (hi : i < n) : stamp video o n s (o + 2 * i) = s i := by
  rw [stamp_apply, if_pos (by omega)]
  congr 1
  omega

theorem stamp_of_lt (hk : k < o) : stamp video o n s k = video k := by
  rw [stamp_apply, if_neg (by omega)]

/-! ## The screen is kept -/

/-- The screen only depends on the cells above the status line. -/
theorem Shows.congr (h : c.Shows p top) (hvideo : ∀ k < screenEnd, c'.video k = c.video k)
    (hap : c'.arrayPointer = c.arrayPointer) (hstores : c'.stores = c.stores) : c'.Shows p top where
  cell r hr k hk := by
    rw [hvideo _ (by rw [screenEnd]; omega)]
    exact h.cell r hr k hk
  row_ge := h.row_ge
  row_le := h.row_le
  last := h.last
  col_lt := h.col_lt
  arrayPointer := hap.trans h.arrayPointer
  fresh := h.fresh
  stores := hstores ▸ h.stores

/-- Scrolling keeps the status line. -/
theorem scroll_status (hk : screenEnd ≤ k) : c.scroll.video k = c.video k := by
  rw [screenEnd] at hk
  unfold scroll
  split_ifs
  · show scrollVideo c.video k = c.video k
    rw [scrollVideo, foldl_fill, foldl_move, lastRow, if_neg (by omega), if_neg (by omega)]
  · rfl

/-- A character on the screen keeps the status line. -/
theorem putChar_status (hap : c.arrayPointer < screenEnd) (hk : screenEnd ≤ k) :
    (c.putChar b).video k = c.video k := by
  unfold putChar
  split_ifs
  · rfl
  · rfl
  · exact Function.update_of_ne (by omega) ..

/-- `write_to_console` keeps the status line. -/
theorem writeToConsole_status (bs : List Byte) (hk : screenEnd ≤ k) : (c.writeToConsole bs).video k = c.video k := by
  induction bs generalizing c with
  | nil => rfl
  | cons b bs ih =>
    rw [writeToConsole_cons, ih, putChar_status arrayPointer_scroll_lt hk, scroll_status hk]

/-! ## The status line is written -/

/-- The characters of a time that is an `int` and not 0. -/
theorem num_time {n : ℕ} (hn : n ≠ 0) (hlt : n < 2 ^ 31) : ∃ buffer, (decimalText (BitVec.ofNat 32 n)).length ≤ 10 ∧
    Kprintf.num (BitVec.ofNat 32 n) (fun _ => 0) 10 = some (buffer, (decimalText (BitVec.ofNat 32 n)).length) ∧
    ∀ i < (decimalText (BitVec.ofNat 32 n)).length, buffer i = (decimalText (BitVec.ofNat 32 n)).getD i 0 := by
  have hnat : (BitVec.ofNat 32 n).toNat = n := by
    rw [BitVec.toNat_ofNat]
    omega
  have hint : (BitVec.ofNat 32 n).toInt = n := by
    rw [BitVec.toInt_eq_toNat_of_lt (by rw [hnat]; omega), hnat]
  have h0 : BitVec.ofNat 32 n ≠ 0 := fun h0 => by
    rw [h0] at hnat
    exact hn hnat.symm
  have hmin : BitVec.ofNat 32 n ≠ BitVec.intMin 32 := fun hmin => by
    rw [hmin] at hint
    have hneg : (BitVec.intMin 32).toInt = -2 ^ 31 := by decide
    omega
  have hlen : (decimalText (BitVec.ofNat 32 n)).length ≤ 10 := by
    rw [decimalText_of_nonneg (by omega), List.length_map, hnat]
    exact length_numeral_le (by decide) (by decide) (by omega)
  refine ⟨_, hlen, num_decimal h0 hmin, fun i hi => ?_⟩
  rw [fill_of_lt hi, List.getD_eq_getElem _ _ hi]

/-- `print_time` writes the first half of the status line. -/
theorem printTime_spec {n : ℕ} (hn : n ≠ 0) (hlt : n < 2 ^ 31) (h : c.printTime (BitVec.ofNat 32 n) = some c') :
    c'.arrayPointer = c.arrayPointer ∧ c'.stores = c.stores ∧
    (∀ k, k < screenEnd ∨ screenEnd + 80 ≤ k → c'.video k = c.video k) ∧
    Screen.ShowsTime c'.video (BitVec.ofNat 32 n) := by
  obtain ⟨buffer, hlen, hnum, hbuffer⟩ := num_time hn hlt
  unfold printTime at h
  rw [hnum, Option.map_some, Option.some.injEq] at h
  rw [← h]
  refine ⟨rfl, rfl, fun k hk => ?_, fun i hi => ?_, fun i hi => ?_⟩
  · rw [screenEnd] at hk
    dsimp only
    rw [stamp_apply, if_neg (by omega), stamp_apply, if_neg (by omega)]
  · have hi' : i < 20 := hi
    dsimp only
    rw [screenEnd, stamp_of_lt (by omega)]
    exact stamp_cell hi'
  · dsimp only
    rw [screenEnd, ← hbuffer i hi]
    exact stamp_cell hi

/-- `print_key` writes the second half, where the key does not erase. -/
theorem printKey_spec {shiftFlag : Bool} (h14 : b ≠ 14) (herase : shiftFlag = true → b ≠ 104)
    (h : c.printKey shiftFlag b = some c') : c'.arrayPointer = c.arrayPointer ∧ c'.stores = c.stores ∧
    (∀ k, k < screenEnd + 80 → c'.video k = c.video k) ∧ Screen.ShowsKey c'.video shiftFlag b := by
  have hlabel : ∀ (x y : Byte) (i : ℕ), i < keyLabel.length →
      Function.update (Function.update (stamp c.video (24 * 160 + 80) 14 (keyLabel.getD · 0))
        (24 * 160 + 80 + 28) x) (24 * 160 + 82 + 28) y (screenEnd + 80 + 2 * i) = keyLabel.getD i 0 := by
    intro x y i hi
    have hi' : i < 14 := hi
    rw [screenEnd, Function.update_of_ne (by omega), Function.update_of_ne (by omega)]
    exact stamp_cell hi'
  have hkept : ∀ (x y : Byte) (k : ℕ), k < screenEnd + 80 →
      Function.update (Function.update (stamp c.video (24 * 160 + 80) 14 (keyLabel.getD · 0))
        (24 * 160 + 80 + 28) x) (24 * 160 + 82 + 28) y k = c.video k := by
    intro x y k hk
    rw [screenEnd] at hk
    rw [Function.update_of_ne (by omega), Function.update_of_ne (by omega), stamp_of_lt (by omega)]
  unfold printKey at h
  rw [if_neg fun hc => h14 hc.1] at h
  cases shiftFlag with
  | true =>
    have hne := herase rfl
    simp only [Option.bind_eq_bind, Option.bind_some, if_true, hne, false_and, if_false, Option.some.injEq] at h
    subst h
    refine ⟨rfl, rfl, hkept 94 b, hlabel 94 b, ?_, ?_⟩
    · dsimp only
      rw [screenEnd, Function.update_of_ne (by omega)]
      exact Function.update_self ..
    · dsimp only
      rw [screenEnd]
      exact Function.update_self ..
  | false =>
    simp only [Option.bind_eq_bind, Option.bind_some, Bool.false_eq_true, if_false, Option.some.injEq] at h
    subst h
    refine ⟨rfl, rfl, hkept b space, hlabel b space, ?_, ?_⟩
    · dsimp only
      rw [screenEnd, Function.update_of_ne (by omega)]
      exact Function.update_self ..
    · dsimp only
      rw [screenEnd]
      exact Function.update_self ..

end Console

namespace Screen

variable {s t : Screen} {c : Byte} {video video' : ℕ → Byte} {time : CInt} {controlFlag : Bool} {op : ScreenOp}

/-! ## What each step keeps -/

theorem ShowsTime.congr (h : ShowsTime video time) (hlen : (decimalText time).length ≤ 20)
    (hv : ∀ k, screenEnd ≤ k → k < screenEnd + 80 → video' k = video k) : ShowsTime video' time := by
  refine ⟨fun i hi => ?_, fun i hi => ?_⟩
  · have hi' : i < 20 := hi
    rw [hv _ (by omega) (by omega)]
    exact h.1 i hi
  · rw [hv _ (by omega) (by omega)]
    exact h.2 i hi

theorem ShowsKey.congr (h : ShowsKey video controlFlag c) (hv : ∀ k, screenEnd + 80 ≤ k → video' k = video k) :
    ShowsKey video' controlFlag c := by
  refine ⟨fun i hi => ?_, ?_, ?_⟩
  · rw [hv _ (by omega)]
    exact h.1 i hi
  · rw [hv _ (by omega)]
    exact h.2.1
  · rw [hv _ (by omega)]
    exact h.2.2

/-- The screen and the status line show what they should. -/
structure Kept (s : Screen) : Prop where
  /-- The screen. -/
  shows : ∃ top, s.console.Shows (s.text.foldl Page.put Page.blank) top
  /-- `timer_count`. -/
  timerCount : s.timerCount = (s.ticks % 19 : ℕ)
  /-- `time_from_reboot`. -/
  timeFromReboot : s.timeFromReboot = BitVec.ofNat 32 (s.ticks / 19)
  /-- The time on the status line. -/
  showsTime : 19 ≤ s.ticks → ShowsTime s.console.video s.timeFromReboot
  /-- The last key on the status line. -/
  showsKey : ∀ k ∈ s.lastKey, ShowsKey s.console.video k.1 k.2

/-- The time is short enough for the status line. -/
theorem Kept.length_time (h : s.Kept) (h19 : 19 ≤ s.ticks) (hlt : s.ticks < 19 * 2 ^ 31) :
    (decimalText s.timeFromReboot).length ≤ 20 := by
  obtain ⟨-, hlen, -⟩ := Console.num_time (n := s.ticks / 19) (by omega) (by omega)
  rw [h.timeFromReboot]
  omega

theorem Kept.write (h : s.Kept) (bs : List Byte) : (s.write bs).Kept where
  shows := by
    obtain ⟨top, hshows⟩ := h.shows
    obtain ⟨top', hshows'⟩ := hshows.writeToConsole bs
    refine ⟨top', ?_⟩
    show (s.console.writeToConsole bs).Shows ((s.text ++ bs).foldl Page.put Page.blank) top'
    rw [List.foldl_append]
    exact hshows'
  timerCount := h.timerCount
  timeFromReboot := h.timeFromReboot
  showsTime h19 := by
    obtain ⟨hlabel, hdigits⟩ := h.showsTime h19
    refine ⟨fun i hi => ?_, fun i hi => ?_⟩
    · exact (Console.writeToConsole_status bs (by omega)).trans (hlabel i hi)
    · exact (Console.writeToConsole_status bs (by omega)).trans (hdigits i hi)
  showsKey k hk := (h.showsKey k hk).congr fun _ hk => Console.writeToConsole_status bs (by omega)

/-- The echo of a key is a character that is written. -/
theorem echo_eq (s : Screen) (c : Byte) : s.echo c = s.write [c] := by
  have hwrite : s.console.writeToConsole [c] = s.console.kprintf [37, 99] [[c]] := by
    rw [Console.writeToConsole_cons, Console.kprintf_char]
    rfl
  rw [echo, Screen.write, hwrite]

theorem Kept.key (h : s.Kept) (hlt : s.ticks < 19 * 2 ^ 31) (h14 : c ≠ 14)
    (herase : s.controlFlag = true → c ≠ 104) (hs : s.key c = some t) : t.Kept := by
  unfold Screen.key at hs
  rw [echo_eq] at hs
  have hw := h.write [c]
  obtain ⟨console, hprint, rfl⟩ := Option.map_eq_some_iff.mp hs
  obtain ⟨hap, hstores, hvideo, hkey⟩ := Console.printKey_spec h14 herase hprint
  obtain ⟨top, hshows⟩ := hw.shows
  refine ⟨⟨top, hshows.congr (fun k hk => hvideo k (by omega)) hap hstores⟩, h.timerCount, h.timeFromReboot,
    fun h19 => ?_, fun k hk => ?_⟩
  · exact (hw.showsTime h19).congr (h.length_time h19 hlt) fun k _ hk => hvideo k hk
  · obtain rfl := Option.some.inj hk
    exact hkey

/-- A change of the flags. -/
theorem Kept.flags (h : s.Kept) (shift control : Bool) :
    ({ s with shiftFlag := shift, controlFlag := control } : Screen).Kept :=
  ⟨h.shows, h.timerCount, h.timeFromReboot, h.showsTime, h.showsKey⟩

theorem Kept.keyboardIntr {value : ℕ} (h : s.Kept) (hlt : s.ticks < 19 * 2 ^ 31) (herase : s.NoErase (.key value))
    (hs : s.keyboardIntr value = some t) : t.Kept := by
  have hstart : ∀ s' : Screen, s' = (if value = 28 then s.echo lineFeed else s) →
      s'.Kept ∧ s'.ticks = s.ticks ∧ s'.shiftFlag = s.shiftFlag ∧ s'.controlFlag = s.controlFlag := by
    rintro s' rfl
    split_ifs
    · rw [echo_eq]
      exact ⟨h.write _, rfl, rfl, rfl⟩
    · exact ⟨h, rfl, rfl, rfl⟩
  unfold Screen.keyboardIntr at hs
  dsimp only at hs
  generalize hs' : (if value = 28 then s.echo lineFeed else s) = s' at hs
  obtain ⟨hkept, hticks, hshift, hcontrol⟩ := hstart s' hs'.symm
  split_ifs at hs
  · obtain rfl := Option.some.inj hs
    exact hkept.flags _ true
  · obtain rfl := Option.some.inj hs
    exact hkept.flags true _
  · obtain ⟨codes, hcodes, hs⟩ := Option.bind_eq_some_iff.mp hs
    obtain ⟨-, h14, -, -, -, hh⟩ := Tty.asciicodes_facts hcodes
    exact (hkept.flags false s'.controlFlag).key (hticks ▸ hlt) h14 (fun _ => hh) hs
  · rename_i hflag
    obtain ⟨codes, hcodes, hs⟩ := Option.bind_eq_some_iff.mp hs
    obtain ⟨h14, -, -, -, hh, -⟩ := Tty.asciicodes_facts hcodes
    refine hkept.key (hticks ▸ hlt) h14 (fun hc hch => ?_) hs
    rw [hshift] at hflag
    rw [hcontrol] at hc
    have hnot := herase (hh.mp hch) (Bool.eq_false_iff.mpr hflag)
    rw [hc] at hnot
    cases hnot
  · obtain rfl := Option.some.inj hs
    exact hkept

/-- At the end of a second, the time on the status line is the new one. -/
theorem Kept.timerInt (h : s.Kept) (hlt : t.ticks < 19 * 2 ^ 31) (hs : s.timerInt = some t) : t.Kept := by
  have hcount := h.timerCount
  unfold Screen.timerInt at hs
  dsimp only at hs
  split_ifs at hs with h18
  · obtain ⟨s₁, hs₁, hs⟩ := Option.bind_eq_some_iff.mp hs
    obtain rfl := Option.some.inj hs
    obtain ⟨console, hprint, rfl⟩ := Option.map_eq_some_iff.mp hs₁
    have hmod : s.ticks % 19 = 18 := by omega
    have htime : s.timeFromReboot + 1 = BitVec.ofNat 32 (s.ticks / 19 + 1) := by
      rw [h.timeFromReboot]
      exact (BitVec.ofNat_add ..).symm
    have hdiv : (s.ticks + 1) / 19 = s.ticks / 19 + 1 := by omega
    have hlt' : s.ticks + 1 < 19 * 2 ^ 31 := hlt
    rw [htime] at hprint
    obtain ⟨hap, hstores, hvideo, hshows⟩ := Console.printTime_spec (by omega) (by omega) hprint
    obtain ⟨top, hpage⟩ := h.shows
    refine ⟨⟨top, hpage.congr (fun k hk => hvideo k (.inl hk)) hap hstores⟩, ?_, ?_, fun _ => ?_, fun k hk => ?_⟩
    · show (-1 : ℤ) + 1 = ((s.ticks + 1) % 19 : ℕ)
      omega
    · show s.timeFromReboot + 1 = BitVec.ofNat 32 ((s.ticks + 1) / 19)
      rw [htime, hdiv]
    · show ShowsTime console.video (s.timeFromReboot + 1)
      rw [htime]
      exact hshows
    · exact (h.showsKey k hk).congr fun k hk => hvideo k (.inr hk)
  · obtain rfl := Option.some.inj hs
    have hdiv : (s.ticks + 1) / 19 = s.ticks / 19 := by omega
    refine ⟨h.shows, ?_, ?_, fun h19 => h.showsTime ?_, h.showsKey⟩
    · show s.timerCount + 1 = ((s.ticks + 1) % 19 : ℕ)
      omega
    · show s.timeFromReboot = BitVec.ofNat 32 ((s.ticks + 1) / 19)
      rw [h.timeFromReboot, hdiv]
    · have h19' : 19 ≤ s.ticks + 1 := h19
      omega

theorem key_ticks (hs : s.key c = some t) : t.ticks = s.ticks := by
  obtain ⟨console, -, rfl⟩ := Option.map_eq_some_iff.mp hs
  rfl

theorem keyboardIntr_ticks {value : ℕ} (hs : s.keyboardIntr value = some t) : t.ticks = s.ticks := by
  have hstart : (if value = 28 then s.echo lineFeed else s).ticks = s.ticks := by
    split_ifs
    · rfl
    · rfl
  unfold Screen.keyboardIntr at hs
  dsimp only at hs
  generalize (if value = 28 then s.echo lineFeed else s) = s' at hs hstart
  rw [← hstart]
  split_ifs at hs
  · obtain rfl := Option.some.inj hs
    rfl
  · obtain rfl := Option.some.inj hs
    rfl
  · obtain ⟨codes, -, hs⟩ := Option.bind_eq_some_iff.mp hs
    exact key_ticks (s := { s' with shiftFlag := false }) hs
  · obtain ⟨codes, -, hs⟩ := Option.bind_eq_some_iff.mp hs
    exact key_ticks hs
  · obtain rfl := Option.some.inj hs
    rfl

theorem timerInt_ticks (hs : s.timerInt = some t) : t.ticks = s.ticks + 1 := by
  unfold Screen.timerInt at hs
  dsimp only at hs
  split_ifs at hs
  · obtain ⟨s₁, hs₁, hs⟩ := Option.bind_eq_some_iff.mp hs
    obtain rfl := Option.some.inj hs
    obtain ⟨console, -, rfl⟩ := Option.map_eq_some_iff.mp hs₁
    rfl
  · obtain rfl := Option.some.inj hs
    rfl

theorem ticks_le (hs : s.step op = some t) : s.ticks ≤ t.ticks := by
  cases op with
  | write bs =>
    obtain rfl := Option.some.inj hs
    exact le_rfl
  | key value => exact (keyboardIntr_ticks hs).ge
  | tick => exact (Nat.le_succ _).trans (timerInt_ticks hs).ge

/-- A step that does not erase keeps the screen and the status line. -/
theorem Kept.step (h : s.Kept) (herase : s.NoErase op) (hlt : t.ticks < 19 * 2 ^ 31) (hs : s.step op = some t) :
    t.Kept := by
  have hle := ticks_le hs
  cases op with
  | write bs =>
    obtain rfl := Option.some.inj hs
    exact h.write bs
  | key value => exact h.keyboardIntr (by omega) herase hs
  | tick => exact h.timerInt hlt hs

/-- The screen at the boot. -/
theorem kept_boot (video : ℕ → Byte) : (boot video).Kept := by
  refine ⟨⟨0, Console.shows_cleared video⟩, rfl, ?_, fun h19 => ?_, fun _ hk => ?_⟩
  · show (0 : CInt) = BitVec.ofNat 32 (0 / 19)
    rfl
  · have h19' : 19 ≤ 0 := h19
    omega
  · cases hk

/-- After any writes, keys, and ticks, of which none erases, the screen shows the end of the page of the characters that
were written and echoed, and the status line shows the seconds since the boot, 19 ticks each, and the last key. -/
theorem screen_shows (video : ℕ → Byte) (ops : List ScreenOp) (hops : Along Screen.step NoErase (boot video) ops)
    (s : Screen) (hs : run Screen.step (boot video) ops = some s) (hlt : s.ticks < 19 * 2 ^ 31) :
    (∃ top, s.console.ShowsEnd (s.text.foldl Page.put Page.blank) top) ∧
    (19 ≤ s.ticks → ShowsTime s.console.video (BitVec.ofNat 32 (s.ticks / 19))) ∧
    ∀ k ∈ s.lastKey, ShowsKey s.console.video k.1 k.2 := by
  have hstep : ∀ (u : Screen) op v, (u.ticks < 19 * 2 ^ 31 → u.Kept) → u.NoErase op → u.step op = some v →
      v.ticks < 19 * 2 ^ 31 → v.Kept := by
    intro u op v hu hop hv hlt
    exact (hu ((ticks_le hv).trans_lt hlt)).step hop hlt hv
  have hinv : (fun u : Screen => u.ticks < 19 * 2 ^ 31 → u.Kept) s :=
    (visits_of_run hs).invariant hops hstep fun _ => kept_boot video
  have hkept : s.Kept := hinv hlt
  obtain ⟨top, hshows⟩ := hkept.shows
  refine ⟨⟨top, hshows.showsEnd⟩, fun h19 => ?_, hkept.showsKey⟩
  rw [← hkept.timeFromReboot]
  exact hkept.showsTime h19

/-- A task writes, control-a is pressed, and a second is over. -/
theorem screen_shows_second : ∃ s, run Screen.step (boot fun _ => 0)
      ([.write [72, 105], .key 29, .key 30] ++ List.replicate 19 .tick) = some s ∧
    (∃ top, s.console.ShowsEnd (s.text.foldl Page.put Page.blank) top) ∧
    ShowsTime s.console.video 1 ∧ ShowsKey s.console.video true 97 := by
  have hrun : ((run Screen.step (boot fun _ => 0)
      ([.write [72, 105], .key 29, .key 30] ++ List.replicate 19 .tick)).map fun s => (s.ticks, s.lastKey)) =
        some (19, some (true, 97)) := by decide +kernel
  have hops : Along Screen.step NoErase (boot fun _ => 0)
      ([.write [72, 105], .key 29, .key 30] ++ List.replicate 19 .tick) := by decide +kernel
  obtain ⟨s, hs, hval⟩ := Option.map_eq_some_iff.mp hrun
  obtain ⟨hticks, hkey⟩ := Prod.mk.inj hval
  obtain ⟨hpage, htime, hlast⟩ := screen_shows _ _ hops s hs (by rw [hticks]; decide)
  rw [hticks] at htime
  exact ⟨s, hs, hpage, htime (by decide), hlast _ (by rw [hkey]; rfl)⟩

end Screen

/-! ## The terminal of the keyboard -/

theorem Console.arrayPointer_blankBack {c c' : Console} (h : c.blankBack = some c') :
    (c'.arrayPointer : ℤ) = c.arrayPointer - 2 := by
  unfold Console.blankBack at h
  split_ifs at h with hlt
  obtain rfl := Option.some.inj h
  dsimp only
  omega

theorem Tty.terminalHandler_screen (t : Tty) (b : Byte) :
    (t.terminalHandler b).arrayPointer = Tty.echo t.arrayPointer b ∧
      (t.terminalHandler b).shiftFlag = t.shiftFlag ∧ (t.terminalHandler b).controlFlag = t.controlFlag := by
  unfold Tty.terminalHandler
  dsimp only
  split_ifs <;> exact ⟨rfl, rfl, rfl⟩

/-- The cursor after `print_key`: one cell back for the character 14, and two for control-h. -/
def keyCursor (p : ℤ) (controlFlag : Bool) (b : Byte) : ℤ :=
  if p > 0 then if b = 14 then p - 2 else if controlFlag ∧ b = 104 then p - 2 - 2 else p else p

theorem Tty.printKey_screen (t : Tty) (controlFlag : Bool) (b : Byte) :
    (t.printKey controlFlag b).arrayPointer = keyCursor t.arrayPointer controlFlag b ∧
      (t.printKey controlFlag b).shiftFlag = t.shiftFlag := by
  have hne : ¬ (14 : Byte) = 104 := by decide
  unfold Tty.printKey keyCursor
  by_cases hpos : t.arrayPointer > 0
  · by_cases hb : b = 14
    · simp only [hb, if_pos hpos, if_true, if_neg hne, ite_self]
      exact ⟨rfl, rfl⟩
    · simp only [if_neg hb, if_pos hpos]
      by_cases hboth : controlFlag = true ∧ b = 104
      · rw [if_pos hboth.1, if_pos hboth.2, if_pos hboth]
        exact ⟨rfl, rfl⟩
      · rw [if_neg hboth]
        split_ifs with hcontrol h104
        · exact absurd ⟨hcontrol, h104⟩ hboth
        · exact ⟨rfl, rfl⟩
        · exact ⟨rfl, rfl⟩
  · simp only [if_neg hpos, ite_self, and_self]

theorem Console.arrayPointer_printKey {c c' : Console} {controlFlag : Bool} {b : Byte}
    (h : c.printKey controlFlag b = some c') :
    (c'.arrayPointer : ℤ) = keyCursor c.arrayPointer controlFlag b := by
  have hne : ¬ (14 : Byte) = 104 := by decide
  unfold Console.printKey at h
  unfold keyCursor
  by_cases hpos : c.arrayPointer > 0
  · have hpos' : (c.arrayPointer : ℤ) > 0 := by omega
    rw [if_pos hpos']
    by_cases hb : b = 14
    · rw [if_pos hb]
      simp only [hb, hpos, hne, true_and, false_and, if_true, if_false] at h
      obtain ⟨c₁, h₁, h⟩ := Option.bind_eq_some_iff.mp h
      have hcursor : c'.arrayPointer = c₁.arrayPointer := by
        split_ifs at h
        · rw [← Option.some.inj h]
        · rw [← Option.some.inj h]
      have hback := Console.arrayPointer_blankBack h₁
      rw [hcursor, hback]
    · rw [if_neg hb]
      simp only [hb, if_false, Option.bind_eq_bind, Option.bind_some, hpos, and_true] at h
      by_cases hboth : controlFlag = true ∧ b = 104
      · rw [if_pos hboth]
        rw [if_pos hboth.1, if_pos hboth.2] at h
        obtain ⟨c₁, h₁, h⟩ := Option.bind_eq_some_iff.mp h
        obtain ⟨c₂, h₂, h⟩ := Option.bind_eq_some_iff.mp h
        have hback := Console.arrayPointer_blankBack h₁
        rw [← Option.some.inj h, Console.arrayPointer_blankBack h₂, hback]
      · rw [if_neg hboth]
        split_ifs at h with hcontrol h104
        · exact absurd ⟨hcontrol, h104⟩ hboth
        · rw [← Option.some.inj h]
        · rw [← Option.some.inj h]
  · rw [if_neg (by omega)]
    simp only [hpos, and_false, if_false, Option.bind_eq_bind, Option.bind_some] at h
    split_ifs at h
    · rw [← Option.some.inj h]
    · rw [← Option.some.inj h]

namespace Screen

/-- The screen has the cursor and the flags of the terminal. -/
structure Matches (s : Screen) (t : Tty) : Prop where
  /-- The cursor. -/
  arrayPointer : t.arrayPointer = s.console.arrayPointer
  /-- `shift_flag`. -/
  shiftFlag : t.shiftFlag = s.shiftFlag
  /-- `control_flag`. -/
  controlFlag : t.controlFlag = s.controlFlag

theorem Matches.echo {s : Screen} {t : Tty} (h : s.Matches t) (b : Byte) : (s.echo b).Matches (t.terminalHandler b) := by
  obtain ⟨hp, hshift, hcontrol⟩ := t.terminalHandler_screen b
  refine ⟨?_, hshift.trans h.shiftFlag, hcontrol.trans h.controlFlag⟩
  rw [hp, h.arrayPointer]
  exact Tty.echo_eq_kprintf rfl

theorem Matches.key {s s' : Screen} {t : Tty} {b : Byte} (h : s.Matches t) (hs : s.key b = some s') :
    s'.Matches (t.key b) := by
  obtain ⟨console, hc, rfl⟩ := Option.map_eq_some_iff.mp hs
  have hecho := h.echo b
  have hflag : (s.echo b).controlFlag = t.controlFlag := h.controlFlag.symm
  rw [hflag] at hc
  obtain ⟨hp, hshift⟩ := (t.terminalHandler b).printKey_screen t.controlFlag b
  refine ⟨?_, hshift.trans hecho.shiftFlag, rfl⟩
  exact hp.trans ((congrArg (keyCursor · t.controlFlag b) hecho.arrayPointer).trans
    (Console.arrayPointer_printKey hc).symm)

/-- `keyboard_intr` does the same to the cursor and to the flags of the terminal as on the screen. -/
theorem Matches.keyboardIntr {s s' : Screen} {t : Tty} {keyboardValue : ℕ} (h : s.Matches t)
    (hs : s.keyboardIntr keyboardValue = some s') :
    ∃ t', t.keyboardIntr keyboardValue = some t' ∧ s'.Matches t' := by
  have hfirst : (if keyboardValue = 28 then s.echo lineFeed else s).Matches
      (if keyboardValue = 28 then t.terminalHandler lineFeed else t) := by
    split_ifs
    · exact h.echo lineFeed
    · exact h
  unfold Screen.keyboardIntr at hs
  unfold Tty.keyboardIntr
  dsimp only at hs ⊢
  generalize (if keyboardValue = 28 then s.echo lineFeed else s) = s₁ at hs hfirst
  generalize (if keyboardValue = 28 then t.terminalHandler lineFeed else t) = t₁ at hfirst ⊢
  rw [hfirst.shiftFlag]
  split_ifs at hs ⊢
  · obtain rfl := Option.some.inj hs
    exact ⟨_, rfl, hfirst.arrayPointer, rfl, rfl⟩
  · obtain rfl := Option.some.inj hs
    exact ⟨_, rfl, hfirst.arrayPointer, rfl, hfirst.controlFlag⟩
  · obtain ⟨codes, hcodes, hs⟩ := Option.bind_eq_some_iff.mp hs
    refine ⟨_, by rw [hcodes, Option.map_some], ?_⟩
    exact Matches.key (s := { s₁ with shiftFlag := false }) ⟨hfirst.arrayPointer, rfl, hfirst.controlFlag⟩ hs
  · obtain ⟨codes, hcodes, hs⟩ := Option.bind_eq_some_iff.mp hs
    exact ⟨_, by rw [hcodes, Option.map_some], hfirst.key hs⟩
  · obtain rfl := Option.some.inj hs
    exact ⟨_, rfl, hfirst⟩

/-- Any keys that leave the cursor in the video memory do the same to the terminal. -/
theorem Matches.run {s s' : Screen} {t : Tty} {keys : List ℕ} (h : s.Matches t)
    (hs : Runs.run Screen.keyboardIntr s keys = some s') :
    ∃ t', Runs.run Tty.keyboardIntr t keys = some t' ∧ s'.Matches t' :=
  run_simulates (fun _ _ _ _ h _ _ hstep => h.keyboardIntr hstep) h (along_of_forall fun _ _ => trivial)
    (along_of_forall fun _ _ => trivial) hs

end Screen

end Nascent
