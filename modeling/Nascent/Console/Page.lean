import Nascent.Console.Model

/-!
# The console shows the end of a page

The abstract console is a page of rows of 80 cells without an end (`Page`). A character goes to the
cursor, which wraps at the end of a row, and the page never scrolls. The screen shows 24 of its rows
(`Console.Shows`). Scrolling is late: the cursor may stand behind the last row of the screen, on a row of
the page that is still blank, until the next character comes.
-/

namespace Nascent

open Bytes (Byte)

/-- A page without an end, and a cursor. -/
structure Page where
  /-- The cells, by row and column. -/
  cell : ℕ → ℕ → Byte
  /-- The row of the cursor. -/
  row : ℕ
  /-- The column of the cursor. -/
  col : ℕ

namespace Page

/-- The page on which nothing was written. -/
def blank : Page := ⟨fun _ _ => space, 0, 0⟩

/-- A character is written to the page. -/
def put (p : Page) (b : Byte) : Page :=
  if b = lineFeed then { p with row := p.row + 1, col := 0 }
  else if b = carriageReturn then { p with col := 0 }
  else
    let cell := fun r k => if r = p.row ∧ k = p.col then b else p.cell r k
    if p.col = 79 then ⟨cell, p.row + 1, 0⟩ else ⟨cell, p.row, p.col + 1⟩

end Page

namespace Console

variable {c : Console} {p : Page} {s : ℕ} {b : Byte}

/-! ## The loops over the video memory -/

/-- The loop that moves the rows up reads each cell before it is overwritten. -/
theorem foldl_move (v : ℕ → Byte) (n a : ℕ) :
    (List.range n).foldl (fun v k => Function.update v (2 * k) (v (160 + 2 * k))) v a =
      if a % 2 = 0 ∧ a < 2 * n then v (a + 160) else v a := by
  induction n generalizing a with
  | zero => rw [if_neg (by omega)]; rfl
  | succ n ih =>
    rw [List.range_succ, List.foldl_append, List.foldl_cons, List.foldl_nil]
    by_cases ha : a = 2 * n
    · rw [ha, Function.update_self, ih, if_neg (by omega), if_pos (by omega), Nat.add_comm]
    · rw [Function.update_of_ne ha, ih]
      refine if_congr ?_ rfl rfl
      omega

/-- The loop that clears cells. -/
theorem foldl_fill (v : ℕ → Byte) (x : Byte) (o n a : ℕ) :
    (List.range n).foldl (fun v k => Function.update v (o + 2 * k) x) v a =
      if o ≤ a ∧ a % 2 = o % 2 ∧ a < o + 2 * n then x else v a := by
  induction n generalizing a with
  | zero => rw [if_neg (by omega)]; rfl
  | succ n ih =>
    rw [List.range_succ, List.foldl_append, List.foldl_cons, List.foldl_nil]
    by_cases ha : a = o + 2 * n
    · rw [ha, Function.update_self, if_pos (by omega)]
    · rw [Function.update_of_ne ha, ih]
      refine if_congr ?_ rfl rfl
      omega

/-- The rows of the screen move up by one, and the last one is blank. -/
theorem scrollVideo_cell (v : ℕ → Byte) {r k : ℕ} (hr : r < 24) (hk : k < 80) :
    scrollVideo v (160 * r + 2 * k) = if r = 23 then space else v (160 * (r + 1) + 2 * k) := by
  rw [scrollVideo, foldl_fill, foldl_move]
  by_cases h23 : r = 23
  · rw [if_pos h23, if_pos]
    rw [h23, lastRow]
    omega
  · rw [if_neg h23, if_neg (by rw [lastRow]; omega), if_pos (by omega)]
    congr 1
    omega

/-- The cleared screen. -/
theorem clearScreen_cell {r k : ℕ} (hr : r < 24) (hk : k < 80) :
    c.clearScreen.video (160 * r + 2 * k) = space := by
  have hvideo : c.clearScreen.video = (List.range 1920).foldl
      (fun v k => Function.update v (2 * k) space) c.video := by rw [clearScreen]
  have hfill := foldl_fill c.video space 0 1920 (160 * r + 2 * k)
  simp only [Nat.zero_add] at hfill
  rw [hvideo, hfill, if_pos (by omega)]

/-! ## The simulation -/

/-- The screen shows the 24 rows of a page from the row `s` on. -/
structure Shows (c : Console) (p : Page) (s : ℕ) : Prop where
  /-- The cells. -/
  cell : ∀ r < 24, ∀ k < 80, c.video (160 * r + 2 * k) = p.cell (s + r) k
  /-- The cursor is not above the screen. -/
  row_ge : s ≤ p.row
  /-- It is at most at the start of the row behind the screen. -/
  row_le : p.row < s + 24 ∨ p.row = s + 24 ∧ p.col = 0
  /-- Once the page has left the top of the screen, the cursor is not above the last row. -/
  last : s = 0 ∨ s + 23 ≤ p.row
  /-- It is in a column. -/
  col_lt : p.col < 80
  /-- `array_pointer` is the place of the cursor. -/
  arrayPointer : c.arrayPointer = 160 * (p.row - s) + 2 * p.col
  /-- The rows behind the screen are blank. -/
  fresh : ∀ r, s + 24 ≤ r → ∀ k, p.cell r k = space
  /-- All characters were stored on the screen. -/
  stores : ∀ o ∈ c.stores, o < screenEnd

namespace Shows

/-- The cursor is on the screen after scrolling. -/
theorem scroll (h : c.Shows p s) : ∃ s', c.scroll.Shows p s' ∧ p.row < s' + 24 := by
  have hap := h.arrayPointer
  rcases h.row_le with hlt | ⟨hrow, hcol⟩
  · refine ⟨s, ?_, hlt⟩
    have hcol := h.col_lt
    have hge := h.row_ge
    rw [scroll_of_lt (by rw [screenEnd]; omega)]
    exact h
  · refine ⟨s + 1, ?_, by omega⟩
    rw [scroll_of_le (by rw [screenEnd]; omega)]
    refine ⟨fun r hr k hk => ?_, by omega, .inl (by omega), .inr (by omega), h.col_lt, ?_,
      fun r hr => h.fresh r (by omega), h.stores⟩
    · refine (scrollVideo_cell c.video hr hk).trans ?_
      by_cases h23 : r = 23
      · rw [if_pos h23, h.fresh (s + 1 + r) (by omega)]
      · rw [if_neg h23, h.cell (r + 1) (by omega) k hk, Nat.add_assoc, Nat.add_comm 1 r]
    · change lastRow = _
      rw [lastRow]
      omega

/-- One character, with the cursor on the screen. -/
theorem putChar (h : c.Shows p s) (hlt : p.row < s + 24) : (c.putChar b).Shows (p.put b) s := by
  obtain ⟨hcell, hge, -, hlast, hcol, hap, hfresh, hstores⟩ := h
  have hdiv : c.arrayPointer / 160 = p.row - s := by omega
  rw [Console.putChar, Page.put]
  by_cases hfeed : b = lineFeed
  · rw [if_pos hfeed, if_pos hfeed, hdiv]
    exact ⟨hcell, by dsimp only; omega, by dsimp only; omega, by dsimp only; omega, Nat.succ_pos 79,
      by dsimp only; omega, hfresh, hstores⟩
  rw [if_neg hfeed, if_neg hfeed]
  by_cases hreturn : b = carriageReturn
  · rw [if_pos hreturn, if_pos hreturn, hdiv]
    exact ⟨hcell, hge, .inl hlt, hlast, Nat.succ_pos 79, rfl, hfresh, hstores⟩
  rw [if_neg hreturn, if_neg hreturn]
  -- The cell at the cursor is the one that the character is stored in.
  have hcell' : ∀ r < 24, ∀ k < 80,
      Function.update c.video c.arrayPointer b (160 * r + 2 * k) =
        if s + r = p.row ∧ k = p.col then b else p.cell (s + r) k := by
    intro r hr k hk
    by_cases hat : s + r = p.row ∧ k = p.col
    · rw [if_pos hat, show 160 * r + 2 * k = c.arrayPointer by omega, Function.update_self]
    · rw [if_neg hat, Function.update_of_ne (by omega), hcell r hr k hk]
  have hfresh' : ∀ r, s + 24 ≤ r → ∀ k,
      (if r = p.row ∧ k = p.col then b else p.cell r k) = space := by
    intro r hr k
    rw [if_neg (by omega), hfresh r hr k]
  have hstores' : ∀ o ∈ c.stores ++ [c.arrayPointer], o < screenEnd := by
    intro o ho
    rcases List.mem_append.mp ho with ho | ho
    · exact hstores o ho
    · rw [List.mem_singleton.mp ho, screenEnd]
      omega
  by_cases hwrap : p.col = 79
  · simp only [if_pos hwrap]
    exact ⟨hcell', by dsimp only; omega, by dsimp only; omega, by dsimp only; omega, Nat.succ_pos 79,
      by dsimp only; omega, hfresh', hstores'⟩
  · simp only [if_neg hwrap]
    exact ⟨hcell', hge, .inl hlt, hlast, by dsimp only; omega, by dsimp only; omega, hfresh', hstores'⟩

/-- One call of `write_to_console`. -/
theorem writeToConsole (bs : List Byte) (h : c.Shows p s) :
    ∃ s', (c.writeToConsole bs).Shows (bs.foldl Page.put p) s' := by
  induction bs generalizing c p s with
  | nil => exact ⟨s, h⟩
  | cons b bs ih =>
    obtain ⟨s', h', hlt⟩ := h.scroll
    rw [writeToConsole_cons]
    exact ih (h'.putChar hlt)

/-- Some calls of `write_to_console`. -/
theorem calls (calls : List (List Byte)) (h : c.Shows p s) :
    ∃ s', (calls.foldl Console.writeToConsole c).Shows (calls.flatten.foldl Page.put p) s' := by
  induction calls generalizing c p s with
  | nil => exact ⟨s, h⟩
  | cons bs calls ih =>
    obtain ⟨s', h'⟩ := h.writeToConsole bs
    rw [List.foldl_cons, List.flatten_cons, List.foldl_append]
    exact ih h'

/-- The cursor is at most behind the last row. -/
theorem arrayPointer_le (h : c.Shows p s) : c.arrayPointer ≤ screenEnd := by
  have hap := h.arrayPointer
  have hcol := h.col_lt
  have hge := h.row_ge
  rw [screenEnd]
  rcases h.row_le with hlt | ⟨hrow, hcol⟩ <;> omega

end Shows

/-- The screen shows the end of a page: the 24 rows from a row on that is the first of the page, or the one for which the
cursor is in the last row of the screen, or at the start of the row behind it; the cursor is where `array_pointer` says. -/
structure ShowsEnd (c : Console) (p : Page) (top : ℕ) : Prop where
  /-- The cells. -/
  cell : ∀ r < 24, ∀ k < 80, c.video (160 * r + 2 * k) = p.cell (top + r) k
  /-- The first row, from above. -/
  top_le : top ≤ p.row
  /-- The first row, from below. -/
  le_top : p.row < top + 24 ∨ p.row = top + 24 ∧ p.col = 0
  /-- The page has only moved as far as it had to. -/
  last : top = 0 ∨ top + 23 ≤ p.row
  /-- The cursor. -/
  arrayPointer : c.arrayPointer = 160 * (p.row - top) + 2 * p.col
  /-- It has not left the screen. -/
  arrayPointer_le : c.arrayPointer ≤ 160 * 24
  /-- Every character was stored on the screen. -/
  stores : ∀ o ∈ c.stores, o < 160 * 24

theorem Shows.showsEnd (h : c.Shows p s) : c.ShowsEnd p s :=
  ⟨h.cell, h.row_ge, h.row_le, h.last, h.arrayPointer, h.arrayPointer_le, h.stores⟩

/-- The console when the screen is cleared. -/
def cleared (video : ℕ → Byte) : Console := clearScreen ⟨video, 0, [], []⟩

/-- It shows the blank page. -/
theorem shows_cleared (video : ℕ → Byte) : (cleared video).Shows Page.blank 0 :=
  ⟨fun _ hr _ hk => clearScreen_cell hr hk, le_rfl, .inl (Nat.succ_pos 23), .inl rfl, Nat.succ_pos 79, rfl,
    fun _ _ _ => rfl, fun _ ho => absurd ho List.not_mem_nil⟩

/-- After any calls of `write_to_console`, the screen shows the rows of the page from some row on,
`array_pointer` is the place of the cursor among them, and every character was stored on the screen. -/
theorem shows_page (video : ℕ → Byte) (calls : List (List Byte)) :
    let c := calls.foldl writeToConsole (cleared video)
    let p := calls.flatten.foldl Page.put Page.blank
    ∃ s, (∀ r < 24, ∀ k < 80, c.video (160 * r + 2 * k) = p.cell (s + r) k) ∧
      s ≤ p.row ∧ c.arrayPointer = 160 * (p.row - s) + 2 * p.col ∧ c.arrayPointer ≤ 160 * 24 ∧
      ∀ o ∈ c.stores, o < 160 * 24 := by
  intro c p
  obtain ⟨s, h⟩ := (shows_cleared video).calls calls
  exact ⟨s, h.cell, h.row_ge, h.arrayPointer, h.arrayPointer_le, h.stores⟩

end Console

end Nascent
