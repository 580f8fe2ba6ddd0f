import Nascent.Console.Model
import Nascent.Lib.Lines
import Nascent.Lib.Runs
import Nascent.Lib.Strings
import Mathlib.Data.List.GetD

/-!
# The terminal

`terminal_handler` and `read_buffer` of `src/sys/terminal.c`. The characters are kept in a ring of
`BUFF_SIZE` bytes. The writer wraps its index before it stores a character, and the reader after each
character of a line, but not after the newline: a newline in the last byte of the ring leaves the reader
behind the ring, and the next line is read from there.

The terminal is compared with the list of the lines that were typed. The fields `typed` and `delivered`
are not in the source and nothing depends on them. Where no line is read right after a line that has
ended in the last byte of the ring, the lines are delivered whole, once, and in order
(`TermSys.lines_in_order`).
-/

namespace Nascent

open Bytes (Byte)
open Lines Runs
open Strings (strOf)

/-- `BUFF_SIZE`. -/
def buffSize : ℕ := 2048

/-- The state of the terminal. -/
structure Terminal where
  /-- `term_buff`, and the bytes behind it. -/
  termBuff : ℕ → Byte
  /-- `r_buff_ptr`. -/
  rBuffPtr : ℕ
  /-- `w_buff_ptr`. -/
  wBuffPtr : ℕ
  /-- `terminal_line_count`. -/
  terminalLineCount : ℕ

namespace Terminal

variable (t : Terminal)

/-- `terminal_handler`, but for the echo and the call of `wake_up_task`. -/
def terminalHandler (c : Byte) : Terminal :=
  let t := if c = lineFeed then { t with terminalLineCount := t.terminalLineCount + 1 } else t
  let t := if t.wBuffPtr > buffSize - 2 then { t with wBuffPtr := t.wBuffPtr % buffSize } else t
  if c ≠ carriageReturn then
    { t with termBuff := Function.update t.termBuff t.wBuffPtr c, wBuffPtr := t.wBuffPtr + 1 }
  else t

/-- The loop of `read_buffer`, for the number of characters that the buffer has room for: what it has
read, and where it stops. -/
def readLoop (termBuff : ℕ → Byte) : ℕ → ℕ → List Byte → List Byte × ℕ
  | 0, r, line => (line, r)
  | n + 1, r, line =>
    if termBuff r = lineFeed then (line, r)
    else readLoop termBuff n ((r + 1) % buffSize) (line ++ [termBuff r])

/-- The buffer after `read_buffer`: the line, and a zero that is one byte too far. -/
def fill (buffer : ℕ → Byte) (line : List Byte) : ℕ → Byte :=
  Function.update (fun i => if i < line.length then line.getD i 0 else buffer i) (line.length + 1) 0

/-- `read_buffer`. -/
def readBuffer (buffer : ℕ → Byte) (size : ℕ) : ℕ × (ℕ → Byte) × Terminal :=
  if t.terminalLineCount ≠ 0 then
    let (line, r) := readLoop t.termBuff (size - 1) t.rBuffPtr []
    (0, fill buffer line,
      { t with rBuffPtr := r + 1, terminalLineCount := t.terminalLineCount - 1 })
  else (1, buffer, t)

/-- The index of the writer, wrapped. -/
def wrapped : ℕ := if t.wBuffPtr > buffSize - 2 then t.wBuffPtr % buffSize else t.wBuffPtr

variable {t}

/-- `\r` is not stored. -/
theorem terminalHandler_return :
    t.terminalHandler carriageReturn = { t with wBuffPtr := t.wrapped } := by
  have hfeed : carriageReturn ≠ lineFeed := by decide
  simp only [terminalHandler, if_neg hfeed, ne_eq, not_true_eq_false, if_false, wrapped]
  split <;> rfl

/-- Other characters are stored, and a newline is counted. -/
theorem terminalHandler_store {c : Byte} (hc : c ≠ carriageReturn) : t.terminalHandler c =
    { t with
      termBuff := Function.update t.termBuff t.wrapped c
      wBuffPtr := t.wrapped + 1
      terminalLineCount := t.terminalLineCount + if c = lineFeed then 1 else 0 } := by
  simp only [terminalHandler, ne_eq, hc, not_false_eq_true, if_true, wrapped]
  by_cases hfeed : c = lineFeed
  · simp only [if_pos hfeed]
    split <;> rfl
  · simp only [if_neg hfeed]
    split <;> rfl

/-- The loop of `read_buffer` reads a line and stops at its newline. -/
theorem readLoop_eq {termBuff : ℕ → Byte} : ∀ {l acc : List Byte} {n r k : ℕ},
    lineFeed ∉ l → l.length ≤ n → r = k % buffSize →
    (∀ i (hi : i < (l ++ [lineFeed]).length), termBuff ((k + i) % buffSize) = (l ++ [lineFeed])[i]) →
    readLoop termBuff n r acc = (acc ++ l, (k + l.length) % buffSize)
  | [], acc, n, r, k, _, _, hr, hget => by
    have hstop : termBuff r = lineFeed := by simpa [hr] using hget 0 (by simp)
    have hend : r = (k + 0) % buffSize := hr
    cases n with
    | zero => rw [readLoop, List.append_nil, List.length_nil, ← hend]
    | succ n => rw [readLoop, if_pos hstop, List.append_nil, List.length_nil, ← hend]
  | c :: l, acc, n + 1, r, k, hl, hn, hr, hget => by
    obtain ⟨hc, hl⟩ := not_or.mp (List.mem_cons.not.mp hl)
    have hfirst : termBuff r = c := by simpa [hr] using hget 0 (by simp)
    have hgo : termBuff r ≠ lineFeed := fun h => hc (h.symm.trans hfirst)
    have hrest : ∀ i (hi : i < (l ++ [lineFeed]).length),
        termBuff ((k + 1 + i) % buffSize) = (l ++ [lineFeed])[i] := fun i hi => by
      have hnext := hget (i + 1) (Nat.succ_lt_succ hi)
      rwa [← Nat.add_assoc, Nat.add_right_comm] at hnext
    rw [readLoop, if_neg hgo, readLoop_eq hl (Nat.le_of_succ_le_succ hn) (k := k + 1)
      (by rw [hr, Nat.mod_add_mod]) hrest, hfirst, List.append_assoc, List.singleton_append,
      List.length_cons, Nat.add_right_comm, Nat.add_assoc]

/-- A zeroed buffer holds the line. -/
theorem fill_zero {l : List Byte} : fill (fun _ => 0) l = strOf l := by
  funext i
  rw [fill, strOf]
  by_cases hi : i = l.length + 1
  · rw [hi, Function.update_self, List.getD_eq_default _ _ (Nat.le_succ _)]
  · rw [Function.update_of_ne hi]
    split
    · rfl
    · rw [List.getD_eq_default _ _ (Nat.le_of_not_lt ‹_›)]

/-- Without a line, nothing is read. -/
theorem readBuffer_none {buffer : ℕ → Byte} {size : ℕ} (h : t.terminalLineCount = 0) :
    t.readBuffer buffer size = (1, buffer, t) := by
  rw [readBuffer, if_neg (not_not.mpr h)]

/-- A line that the reader stands at is read whole. -/
theorem readBuffer_line {l : List Byte} {size k : ℕ} (hcount : t.terminalLineCount ≠ 0)
    (hl : lineFeed ∉ l) (hsize : l.length < size) (hr : t.rBuffPtr = k % buffSize)
    (hget : ∀ i (hi : i < (l ++ [lineFeed]).length),
      t.termBuff ((k + i) % buffSize) = (l ++ [lineFeed])[i]) :
    t.readBuffer (fun _ => 0) size = (0, strOf l,
      { t with
        rBuffPtr := (k + l.length) % buffSize + 1
        terminalLineCount := t.terminalLineCount - 1 }) := by
  rw [readBuffer, if_pos hcount, readLoop_eq hl (Nat.le_sub_one_of_lt hsize) hr hget, List.nil_append]
  exact congrArg (fun buffer => (0, buffer, _)) fill_zero

end Terminal

/-! ## Runs -/

/-- What happens to the terminal. -/
inductive TermOp
  /-- A character is typed. -/
  | type (c : Byte)
  /-- `read_buffer` with a zeroed buffer of a size. -/
  | read (size : ℕ)

/-- The terminal, with the characters that were typed and the buffers that were filled. -/
structure TermSys where
  /-- The terminal. -/
  term : Terminal
  /-- The characters so far, without `\r`. -/
  typed : List Byte
  /-- The buffers of the calls that have returned 0. -/
  delivered : List (ℕ → Byte)

namespace TermSys

variable (s : TermSys)

/-- The terminal at boot, with what lies in its memory. -/
def start (termBuff : ℕ → Byte) : TermSys := ⟨⟨termBuff, 0, 0, 0⟩, [], []⟩

/-- One step. -/
def step : TermOp → Option TermSys
  | .type c => some
      ⟨s.term.terminalHandler c, if c = carriageReturn then s.typed else s.typed ++ [c], s.delivered⟩
  | .read size =>
    let (code, buffer, term) := s.term.readBuffer (fun _ => 0) size
    some ⟨term, s.typed, if code = 0 then s.delivered ++ [buffer] else s.delivered⟩

/-- The line that the next call reads. -/
def pending : Option (List Byte) := (lines lineFeed s.typed)[s.delivered.length]?

/-- The number of characters of the lines that were read, with their newlines. -/
def consumed : ℕ := (joined lineFeed ((lines lineFeed s.typed).take s.delivered.length)).length

/-- There are never more than `BUFF_SIZE` characters that were not read, and a buffer is larger than the
line that is read. -/
def Admissible : TermOp → Prop
  | .type c => c = carriageReturn ∨ s.typed.length - s.consumed < buffSize
  | .read size => ∀ l, s.pending = some l → l.length < size

/-- No line is read right after a line that has ended in the last byte of the ring. -/
def Fits : TermOp → Prop
  | .type _ => True
  | .read _ => s.pending = none ∨ s.consumed = 0 ∨ s.consumed % buffSize ≠ 0

/-! ## The ring -/

/-- The lines `ls` were read, the characters `rest` are in the ring, and `m` lies behind it. -/
structure Ring (s : TermSys) (m : ℕ → Byte) (ls : List (List Byte)) (rest : List Byte) : Prop where
  /-- The characters. -/
  typed : s.typed = joined lineFeed ls ++ rest
  /-- The lines are lines. -/
  notMem : ∀ l ∈ ls, lineFeed ∉ l
  /-- The lines were delivered. -/
  delivered : s.delivered = ls.map strOf
  /-- The place of the next character. -/
  writer : s.term.wBuffPtr % buffSize = s.typed.length % buffSize ∧ s.term.wBuffPtr ≤ buffSize
  /-- The place of the next line: behind the newline of the last one. -/
  reader : s.term.rBuffPtr = if joined lineFeed ls = [] then 0
    else ((joined lineFeed ls).length - 1) % buffSize + 1
  /-- The characters in the ring. -/
  get : ∀ i (hi : i < rest.length),
    s.term.termBuff (((joined lineFeed ls).length + i) % buffSize) = rest[i]
  /-- They fit. -/
  length_le : rest.length ≤ buffSize
  /-- The lines in the ring. -/
  count : s.term.terminalLineCount = rest.count lineFeed
  /-- The bytes behind the ring. -/
  behind : ∀ j, buffSize ≤ j → s.term.termBuff j = m j

namespace Ring

variable {s} {m : ℕ → Byte} {ls : List (List Byte)} {rest l : List Byte} (h : s.Ring m ls rest)

include h

theorem lines_typed : lines lineFeed s.typed = ls ++ lines lineFeed rest := by
  rw [h.typed, lines_joined h.notMem]

theorem length_delivered : s.delivered.length = ls.length := by
  rw [h.delivered, List.length_map]

theorem pending_eq : s.pending = (lines lineFeed rest).head? := by
  rw [pending, h.lines_typed, h.length_delivered, List.getElem?_append_right le_rfl, Nat.sub_self,
    List.head?_eq_getElem?]

theorem consumed_eq : s.consumed = (joined lineFeed ls).length := by
  rw [consumed, h.lines_typed, h.length_delivered, List.take_left']
  rfl

theorem length_typed : s.typed.length = s.consumed + rest.length := by
  rw [h.typed, List.length_append, h.consumed_eq]

/-- The line that is pending starts what is in the ring. -/
theorem rest_of_pending (hp : s.pending = some l) :
    ∃ rest', lineFeed ∉ l ∧ rest = l ++ lineFeed :: rest' := by
  have hmem : lineFeed ∈ rest := by
    by_contra hnot
    have hlen : (lines lineFeed rest).length = rest.count lineFeed := length_lines
    rw [List.count_eq_zero.mpr hnot, List.length_eq_zero_iff] at hlen
    rw [h.pending_eq, hlen] at hp
    cases hp
  obtain ⟨l', rest', hrest, hl'⟩ := List.eq_append_cons_of_mem hmem
  rw [h.pending_eq, hrest, lines_append_cons hl'] at hp
  obtain rfl : l' = l := Option.some.inj hp
  exact ⟨rest', hl', hrest⟩

/-- Without a pending line, the count is 0. -/
theorem count_eq_zero_iff : s.term.terminalLineCount = 0 ↔ s.pending = none := by
  rw [h.count, h.pending_eq, List.head?_eq_none_iff, ← List.length_eq_zero_iff, length_lines]

/-! ## Typing -/

/-- The place of the next character, once the index is wrapped. -/
theorem wrapped_eq : s.term.wrapped = s.typed.length % buffSize := by
  obtain ⟨hmod, hle⟩ := h.writer
  rw [Terminal.wrapped, buffSize]
  rw [buffSize] at hmod hle
  split <;> omega

/-- A character is typed. -/
theorem type {c : Byte} {t : TermSys} (hroom : s.Admissible (.type c)) (hs : s.step (.type c) = some t) :
    t.Ring m ls (if c = carriageReturn then rest else rest ++ [c]) := by
  have hpos : 0 < buffSize := by decide
  by_cases hc : c = carriageReturn
  · subst hc
    rw [if_pos rfl]
    rw [step, Terminal.terminalHandler_return, if_pos rfl, h.wrapped_eq] at hs
    obtain rfl := Option.some.inj hs
    refine ⟨h.typed, h.notMem, h.delivered, ⟨?_, ?_⟩, h.reader, h.get, h.length_le, h.count,
      h.behind⟩
    · exact Nat.mod_mod ..
    · exact (Nat.mod_lt _ hpos).le
  · rw [if_neg hc]
    rw [step, Terminal.terminalHandler_store hc, if_neg hc, h.wrapped_eq] at hs
    obtain rfl := Option.some.inj hs
    have hlen := h.length_typed
    have hfree : rest.length < buffSize := by
      have := hroom.resolve_left hc
      omega
    have hplace : s.typed.length = (joined lineFeed ls).length + rest.length := by
      rw [← h.consumed_eq, hlen]
    refine ⟨?_, h.notMem, h.delivered, ⟨?_, ?_⟩, h.reader, fun i hi => ?_, ?_, ?_,
      fun j hj => ?_⟩
    · exact (congrArg (· ++ [c]) h.typed).trans (List.append_assoc ..)
    · rw [List.length_append, List.length_singleton, Nat.mod_add_mod]
    · exact Nat.mod_lt _ hpos
    · -- The place is not that of a character that was not read.
      rw [List.length_append, List.length_singleton] at hi
      by_cases hlast : i = rest.length
      · subst hlast
        rw [List.getElem_concat_length rfl, ← hplace]
        exact Function.update_self ..
      · have hi' : i < rest.length := by omega
        have hne : ((joined lineFeed ls).length + i) % buffSize ≠ s.typed.length % buffSize := by
          rw [hplace, buffSize]
          rw [buffSize] at hfree
          omega
        rw [List.getElem_append_left hi', ← h.get i hi']
        exact Function.update_of_ne hne ..
    · rw [List.length_append, List.length_singleton]
      exact hfree
    · rw [h.count, List.count_append, List.count_singleton]
      simp only [beq_iff_eq]
    · have hne : j ≠ s.typed.length % buffSize := by
        have := Nat.mod_lt s.typed.length hpos
        omega
      exact (Function.update_of_ne hne ..).trans (h.behind j hj)

/-! ## Reading -/

/-- Without a line, nothing changes. -/
theorem read_none {size : ℕ} {t : TermSys} (hp : s.pending = none)
    (hs : s.step (.read size) = some t) : t = s := by
  rw [step, Terminal.readBuffer_none (h.count_eq_zero_iff.mpr hp)] at hs
  exact (Option.some.inj hs).symm

/-- The reader stands at the first character that was not read. -/
theorem reader_eq (hfits : s.consumed = 0 ∨ s.consumed % buffSize ≠ 0) :
    s.term.rBuffPtr = (joined lineFeed ls).length % buffSize := by
  rw [h.consumed_eq] at hfits
  rw [h.reader]
  split
  · rename_i hnil
    rw [hnil, List.length_nil, Nat.zero_mod]
  · rename_i hcons
    have hlen := List.length_pos_of_ne_nil hcons
    rw [buffSize] at hfits ⊢
    omega

/-- The first line in the ring. -/
theorem get_line {rest' : List Byte} (hrest : rest = l ++ lineFeed :: rest') (i : ℕ)
    (hi : i < (l ++ [lineFeed]).length) :
    s.term.termBuff (((joined lineFeed ls).length + i) % buffSize) = (l ++ [lineFeed])[i] := by
  have hsplit : rest = (l ++ [lineFeed]) ++ rest' := by simp [hrest]
  have hi' : i < rest.length := by
    rw [hsplit, List.length_append]
    omega
  rw [h.get i hi']
  simp only [hsplit, List.getElem_append_left hi]

/-- A line is read. -/
theorem read {rest' : List Byte} {size : ℕ} {t : TermSys} (hrest : rest = l ++ lineFeed :: rest')
    (hl : lineFeed ∉ l) (hsize : l.length < size)
    (hfits : s.consumed = 0 ∨ s.consumed % buffSize ≠ 0) (hs : s.step (.read size) = some t) :
    t.Ring m (ls ++ [l]) rest' := by
  have hstart := h.reader_eq hfits
  have hget := h.get_line hrest
  subst hrest
  have hcount : s.term.terminalLineCount ≠ 0 := by
    rw [h.count, List.count_append, List.count_cons_self]
    omega
  rw [step, Terminal.readBuffer_line hcount hl hsize hstart hget] at hs
  obtain rfl := Option.some.inj hs
  have hjoin : joined lineFeed (ls ++ [l]) ≠ [] := by simp
  have hlen : (joined lineFeed (ls ++ [l])).length = (joined lineFeed ls).length + l.length + 1 := by
    simp
    omega
  refine ⟨?_, ?_, ?_, h.writer, ?_, fun i hi => ?_, ?_, ?_, h.behind⟩
  · rw [joined_concat, h.typed]
    simp
  · intro l' hl'
    rcases List.mem_append.mp hl' with hl' | hl'
    · exact h.notMem l' hl'
    · exact List.mem_singleton.mp hl' ▸ hl
  · rw [List.map_append, ← h.delivered]
    rfl
  · rw [if_neg hjoin, hlen]
    rfl
  · -- What is left in the ring lies behind the line.
    have hi' : l.length + 1 + i < (l ++ lineFeed :: rest').length := by
      rw [List.length_append, List.length_cons]
      omega
    have hnext := h.get (l.length + 1 + i) hi'
    rw [hlen, Nat.add_assoc, Nat.add_assoc, ← Nat.add_assoc l.length]
    refine hnext.trans ?_
    rw [List.getElem_append_right (by omega)]
    simp [Nat.add_assoc, Nat.add_comm 1]
  · have hle := h.length_le
    rw [List.length_append, List.length_cons] at hle
    omega
  · change s.term.terminalLineCount - 1 = _
    rw [h.count, List.count_append, List.count_eq_zero.mpr hl, List.count_cons_self]
    omega

/-- Any step. -/
theorem step {op : TermOp} {t : TermSys} (hop : s.Admissible op) (hfits : s.Fits op)
    (hs : s.step op = some t) : ∃ ls' rest', t.Ring m ls' rest' := by
  cases op with
  | type c => exact ⟨ls, _, h.type hop hs⟩
  | read size =>
    rcases hp : s.pending with _ | l
    · rw [h.read_none hp hs]
      exact ⟨ls, rest, h⟩
    · obtain ⟨rest', hl, hrest⟩ := h.rest_of_pending hp
      have hfits := hfits.resolve_left (by simp [hp])
      exact ⟨ls ++ [l], rest', h.read hrest hl (hop l hp) hfits hs⟩

end Ring

/-- At boot, the ring is empty. -/
theorem ring_start {m : ℕ → Byte} : (start m).Ring m [] [] where
  typed := rfl
  notMem := fun _ h => absurd h List.not_mem_nil
  delivered := rfl
  writer := ⟨rfl, Nat.zero_le _⟩
  reader := rfl
  get := fun _ h => absurd h (Nat.not_lt_zero _)
  length_le := Nat.zero_le _
  count := rfl
  behind := fun _ _ => rfl

/-- The `k`-th call that has returned 0 has stored the `k`-th line, and a call returns 1 where no line is
pending. -/
def InOrder (s : TermSys) : Prop :=
  (∀ (k : ℕ) buffer, s.delivered[k]? = some buffer →
    ∃ l, (lines lineFeed s.typed)[k]? = some l ∧ buffer = strOf l) ∧
  ∀ size, (s.term.readBuffer (fun _ => 0) size).1 = 1 ↔ s.pending = none

/-- The lines in the ring are those that were not delivered. -/
theorem Ring.inOrder {s : TermSys} {m : ℕ → Byte} {ls : List (List Byte)} {rest : List Byte}
    (h : s.Ring m ls rest) : s.InOrder := by
  refine ⟨fun k buffer hk => ?_, fun size => ?_⟩
  · rw [h.delivered, List.getElem?_map] at hk
    obtain ⟨l, hl, rfl⟩ := Option.map_eq_some_iff.mp hk
    obtain ⟨hlen, -⟩ := List.getElem?_eq_some_iff.mp hl
    exact ⟨l, by rw [h.lines_typed, List.getElem?_append_left hlen, hl], rfl⟩
  · rw [← h.count_eq_zero_iff, Terminal.readBuffer]
    split
    · rename_i hcount
      simpa using hcount
    · rename_i hcount
      simpa using hcount

/-- The lines are delivered whole, once, and in order, where no line is read right after a line that has
ended in the last byte of the ring. -/
theorem lines_in_order {m : ℕ → Byte} {ops : List TermOp} {s : TermSys}
    (hops : Along step Admissible (start m) ops) (hfits : Along step Fits (start m) ops)
    (hvisit : Visits step (start m) ops s) : s.InOrder := by
  have hstep : ∀ (s : TermSys) op t, (∃ ls rest, s.Ring m ls rest) → (s.Admissible op ∧ s.Fits op) →
      s.step op = some t → ∃ ls rest, t.Ring m ls rest := by
    rintro s op t ⟨ls, rest, h⟩ ⟨hop, hfits⟩ hs
    exact h.step hop hfits hs
  obtain ⟨ls, rest, h⟩ := hvisit.invariant (hops.and hfits) hstep ⟨[], [], ring_start⟩
  exact h.inOrder

/-- A line is typed and read. -/
theorem lines_in_order_one :
    Along step Admissible (start fun _ => 0) [.type 97, .type lineFeed, .read 5] ∧
    Along step Fits (start fun _ => 0) [.type 97, .type lineFeed, .read 5] ∧
    ∀ s, Visits step (start fun _ => 0) [.type 97, .type lineFeed, .read 5] s → s.InOrder := by
  have hops : Along step Admissible (start fun _ => 0) [.type 97, .type lineFeed, .read 5] := by
    refine ⟨.inr (by decide), fun s hs => ?_⟩
    obtain rfl := Option.some.inj hs
    refine ⟨.inr (by decide), fun s hs => ?_⟩
    obtain rfl := Option.some.inj hs
    refine ⟨fun l hl => ?_, fun _ _ => trivial⟩
    obtain rfl : [97] = l := Option.some.inj hl
    decide
  have hfits : Along step Fits (start fun _ => 0) [.type 97, .type lineFeed, .read 5] := by
    refine ⟨trivial, fun s hs => ⟨trivial, fun t ht => ⟨.inr (.inl ?_), fun _ _ => trivial⟩⟩⟩
    obtain rfl := Option.some.inj hs
    obtain rfl := Option.some.inj ht
    rfl
  exact ⟨hops, hfits, fun s hvisit => lines_in_order hops hfits hvisit⟩

/-- Several characters are typed. -/
theorem Ring.types {m : ℕ → Byte} {ls : List (List Byte)} : ∀ {cs rest : List Byte} {s : TermSys},
    s.Ring m ls rest → carriageReturn ∉ cs → rest.length + cs.length ≤ buffSize →
    Along TermSys.step Admissible s (cs.map .type) ∧
      ∃ t, run TermSys.step s (cs.map .type) = some t ∧ t.Ring m ls (rest ++ cs)
  | [], rest, s, h, _, _ => ⟨trivial, s, rfl, by rwa [List.append_nil]⟩
  | c :: cs, rest, s, h, hcs, hlen => by
    obtain ⟨hc, hcs⟩ := not_or.mp (List.mem_cons.not.mp hcs)
    rw [List.length_cons] at hlen
    have hroom : s.Admissible (.type c) := by
      have := h.length_typed
      exact .inr (by omega)
    obtain ⟨t, ht⟩ : ∃ t, s.step (.type c) = some t := ⟨_, rfl⟩
    have hring := h.type hroom ht
    rw [if_neg (Ne.symm hc)] at hring
    have hlen' : (rest ++ [c]).length + cs.length ≤ buffSize := by
      rw [List.length_append, List.length_singleton]
      omega
    obtain ⟨halong, u, hrun, hu⟩ := hring.types hcs hlen'
    refine ⟨⟨hroom, fun t' ht' => ?_⟩, u, ?_, ?_⟩
    · rw [ht] at ht'
      exact Option.some.inj ht' ▸ halong
    · rw [List.map_cons, run_cons, ht]
      exact hrun
    · rwa [List.append_assoc, List.singleton_append] at hu

/-- A buffer that is larger than the ring is large enough. -/
theorem Ring.admissible_read {s : TermSys} {m : ℕ → Byte} {ls : List (List Byte)} {rest : List Byte}
    (h : s.Ring m ls rest) : s.Admissible (.read (buffSize + 1)) := by
  intro l hp
  obtain ⟨rest', -, hrest⟩ := h.rest_of_pending hp
  have hle := h.length_le
  rw [hrest, List.length_append] at hle
  omega

/-- A line that fills the ring. -/
def longLine : List Byte := List.replicate (buffSize - 1) 97

/-- A line is typed and read. -/
def typeAndRead (l : List Byte) : List TermOp :=
  (l ++ [lineFeed]).map .type ++ [.read (buffSize + 1)]

/-- The terminal before the line is read. -/
theorem Ring.typeAndRead {s : TermSys} {m : ℕ → Byte} {ls : List (List Byte)} {l : List Byte}
    (h : s.Ring m ls []) (hl : carriageReturn ∉ l) (hlen : l.length < buffSize) :
    Along TermSys.step Admissible s (TermSys.typeAndRead l) ∧ ∃ t : TermSys, t.Ring m ls (l ++ [lineFeed]) ∧
      run TermSys.step s (TermSys.typeAndRead l) = t.step (.read (buffSize + 1)) := by
  have hreturn : carriageReturn ∉ l ++ [lineFeed] := by
    intro hmem
    rcases List.mem_append.mp hmem with hmem | hmem
    · exact hl hmem
    · exact absurd (List.mem_singleton.mp hmem) (by decide)
  have hroom : ([] : List Byte).length + (l ++ [lineFeed]).length ≤ buffSize := by
    rw [List.length_append, List.length_singleton, List.length_nil]
    omega
  obtain ⟨halong, t, hrun, ht⟩ := h.types hreturn hroom
  refine ⟨halong.concat fun u hu => ?_, t, ht, ?_⟩
  · obtain rfl := Option.some.inj (hrun.symm.trans hu)
    exact ht.admissible_read
  · rw [TermSys.typeAndRead, run_append, hrun, Option.bind_some, run_cons]
    exact Option.bind_some ..

/-- The second of two lines loses its first character, where the first has ended in the last byte of the
ring. -/
theorem second_line_damaged :
    ¬ ∀ ops s, Along step Admissible (start fun _ => 0) ops →
      run step (start fun _ => 0) ops = some s → s.InOrder := by
  intro hall
  have hlong : longLine.length = buffSize - 1 := List.length_replicate
  have hfeed : lineFeed ∉ longLine := fun h => absurd (List.eq_of_mem_replicate h) (by decide)
  have hreturn : carriageReturn ∉ longLine := fun h => absurd (List.eq_of_mem_replicate h) (by decide)
  have hlt : longLine.length < buffSize := by
    rw [hlong]
    decide
  -- The first line is typed and read.
  obtain ⟨halong₁, s₁, h₁, hrun₁⟩ := (ring_start (m := fun _ => 0)).typeAndRead hreturn hlt
  obtain ⟨s₂, hs₂⟩ : ∃ t, s₁.step (.read (buffSize + 1)) = some t := ⟨_, rfl⟩
  rw [hs₂] at hrun₁
  have h₂ := h₁.read rfl hfeed (Nat.lt_succ_of_lt hlt) (.inl h₁.consumed_eq) hs₂
  -- The second line is typed, and the reader stands behind the ring.
  obtain ⟨halong₃, s₃, h₃, hrun₃⟩ := h₂.typeAndRead (l := [98]) (by decide) (by decide)
  have hjoin : (joined lineFeed ([] ++ [longLine])).length = buffSize := by
    simp [joined, hlong, buffSize]
  have hne : joined lineFeed ([] ++ [longLine]) ≠ [] := List.ne_nil_of_length_pos (by rw [hjoin]; decide)
  have hreader : s₃.term.rBuffPtr = buffSize := by
    rw [h₃.reader, if_neg hne, hjoin]
    rfl
  have hbehind : s₃.term.termBuff buffSize = 0 := h₃.behind buffSize le_rfl
  have hsecond : s₃.term.termBuff 1 = lineFeed := by
    have hget := h₃.get 1 (by decide)
    rw [hjoin] at hget
    exact hget
  have hcount : s₃.term.terminalLineCount ≠ 0 := by
    rw [h₃.count]
    decide
  -- The byte behind the ring is read in the place of the first character.
  have hloop : Terminal.readLoop s₃.term.termBuff (2046 + 1 + 1) buffSize [] = ([0], 1) := by
    rw [Terminal.readLoop, if_neg (by rw [hbehind]; decide), hbehind, Nat.add_mod_left]
    rw [Terminal.readLoop, if_pos (show s₃.term.termBuff (1 % buffSize) = lineFeed from hsecond)]
    rfl
  have hread : s₃.term.readBuffer (fun _ => 0) (buffSize + 1) = (0, strOf [0],
      { s₃.term with rBuffPtr := 2, terminalLineCount := s₃.term.terminalLineCount - 1 }) := by
    rw [Terminal.readBuffer, if_pos hcount, hreader, show buffSize + 1 - 1 = 2046 + 1 + 1 from rfl, hloop]
    exact congrArg (fun buffer => (0, buffer, _)) Terminal.fill_zero
  obtain ⟨s₄, hs₄, htyped, hdelivered⟩ : ∃ t, s₃.step (.read (buffSize + 1)) = some t ∧
      t.typed = s₃.typed ∧ t.delivered = s₃.delivered ++ [strOf [0]] := by
    rw [step, hread]
    exact ⟨_, rfl, rfl, rfl⟩
  have halong : Along step Admissible (start fun _ => 0) (typeAndRead longLine ++ typeAndRead [98]) :=
    halong₁.append fun t ht => Option.some.inj (hrun₁.symm.trans ht) ▸ halong₃
  have hrun : run step (start fun _ => 0) (typeAndRead longLine ++ typeAndRead [98]) = some s₄ := by
    rw [run_append, hrun₁, Option.bind_some, hrun₃, hs₄]
  have horder := hall _ s₄ halong hrun
  obtain ⟨l, hl, hbuffer⟩ := horder.1 1 (strOf [0]) (by rw [hdelivered, h₃.delivered]; rfl)
  rw [htyped, h₃.lines_typed] at hl
  obtain rfl : [98] = l := Option.some.inj hl
  exact absurd (congrFun hbuffer 0) (by decide)

end TermSys

end Nascent
