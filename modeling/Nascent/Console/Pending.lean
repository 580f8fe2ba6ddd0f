import Nascent.Console.Terminal

/-!
# The counter of pending lines

Every call of `read_buffer` of `src/sys/terminal.c` that does not wait moves past one more character than it
delivers, and takes one line off the counter. This is right where the loop has stopped at a newline. Where
it has stopped because the caller's buffer is full, the character is lost and the newline of the line is
still to come (`full_buffer_drifts`). `PendSys` has, for each call, what it has delivered and the character
behind it. Where the lines fit the buffers, and none is read right after a line that has ended in the last
byte of the ring, these characters are all newlines and the counter is the number of newlines that have not
been read (`counter_exact`).
-/

namespace Nascent

open Bytes (Byte)
open Lines Runs

/-- What `read_buffer` delivers with a buffer of a size, and the character that it moves past. -/
def Terminal.readPast (t : Terminal) (size : ℕ) : List Byte × Byte :=
  ((readLoop t.termBuff (size - 1) t.rBuffPtr []).1,
    t.termBuff (readLoop t.termBuff (size - 1) t.rBuffPtr []).2)

/-- The terminal with the calls of `read_buffer` that did not wait. -/
structure PendSys where
  /-- The terminal. -/
  sys : TermSys
  /-- What each call has delivered, and the character that it has moved past. -/
  calls : List (List Byte × Byte)

namespace PendSys

variable (s : PendSys)

/-- The terminal at boot. -/
def start (termBuff : ℕ → Byte) : PendSys := ⟨TermSys.start termBuff, []⟩

/-- The calls after a step. -/
def called : TermOp → List (List Byte × Byte)
  | .type _ => s.calls
  | .read size =>
    if s.sys.term.terminalLineCount = 0 then s.calls else s.calls ++ [s.sys.term.readPast size]

/-- One step. -/
def step (s : PendSys) (op : TermOp) : Option PendSys := (s.sys.step op).map fun t => ⟨t, s.called op⟩

/-- The characters that the reader has moved past. -/
def passed : List Byte := s.calls.flatMap fun x => x.1 ++ [x.2]

/-- The characters that were typed and that the reader has not moved past. -/
def unread : List Byte := s.sys.typed.drop s.passed.length

/-- There are never more than `BUFF_SIZE` unread characters, and a buffer has room for one character and the
zero behind it. -/
def Domain : TermOp → Prop
  | .type c => c = carriageReturn ∨ s.unread.length < buffSize
  | .read size => 2 ≤ size

/-- The line that a call reads fits the buffer, and it does not follow a line that has ended in the last byte
of the ring. -/
def Fits : TermOp → Prop
  | .type _ => True
  | .read size => lineFeed ∉ s.unread ∨
      (s.unread.takeWhile (· ≠ lineFeed)).length < size ∧
        (s.passed.length = 0 ∨ s.passed.length % buffSize ≠ 0)

/-- The counter is the number of newlines in the unread part of the ring, and the reader has moved past the
characters in the order in which they were typed, without leaving out any but newlines. -/
structure Exact : Prop where
  /-- The counter. -/
  count : s.sys.term.terminalLineCount = s.unread.count lineFeed
  /-- The order. -/
  passed : s.passed <+: s.sys.typed
  /-- The characters that were not delivered. -/
  skipped : ∀ x ∈ s.calls, x.2 = lineFeed
  /-- The unread part lies in the ring from the place of the reader on. -/
  get : ∀ i (hi : i < s.unread.length),
    s.sys.term.termBuff ((s.sys.term.rBuffPtr + i) % buffSize) = s.unread[i]
  /-- The place of the writer is behind it. -/
  writer : s.sys.term.wBuffPtr % buffSize = (s.sys.term.rBuffPtr + s.unread.length) % buffSize

/-- The calls have read the lines `ls`. -/
def HasRead (m : ℕ → Byte) (ls : List (List Byte)) : Prop :=
  s.calls = ls.map (·, lineFeed) ∧ s.sys.Ring m ls s.unread

variable {s} {t : PendSys} {m : ℕ → Byte} {ls : List (List Byte)} {op : TermOp}

namespace HasRead

variable (h : s.HasRead m ls)

include h

/-- The calls have moved past the lines with their newlines. -/
theorem passed_eq : s.passed = joined lineFeed ls := by
  rw [passed, h.1, List.flatMap_map, joined]

theorem typed_eq : s.sys.typed = s.passed ++ s.unread := by
  rw [h.2.typed, h.passed_eq]

theorem consumed_eq : s.sys.consumed = s.passed.length := by
  rw [h.2.consumed_eq, h.passed_eq]

/-- The place of the reader. -/
theorem reader_mod : s.sys.term.rBuffPtr % buffSize = s.passed.length % buffSize := by
  rw [h.2.reader, h.passed_eq]
  split
  · rename_i hnil
    rw [hnil, List.length_nil]
  · rename_i hcons
    have hlen := List.length_pos_of_ne_nil hcons
    rw [Nat.mod_add_mod, Nat.sub_add_cancel hlen]

/-- The counter is exact. -/
theorem exact : s.Exact := by
  have hmod := h.reader_mod
  refine ⟨h.2.count, ⟨s.unread, h.typed_eq.symm⟩, fun x hx => ?_, fun i hi => ?_, ?_⟩
  · rw [h.1] at hx
    obtain ⟨l, -, rfl⟩ := List.mem_map.mp hx
    rfl
  · rw [Nat.add_mod, hmod, ← Nat.add_mod, h.passed_eq]
    exact h.2.get i hi
  · rw [Nat.add_mod, hmod, ← Nat.add_mod, ← List.length_append, ← h.typed_eq]
    exact h.2.writer.1

/-- A character is typed. -/
theorem type {c : Byte} (hroom : s.Domain (.type c)) (hs : s.step (.type c) = some t) :
    t.HasRead m ls := by
  obtain ⟨sys, hsys, rfl⟩ := Option.map_eq_some_iff.mp hs
  have hlen : s.sys.typed.length - s.sys.consumed = s.unread.length := by
    rw [h.consumed_eq, unread, List.length_drop]
  have hroom : s.sys.Admissible (.type c) := by
    unfold TermSys.Admissible
    rw [hlen]
    exact hroom
  have hring := h.2.type hroom hsys
  have htyped := hring.typed
  have hunread : unread ⟨sys, s.calls⟩ = if c = carriageReturn then s.unread else s.unread ++ [c] := by
    have hpassed : passed ⟨sys, s.calls⟩ = joined lineFeed ls := h.passed_eq
    unfold unread
    rw [hpassed, htyped, List.drop_left]
    rfl
  exact ⟨h.1, hunread ▸ hring⟩

/-- A call that waits changes nothing. -/
theorem read_none {size : ℕ} (hnone : lineFeed ∉ s.unread) (hs : s.step (.read size) = some t) : t = s := by
  obtain ⟨sys, hsys, rfl⟩ := Option.map_eq_some_iff.mp hs
  have hcount : s.sys.term.terminalLineCount = 0 := by
    rw [h.2.count, List.count_eq_zero]
    exact hnone
  have hpending := h.2.count_eq_zero_iff.mp hcount
  rw [h.2.read_none hpending hsys, called, if_pos hcount]

/-- A call reads a line. -/
theorem read {size : ℕ} (hline : lineFeed ∈ s.unread)
    (hsize : (s.unread.takeWhile (· ≠ lineFeed)).length < size)
    (hfits : s.passed.length = 0 ∨ s.passed.length % buffSize ≠ 0)
    (hs : s.step (.read size) = some t) : ∃ ls', t.HasRead m ls' := by
  obtain ⟨sys, hsys, rfl⟩ := Option.map_eq_some_iff.mp hs
  obtain ⟨l, rest', hrest, hl⟩ := List.eq_append_cons_of_mem hline
  have hall : ∀ x ∈ l, decide (x ≠ lineFeed) = true := by
    intro x hx
    exact decide_eq_true fun heq => hl (heq ▸ hx)
  have htake : s.unread.takeWhile (· ≠ lineFeed) = l := by
    rw [hrest, List.takeWhile_append_of_pos hall, List.takeWhile_cons_of_neg (by simp), List.append_nil]
  rw [htake] at hsize
  rw [← h.consumed_eq] at hfits
  have hring := h.2.read hrest hl hsize hfits hsys
  -- The loop stops at the newline behind the line.
  have hloop : Terminal.readLoop s.sys.term.termBuff (size - 1) s.sys.term.rBuffPtr [] =
      (l, ((joined lineFeed ls).length + l.length) % buffSize) :=
    Terminal.readLoop_eq hl (Nat.le_sub_one_of_lt hsize) (h.2.reader_eq hfits) (h.2.get_line hrest)
  have hstop : s.sys.term.termBuff (((joined lineFeed ls).length + l.length) % buffSize) = lineFeed := by
    rw [h.2.get_line hrest l.length (by simp)]
    simp
  have hcount : s.sys.term.terminalLineCount ≠ 0 := by
    rw [h.2.count, hrest, List.count_append, List.count_cons_self]
    omega
  have hcalls : s.called (.read size) = (ls ++ [l]).map (·, lineFeed) := by
    rw [called, if_neg hcount, Terminal.readPast, hloop, hstop, h.1, List.map_append]
    rfl
  refine ⟨ls ++ [l], hcalls, ?_⟩
  have hunread : unread ⟨sys, s.called (.read size)⟩ = rest' := by
    have hpassed : passed ⟨sys, s.called (.read size)⟩ = joined lineFeed (ls ++ [l]) := by
      rw [passed, hcalls, List.flatMap_map, joined]
    unfold unread
    rw [hpassed, hring.typed, List.drop_left]
  rwa [hunread]

end HasRead

/-- Any step. -/
theorem hasRead_step (h : ∃ ls, s.HasRead m ls) (hdomain : s.Domain op) (hfits : s.Fits op)
    (hs : s.step op = some t) : ∃ ls, t.HasRead m ls := by
  obtain ⟨ls, h⟩ := h
  cases op with
  | type c => exact ⟨ls, h.type hdomain hs⟩
  | read size =>
    rcases hfits with hnone | ⟨hsize, hfits⟩
    · exact ⟨ls, h.read_none hnone hs ▸ h⟩
    · by_cases hline : lineFeed ∈ s.unread
      · exact h.read hline hsize hfits hs
      · exact ⟨ls, h.read_none hline hs ▸ h⟩

/-- The counter is exact in every state of a run in which the lines fit the buffers, and none is read right
after a line that has ended in the last byte of the ring. -/
theorem counter_exact (termBuff : ℕ → Byte) (ops : List TermOp)
    (hdomain : Along step Domain (start termBuff) ops) (hfits : Along step Fits (start termBuff) ops)
    (t : PendSys) (hvisit : Visits step (start termBuff) ops t) : t.Exact := by
  have hstart : ∃ ls, (start termBuff).HasRead termBuff ls := ⟨[], rfl, TermSys.ring_start⟩
  obtain ⟨ls, h⟩ := hvisit.invariant (hdomain.and hfits)
    (fun _ _ _ h hop hs => hasRead_step h hop.1 hop.2 hs) hstart
  exact h.exact

/-- A line of two characters is typed and read with a buffer of three. -/
theorem counter_exact_line : ∃ t, run step (start fun _ => 0)
    [.type 97, .type 98, .type lineFeed, .read 3] = some t ∧ t.calls = [([97, 98], lineFeed)] ∧ t.Exact := by
  have hdomain : Along step Domain (start fun _ => 0) [.type 97, .type 98, .type lineFeed, .read 3] := by
    refine ⟨.inr (by decide), fun s hs => ?_⟩
    obtain rfl := Option.some.inj hs
    refine ⟨.inr (by decide), fun s hs => ?_⟩
    obtain rfl := Option.some.inj hs
    refine ⟨.inr (by decide), fun s hs => ?_⟩
    obtain rfl := Option.some.inj hs
    exact ⟨show 2 ≤ 3 by decide, fun _ _ => trivial⟩
  have hfits : Along step Fits (start fun _ => 0) [.type 97, .type 98, .type lineFeed, .read 3] := by
    refine ⟨trivial, fun s hs => ⟨trivial, fun t ht => ⟨trivial, fun u hu => ⟨.inr ⟨?_, .inl ?_⟩, ?_⟩⟩⟩⟩
    · obtain rfl := Option.some.inj hs
      obtain rfl := Option.some.inj ht
      obtain rfl := Option.some.inj hu
      decide
    · obtain rfl := Option.some.inj hs
      obtain rfl := Option.some.inj ht
      obtain rfl := Option.some.inj hu
      rfl
    · exact fun _ _ => trivial
  obtain ⟨t, ht, hcalls⟩ : ∃ t, run step (start fun _ => 0) [.type 97, .type 98, .type lineFeed, .read 3] =
      some t ∧ t.calls = [([97, 98], lineFeed)] := ⟨_, rfl, rfl⟩
  exact ⟨t, ht, hcalls, counter_exact (fun _ => 0) _ hdomain hfits t (visits_of_run ht)⟩

/-- With a buffer of two, the second character is lost, and the counter is 0 while a newline is unread. -/
theorem full_buffer_drifts : Along step Domain (start fun _ => 0)
      [.type 97, .type 98, .type lineFeed, .read 2] ∧
    ∃ t, run step (start fun _ => 0) [.type 97, .type 98, .type lineFeed, .read 2] = some t ∧
      t.calls = [([97], 98)] ∧ t.sys.term.terminalLineCount = 0 ∧ t.unread = [lineFeed] ∧ ¬ t.Exact := by
  refine ⟨⟨.inr (by decide), fun s hs => ?_⟩, _, rfl, rfl, rfl, rfl, fun hexact => ?_⟩
  · obtain rfl := Option.some.inj hs
    refine ⟨.inr (by decide), fun s hs => ?_⟩
    obtain rfl := Option.some.inj hs
    refine ⟨.inr (by decide), fun s hs => ?_⟩
    obtain rfl := Option.some.inj hs
    exact ⟨show 2 ≤ 2 by decide, fun _ _ => trivial⟩
  · exact absurd hexact.count (by decide)

end PendSys

end Nascent
