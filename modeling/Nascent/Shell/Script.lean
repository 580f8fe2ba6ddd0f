import Nascent.Lib.Lines
import Nascent.Shell.Words
import Nascent.Tarfs.Listing

/-!
# Scripts

`main` of `src/bin/sbush/sbush.c` with the path of a script as its one argument. The shell reads the whole
file into `cmd_buff`, which is zero behind it. Then each round of the loop copies one line to
`string_buffer_array`, and hands it to `split_and_count` and `command_handler` if it is not the first one
and not empty.

The end of the file is found in the middle of a line, as a zero. The loop then clears the line and ends, so
that the last line of a file is only run if a newline follows it. A command ends the loop too if the shell
does not return from it, as for `exit`, and a child that cannot execute a command returns to the loop like
its parent, and hands on the lines that are left once more. Where none of this happens, the lines are handed
on one by one (`script_hands_iff`).

The shell that reads from the terminal is in `Nascent.Shell.Env`. The message for a wrong command is left out.
-/

namespace Nascent.Shell

open Bytes (Byte)
open Lines
open Numeral
open Strings (Str IsString strOf)
open Tarfs (CInt Files Tar strCompare)

/-! ## Commands -/

/-- The word `exit`. -/
def exitWord : Row := [101, 120, 105, 116]

/-- The word `cd`. -/
def cdWord : Row := [99, 100]

/-- The word `pwd`. -/
def pwdWord : Row := [112, 119, 100]

/-- The character `&`. -/
def ampersand : Byte := 38

/-- What happens to a shell in a command. -/
inductive Outcome (σ : Type*)
  /-- It has ended. -/
  | exits
  /-- It goes on. -/
  | returns (w : σ)
  /-- It goes on, and so does its child. -/
  | splits (w child : σ)

/-- What the commands do, with states for all that a shell sees of the system. -/
structure System (σ : Type*) where
  /-- One of the commands of the shell itself. A shell that faults has ended. -/
  builtin : (ℕ → Byte) → σ → Option σ
  /-- `fork`, `execvp` by the child, and `waitpid` by the shell, unless the command is for the background:
  the shell, and the child if it could not execute the command. -/
  execute : List Str → Bool → σ → σ × Option σ

section Commands

variable {σ : Type*} (sys : System σ)

/-- The first word of the array is the given one. -/
def Names (commandArray : ℕ → Byte) (word : Row) : Prop := strCompare (row commandArray 0) (strOf word) = 0

instance (commandArray : ℕ → Byte) (word : Row) : Decidable (Names commandArray word) :=
  inferInstanceAs (Decidable (_ = _))

/-- `run_command`. -/
def runCommand (commandArray : ℕ → Byte) (argsNum : ℕ) (w : σ) : Outcome σ :=
  let background := decide (row commandArray (argsNum - 1) 0 = ampersand)
  let args := (List.range (if background then argsNum - 1 else argsNum)).map (row commandArray)
  match sys.execute args background w with
  | (w, none) => .returns w
  | (w, some child) => .splits w child

/-- `command_handler`. -/
def commandHandler (commandArray : ℕ → Byte) (argsNum : ℕ) (w : σ) : Outcome σ :=
  if Names commandArray exitWord then .exits
  else if Names commandArray cdWord ∨ Names commandArray pwdWord ∨ Names commandArray exportWord ∨
      Names commandArray getenvWord then
    match sys.builtin commandArray w with
    | none => .exits
    | some w => .returns w
  else runCommand sys commandArray argsNum w

/-- The two calls of `main` for a line, with an array that was cleared. -/
def handle (line : Str) (w : σ) : Outcome σ :=
  match splitAndCountBytes line blank Bytes.zero with
  | none => .exits
  | some (commandArray, cnt) => commandHandler sys commandArray (cnt + 1) w

end Commands

/-! ## The loop -/

/-- `CMD_BUFF_SIZE`. -/
def cmdBuffSize : ℕ := 4096

/-- `INPUT_STRING_BUFFER_LENGTH`. -/
def inputStringBufferLength : ℕ := 100

/-- The variables of `main` while a line is copied. -/
structure Copy where
  /-- `string_buffer_array`. -/
  stringBufferArray : Str
  /-- `ptr1`. -/
  ptr1 : ℕ
  /-- `t`. -/
  t : ℕ
  /-- `c`. -/
  c : Bool

/-- The loop that copies a line, from the character `i` on and for `n` characters at most. -/
def copyLine (cmdBuff : Str) : ℕ → ℕ → Copy → Copy
  | 0, _, x => x
  | n + 1, i, x =>
    if x.ptr1 < cmdBuffSize then
      if cmdBuff x.ptr1 = newline then
        { x with stringBufferArray := Function.update x.stringBufferArray i 0, ptr1 := x.ptr1 + 1, t := x.t + 1 }
      else if cmdBuff x.ptr1 = 0 then { x with stringBufferArray := Bytes.zero, c := true }
      else copyLine cmdBuff n (i + 1) { x with
        stringBufferArray := Function.update x.stringBufferArray i (cmdBuff x.ptr1), ptr1 := x.ptr1 + 1 }
    else x

/-- The string that `string_buffer_array` holds. -/
def held (stringBufferArray : Str) : Row :=
  ((List.range inputStringBufferLength).map stringBufferArray).takeWhile (· ≠ 0)

/-- The lines that are handed to `split_and_count` and `command_handler`. -/
structure Handed where
  /-- By the shell. -/
  shell : List Row
  /-- By the children that go on as shells. -/
  children : List Row
deriving DecidableEq

/-- The rounds of the loop of `main`. -/
def mainLoop {σ : Type*} (sys : System σ) (cmdBuff : Str) : ℕ → ℕ → ℕ → σ → Option Handed
  | 0, _, _, _ => none
  | fuel + 1, ptr1, t, w =>
    let x := copyLine cmdBuff inputStringBufferLength 0 ⟨Bytes.zero, ptr1, t, false⟩
    if x.c then some ⟨[], []⟩
    else if 2 ≤ x.t ∧ strCompare x.stringBufferArray (strOf []) ≠ 0 then
      match handle sys x.stringBufferArray w with
      | .exits => some ⟨[held x.stringBufferArray], []⟩
      | .returns w => (mainLoop sys cmdBuff fuel x.ptr1 x.t w).map fun r =>
        ⟨held x.stringBufferArray :: r.shell, r.children⟩
      | .splits w child => do
        let r ← mainLoop sys cmdBuff fuel x.ptr1 x.t w
        let r' ← mainLoop sys cmdBuff fuel x.ptr1 x.t child
        some ⟨held x.stringBufferArray :: r.shell, r'.shell ++ r'.children ++ r.children⟩
    else mainLoop sys cmdBuff fuel x.ptr1 x.t w

/-- The loop that reads the file. -/
def readFile (m : Memory.Mem) (fd : ℕ) : ℕ → Str → Files → Option (Str × Files)
  | 0, _, _ => none
  | fuel + 1, cmdBuff, s =>
    let (count, bytes, s) := s.readS m fd (BitVec.ofNat 32 cmdBuffSize)
    if count ≠ 0 then readFile m fd fuel (fill cmdBuff bytes) s else some (fill cmdBuff bytes, s)

/-- `main` with one argument. -/
def main {σ : Type*} (sys : System σ) (tar : Tar) (s : Files) (path : List Byte) (fuel : ℕ) (w : σ) :
    Option Handed := do
  let (fd, s) ← s.openS tar path
  let (cmdBuff, s) ← readFile tar.mem fd.toNat fuel Bytes.zero s
  let _ ← s.closeS fd.toNat
  mainLoop sys cmdBuff fuel 0 0 w

/-! ## One line -/

section Copying

variable {cmdBuff : Str} {l s cs : Row} {n ptr1 t : ℕ}

/-- A zero behind a string changes nothing. -/
theorem strOf_concat_zero : strOf (s ++ [0]) = strOf s := by
  funext i
  unfold strOf
  rcases Nat.lt_trichotomy i s.length with hi | rfl | hi
  · rw [List.getD_append _ _ _ _ hi]
  · rw [List.getD_append_right _ _ _ _ le_rfl, List.getD_eq_default _ _ le_rfl, Nat.sub_self]
    rfl
  · rw [List.getD_eq_default _ _ hi.le, List.getD_eq_default _ _ (by simpa using Nat.succ_le_of_lt hi)]

/-- The characters of a line are copied one by one, up to what follows the line. -/
theorem copyLine_append (hbuf : ∀ j < l.length, cmdBuff (ptr1 + j) = strOf l j) (hnewline : newline ∉ l)
    (hzero : (0 : Byte) ∉ l) (hptr : ptr1 + l.length ≤ cmdBuffSize) :
    copyLine cmdBuff (n + l.length) s.length ⟨strOf s, ptr1, t, false⟩ =
      copyLine cmdBuff n (s ++ l).length ⟨strOf (s ++ l), ptr1 + l.length, t, false⟩ := by
  induction l generalizing s ptr1 with
  | nil => simp
  | cons b l ih =>
    rw [List.mem_cons, not_or] at hnewline hzero
    rw [List.length_cons] at hbuf hptr
    have hb : cmdBuff ptr1 = b := hbuf 0 (Nat.succ_pos _)
    have hrest : ∀ j < l.length, cmdBuff (ptr1 + 1 + j) = strOf l j := by
      intro j hj
      have h := hbuf (j + 1) (Nat.succ_lt_succ hj)
      rw [Nat.add_comm j 1, ← Nat.add_assoc] at h
      exact h.trans (congrArg (strOf (b :: l)) (Nat.add_comm 1 j))
    have ih : copyLine cmdBuff (n + l.length) (s ++ [b]).length ⟨strOf (s ++ [b]), ptr1 + 1, t, false⟩ = _ :=
      ih hrest hnewline.2 hzero.2 (by omega)
    rw [List.length_append, List.length_singleton, List.append_assoc, List.singleton_append] at ih
    rw [List.length_cons, ← Nat.add_assoc, copyLine, if_pos (show ptr1 < cmdBuffSize by omega), hb,
      if_neg (Ne.symm hnewline.1), if_neg (Ne.symm hzero.1), Strings.update_strOf, ih]
    congr 2
    omega

/-- A line with a newline behind it is copied. -/
theorem copyLine_newline (hbuf : ∀ j ≤ l.length, cmdBuff (ptr1 + j) = strOf (l ++ [newline]) j)
    (hnewline : newline ∉ l) (hzero : (0 : Byte) ∉ l) (hptr : ptr1 + l.length < cmdBuffSize)
    (hlen : l.length < inputStringBufferLength) :
    copyLine cmdBuff inputStringBufferLength 0 ⟨Bytes.zero, ptr1, t, false⟩ =
      ⟨strOf l, ptr1 + l.length + 1, t + 1, false⟩ := by
  have hchars : ∀ j < l.length, cmdBuff (ptr1 + j) = strOf l j := by
    intro j hj
    rw [hbuf j hj.le, strOf, List.getD_append _ _ _ _ hj, strOf]
  have hend : cmdBuff (ptr1 + l.length) = newline := by
    rw [hbuf _ le_rfl, strOf, List.getD_append_right _ _ _ _ le_rfl, Nat.sub_self]
    rfl
  obtain ⟨n, hn⟩ : ∃ n, inputStringBufferLength = n + 1 + l.length :=
    ⟨inputStringBufferLength - l.length - 1, by omega⟩
  have happend := copyLine_append (s := []) (n := n + 1) (t := t) hchars hnewline hzero hptr.le
  rw [← hn, List.nil_append] at happend
  refine happend.trans ?_
  rw [copyLine, if_pos hptr, if_pos hend, Strings.update_strOf, strOf_concat_zero]

/-- The rest of a file is not copied. -/
theorem copyLine_zero (hbuf : ∀ j ≤ l.length, cmdBuff (ptr1 + j) = strOf l j) (hnewline : newline ∉ l)
    (hzero : (0 : Byte) ∉ l) (hptr : ptr1 + l.length < cmdBuffSize)
    (hlen : l.length < inputStringBufferLength) :
    (copyLine cmdBuff inputStringBufferLength 0 ⟨Bytes.zero, ptr1, t, false⟩).c = true := by
  have hend : cmdBuff (ptr1 + l.length) = 0 := by
    rw [hbuf _ le_rfl, strOf, List.getD_eq_default _ _ le_rfl]
  obtain ⟨n, hn⟩ : ∃ n, inputStringBufferLength = n + 1 + l.length :=
    ⟨inputStringBufferLength - l.length - 1, by omega⟩
  have happend := copyLine_append (s := []) (n := n + 1) (t := t) (fun j hj => hbuf j hj.le) hnewline hzero
    hptr.le
  rw [← hn, List.nil_append] at happend
  refine (congrArg Copy.c happend).trans ?_
  rw [copyLine, if_pos hptr, hend, if_neg (by decide), if_pos rfl]

theorem held_strOf (hzero : (0 : Byte) ∉ l) (hlen : l.length < inputStringBufferLength) :
    held (strOf l) = l := by
  have hbytes : (List.range inputStringBufferLength).map (strOf l) =
      l ++ List.replicate (inputStringBufferLength - l.length) 0 := by
    refine List.ext_getElem (by simp; omega) fun i hi _ => ?_
    rw [List.getElem_map, List.getElem_range, strOf]
    rcases Nat.lt_or_ge i l.length with hil | hil
    · rw [List.getElem_append_left hil, List.getD_eq_getElem _ _ hil]
    · rw [List.getElem_append_right hil, List.getElem_replicate, List.getD_eq_default _ _ hil]
  have hne : ∀ b ∈ l, decide (b ≠ 0) = true := by
    intro b hb
    rw [decide_eq_true_eq]
    rintro rfl
    exact hzero hb
  unfold held
  rw [hbytes, List.takeWhile_append_of_pos hne, List.takeWhile_replicate]
  simp

end Copying

/-! ## All lines -/

variable {σ : Type*} {sys : System σ} {h : Row → σ → Outcome σ} {cmdBuff : Str} {l r : Row} {ls : List Row}
  {ptr1 t fuel : ℕ} {w : σ}

/-- A line that fits in `string_buffer_array`. -/
structure IsLine (l : Row) : Prop where
  /-- It has no newline. -/
  newline : newline ∉ l
  /-- It has no zero. -/
  zero : (0 : Byte) ∉ l
  /-- It is short. -/
  length : l.length < inputStringBufferLength

/-- The lines that are not empty. -/
def filled (ls : List Row) : List Row := ls.filter fun l => decide (l ≠ [])

/-- What a shell hands on of some lines, and its children. -/
def serve (h : Row → σ → Outcome σ) : List Row → σ → Handed
  | [], _ => ⟨[], []⟩
  | l :: ls, w =>
    match h l w with
    | .exits => ⟨[l], []⟩
    | .returns w => ⟨l :: (serve h ls w).shell, (serve h ls w).children⟩
    | .splits w child => ⟨l :: (serve h ls w).shell,
        (serve h ls child).shell ++ (serve h ls child).children ++ (serve h ls w).children⟩

/-- The lines are handed on one by one, as the loop goes. -/
theorem mainLoop_eq (hls : ∀ l ∈ ls, IsLine l) (hr : IsLine r)
    (hbuf : ∀ j ≤ (joined newline ls ++ r).length, cmdBuff (ptr1 + j) = strOf (joined newline ls ++ r) j)
    (hptr : ptr1 + (joined newline ls ++ r).length < cmdBuffSize) (hfuel : ls.length < fuel) :
    mainLoop sys cmdBuff fuel ptr1 t w =
      some (serve (fun l => handle sys (strOf l)) (filled (ls.drop (1 - t))) w) := by
  induction ls generalizing fuel ptr1 t w with
  | nil =>
    obtain ⟨fuel, rfl⟩ := Nat.exists_eq_succ_of_ne_zero (Nat.ne_of_gt hfuel)
    have hend := copyLine_zero (t := t) hbuf hr.newline hr.zero hptr hr.length
    rw [mainLoop, if_pos hend, List.drop_nil]
    rfl
  | cons l ls ih =>
    obtain ⟨fuel, rfl⟩ := Nat.exists_eq_succ_of_ne_zero (Nat.ne_of_gt (Nat.zero_lt_of_lt hfuel))
    obtain ⟨hl, hls⟩ := List.forall_mem_cons.mp hls
    -- The line, its newline, and the text behind it.
    have hjoin : joined newline (l :: ls) ++ r = l ++ [newline] ++ (joined newline ls ++ r) := by
      rw [joined, List.flatMap_cons, List.append_assoc, joined]
    rw [hjoin, List.length_append, List.length_append, List.length_singleton] at hbuf hptr
    have hline : ∀ j ≤ l.length, cmdBuff (ptr1 + j) = strOf (l ++ [newline]) j := by
      intro j hj
      rw [hbuf j (by omega), strOf, List.getD_append _ _ _ _ (by simpa using Nat.lt_succ_of_le hj), strOf]
    have htext : ∀ j ≤ (joined newline ls ++ r).length,
        cmdBuff (ptr1 + l.length + 1 + j) = strOf (joined newline ls ++ r) j := by
      intro j hj
      have hj := hbuf (l.length + 1 + j) (by omega)
      rw [← Nat.add_assoc, ← Nat.add_assoc, strOf,
        List.getD_append_right _ _ _ _ (by rw [List.length_append, List.length_singleton]; omega),
        List.length_append, List.length_singleton, Nat.add_sub_cancel_left] at hj
      exact hj
    have hcopy := copyLine_newline (t := t) hline hl.newline hl.zero (by omega) hl.length
    have hmore : ∀ w, mainLoop sys cmdBuff fuel (ptr1 + l.length + 1) (t + 1) w =
        some (serve (fun l => handle sys (strOf l)) (filled ls) w) := by
      intro w
      have h := ih (t := t + 1) (w := w) hls htext (by omega) (by simpa using hfuel)
      rwa [show 1 - (t + 1) = 0 by omega, List.drop_zero] at h
    have hempty : strCompare (strOf l) (strOf []) = 0 ↔ l = [] :=
      Tarfs.strCompare1_eq_zero (Strings.isString_strOf hl.zero)
        (Strings.isString_strOf List.not_mem_nil) (hl.length.trans (by decide)) (by decide)
    have hcond : 2 ≤ t + 1 ∧ strCompare (strOf l) (strOf []) ≠ 0 ↔ 2 ≤ t + 1 ∧ l ≠ [] :=
      and_congr_right fun _ => not_congr hempty
    rw [mainLoop, hcopy]
    dsimp only
    rw [if_neg Bool.false_ne_true, held_strOf hl.zero hl.length]
    by_cases hgo : 2 ≤ t + 1 ∧ l ≠ []
    · have hfilled : filled ((l :: ls).drop (1 - t)) = l :: filled ls := by
        rw [show 1 - t = 0 by omega, List.drop_zero, filled, List.filter_cons_of_pos (by simpa using hgo.2),
          filled]
      rw [if_pos (hcond.mpr hgo), hfilled, serve]
      cases handle sys (strOf l) w with
      | exits => rfl
      | returns w => simp only [hmore, Option.map_some]
      | splits w child => simp only [hmore, Option.bind_eq_bind, Option.bind_some]
    · have hfilled : filled ((l :: ls).drop (1 - t)) = filled ls := by
        rcases Nat.eq_zero_or_pos t with rfl | ht
        · rfl
        · obtain rfl : l = [] := by
            by_contra hne
            exact hgo ⟨by omega, hne⟩
          rw [show 1 - t = 0 by omega, List.drop_zero, filled, List.filter_cons_of_neg (by simp), filled]
      rw [if_neg (mt hcond.mp hgo), hmore, hfilled]

/-- The shell returns from all the lines but the last, and no child of theirs goes on as a shell. -/
def AllReturn (h : Row → σ → Outcome σ) : List Row → σ → Prop
  | [], _ => True
  | l :: ls, w => ls = [] ∨ ∃ w', h l w = .returns w' ∧ AllReturn h ls w'

theorem length_serve : (serve h ls w).shell.length ≤ ls.length := by
  induction ls generalizing w with
  | nil => exact le_rfl
  | cons l ls ih =>
    rw [serve]
    cases h l w with
    | exits => exact Nat.succ_le_succ (Nat.zero_le _)
    | returns w => exact Nat.succ_le_succ ih
    | splits w child => exact Nat.succ_le_succ ih

/-- A shell hands on its first line. -/
theorem serve_eq_nil (heq : (serve h ls w).shell = []) : ls = [] := by
  cases ls with
  | nil => rfl
  | cons l ls =>
    rw [serve] at heq
    cases hw : h l w with
    | exits | returns | splits =>
      rw [hw] at heq
      cases heq

/-- All lines are handed on, and each once, if and only if the shell alone returns. -/
theorem serve_eq_iff : serve h ls w = ⟨ls, []⟩ ↔ AllReturn h ls w := by
  induction ls generalizing w with
  | nil => exact iff_of_true rfl trivial
  | cons l ls ih =>
    rw [serve, AllReturn]
    cases h l w with
    | exits => simp [eq_comm]
    | returns w₁ =>
      constructor
      · intro heq
        obtain ⟨hshell, hchildren⟩ := Handed.mk.inj heq
        refine .inr ⟨w₁, rfl, ih.mp ?_⟩
        calc serve h ls w₁ = ⟨(serve h ls w₁).shell, (serve h ls w₁).children⟩ := rfl
          _ = ⟨ls, []⟩ := by rw [(List.cons.inj hshell).2, hchildren]
      · rintro (rfl | ⟨w', hw, hall⟩)
        · rfl
        · obtain rfl := Outcome.returns.inj hw
          show (⟨l :: (serve h ls w₁).shell, (serve h ls w₁).children⟩ : Handed) = ⟨l :: ls, []⟩
          rw [ih.mpr hall]
    | splits w₁ child =>
      constructor
      · intro heq
        obtain ⟨-, hchildren⟩ := Handed.mk.inj heq
        rw [List.append_eq_nil_iff, List.append_eq_nil_iff] at hchildren
        exact .inl (serve_eq_nil hchildren.1.1)
      · rintro (rfl | ⟨w', hw, -⟩)
        · rfl
        · cases hw

/-! ## The file -/

section File

variable {m : Memory.Mem} {ptr : Memory.Word64} {c : List Byte} {fd : ℕ} {s s' : Files}

/-- One read of as many bytes as fit in `cmd_buff`. -/
theorem readS_at {total : ℕ} (h0 : fd ≠ 0) (hlt : fd < Tarfs.maxFds) (hat : (s.fdArray fd).At ptr c.length total)
    (hlies : Strings.Lies m ptr c) (hlen : c.length < cmdBuffSize) (htotal : total ≤ cmdBuffSize) :
    ∃ s', s.readS m fd (BitVec.ofNat 32 cmdBuffSize) =
        (BitVec.ofNat 32 (min cmdBuffSize (c.length - total)), (c.drop total).take cmdBuffSize, s') ∧
      (s'.fdArray fd).At ptr c.length (total + cmdBuffSize) := by
  unfold cmdBuffSize at hlen htotal ⊢
  have hsize : (BitVec.ofNat 32 4096).toNat = 4096 := by decide
  obtain ⟨hcount, hbytes, hat'⟩ := hat.read hlies (n := BitVec.ofNat 32 4096) (by omega) (by decide)
    (by rw [hsize]; omega)
  rw [hsize] at hcount hbytes hat'
  rw [Files.readS_eq h0 hlt hat.alloted, hcount, hbytes]
  refine ⟨_, rfl, ?_⟩
  rw [Files.modify_fdArray_self]
  exact hat'

/-- The loop reads a file that is shorter than `cmd_buff`, and zeros are left behind it. -/
theorem readFile_eq (h0 : fd ≠ 0) (hlt : fd < Tarfs.maxFds) (hat : (s.fdArray fd).At ptr c.length 0)
    (hlies : Strings.Lies m ptr c) (hlen : c.length < cmdBuffSize) (hfuel : 2 ≤ fuel) :
    ∃ s', readFile m fd fuel Bytes.zero s = some (strOf c, s') := by
  obtain ⟨fuel, rfl⟩ := Nat.exists_eq_add_of_le' hfuel
  obtain ⟨s₁, hfirst, hat₁⟩ := readS_at h0 hlt hat hlies hlen (Nat.zero_le _)
  obtain ⟨s₂, hsecond, -⟩ := readS_at h0 hlt hat₁ hlies hlen (Nat.zero_add _).le
  rw [List.drop_zero, List.take_of_length_le hlen.le] at hfirst
  rw [Nat.zero_add, Nat.sub_eq_zero_of_le hlen.le, Nat.min_zero, List.drop_eq_nil_of_le hlen.le,
    List.take_nil] at hsecond
  rw [readFile, hfirst]
  dsimp only
  split_ifs
  · -- The second read finds the end of the file.
    rw [readFile, hsecond]
    exact ⟨s₂, rfl⟩
  · exact ⟨s₁, rfl⟩

/-- `main` goes over the file that it has read. -/
theorem main_eq {tar : Tar} {path : List Byte} (hopen : s.openS tar path = some (BitVec.ofNat 32 fd, s'))
    (h0 : fd ≠ 0) (hlt : fd < Tarfs.maxFds) (hat : (s'.fdArray fd).At ptr c.length 0)
    (hlies : Strings.Lies tar.mem ptr c) (hlen : c.length < cmdBuffSize) (hfuel : 2 ≤ fuel) :
    main sys tar s path fuel w = mainLoop sys (strOf c) fuel 0 0 w := by
  have hfd : (BitVec.ofNat 32 fd).toNat = fd := by
    unfold Tarfs.maxFds at hlt
    rw [BitVec.toNat_ofNat]
    omega
  obtain ⟨s₁, hread⟩ := readFile_eq h0 hlt hat hlies hlen hfuel
  unfold main
  simp only [hopen, hfd, hread, Files.closeS, if_pos hlt, Option.bind_eq_bind, Option.bind_some]

end File

/-! ## Scripts -/

/-- A text whose lines all fit in `string_buffer_array`. -/
theorem isLine_lines {c : Row} (h0 : (0 : Byte) ∉ c)
    (hlines : ∀ l ∈ allLines newline c, l.length < inputStringBufferLength) :
    (∀ l ∈ lines newline c, IsLine l) ∧ IsLine (rest newline c) := by
  constructor
  · intro l hl
    exact ⟨notMem_lines l hl, fun hb => h0 (mem_of_mem_lines hl hb), hlines l (List.mem_append_left _ hl)⟩
  · refine ⟨notMem_rest, fun hb => h0 (mem_of_mem_rest hb), ?_⟩
    by_cases hrest : rest newline c = []
    · rw [hrest]
      decide
    · refine hlines _ (List.mem_append_right _ ?_)
      rw [if_neg hrest]
      exact List.mem_singleton_self _

/-- The loop goes over the complete lines of a text. -/
theorem mainLoop_lines {c : Row} (hlen : c.length < cmdBuffSize) (h0 : (0 : Byte) ∉ c)
    (hlines : ∀ l ∈ allLines newline c, l.length < inputStringBufferLength) (hfuel : cmdBuffSize ≤ fuel) :
    mainLoop sys (strOf c) fuel 0 0 w =
      some (serve (fun l => handle sys (strOf l)) (filled ((lines newline c).drop 1)) w) := by
  obtain ⟨hls, hr⟩ := isLine_lines h0 hlines
  have hcount : (lines newline c).length ≤ c.length := by
    rw [length_lines]
    exact List.count_le_length
  refine mainLoop_eq (t := 0) hls hr ?_ ?_ (by omega)
  · rw [joined_lines]
    intro j _
    rw [Nat.zero_add]
  · rw [joined_lines]
    omega

/-- The lines of a text after the first one, but for the empty ones. -/
theorem filled_allLines (c : Row) : filled ((allLines newline c).drop 1) = filled ((lines newline c).drop 1) ++
    if rest newline c = [] ∨ lines newline c = [] then [] else [rest newline c] := by
  unfold allLines
  cases lines newline c with
  | nil =>
    have hnone : (if rest newline c = [] ∨ ([] : List Row) = [] then [] else [rest newline c]) = [] :=
      if_pos (Or.inr rfl)
    rw [hnone]
    split_ifs <;> rfl
  | cons l ls =>
    by_cases hrest : rest newline c = []
    · simp [hrest]
    · simp [hrest, filled]

/-- A script hands on the lines after the first one that are not empty, in their order and each once, and then
stops, if and only if a newline follows the last line, or the first line is the only one, and of each line but
the last that is handed on the shell alone returns. -/
theorem script_hands_iff {σ : Type*} (sys : System σ) (w : σ) (tar : Tar) (es : List Tarfs.Entry)
    (hlies : Strings.Lies tar.mem tar.start (Tarfs.entryBytes es))
    (hstop : tar.start.toNat + (Tarfs.entryBytes es).length ≤ tar.stop.toNat)
    (cwd path p : List Byte) (before : List Tarfs.FileOp) (s₁ s₂ : Files) (e : Tarfs.Entry) (fd fuel : ℕ)
    (hbefore : Runs.run (Files.step tar) (Files.fresh cwd) before = some s₁)
    (hp : Tarfs.pathSanitize s₁.cwd path = some p) (hname : IsString (strOf p.tail) e.name)
    (hfind : es.find? (·.name = e.name) = some e)
    (hopen : s₁.openS tar path = some (BitVec.ofNat 32 fd, s₂)) (h0 : 1 ≤ fd) (hlt : fd < Tarfs.maxFds)
    (hlen : e.contents.length < cmdBuffSize) (hnul : (0 : Byte) ∉ e.contents)
    (hlines : ∀ l ∈ allLines newline e.contents, l.length < inputStringBufferLength)
    (hfuel : cmdBuffSize ≤ fuel) :
    ∃ r, main sys tar s₁ path fuel w = some r ∧
      (r = ⟨filled ((allLines newline e.contents).drop 1), []⟩ ↔
        (rest newline e.contents = [] ∨ lines newline e.contents = []) ∧
        AllReturn (fun l => handle sys (strOf l)) (filled ((lines newline e.contents).drop 1)) w) := by
  have hclean : s₁.Clean := (Runs.visits_of_run hbefore).invariant' (fun _ _ _ h hs => h.step hs)
    (Files.clean_fresh cwd)
  have hne : fd ≠ 0 := Nat.one_le_iff_ne_zero.mp h0
  obtain ⟨ptr, hcontents, hat⟩ := Files.exists_at hclean hlies hstop hp hname hfind hopen hne hlt
  refine ⟨_, (main_eq hopen hne hlt hat hcontents hlen (le_trans (by decide) hfuel)).trans
    (mainLoop_lines hlen hnul hlines hfuel), ?_⟩
  rw [filled_allLines]
  split_ifs with hlast
  · rw [List.append_nil, serve_eq_iff, and_iff_right hlast]
  · -- The last line is not among those that the loop goes over.
    refine iff_of_false (fun heq => ?_) fun hcond => hlast hcond.1
    have hlength : (serve (fun l => handle sys (strOf l)) (filled ((lines newline e.contents).drop 1))
        w).shell.length ≤ _ := length_serve
    rw [heq, List.length_append, List.length_singleton] at hlength
    omega

/-! ## A script of two lines -/

/-- The file `/a`. -/
def scriptEntry (c : Row) (h : c.length < cmdBuffSize) : Tarfs.Entry :=
  { Tarfs.namedEntry [97] 48 (by decide) with
    contents := c
    length_contents := by
      unfold cmdBuffSize at h
      omega }

/-- An archive with this file. -/
def scriptTar (c : Row) (h : c.length < cmdBuffSize) : Tar where
  mem := Strings.place Tarfs.sampleStart (Tarfs.entryBytes [scriptEntry c h])
  start := Tarfs.sampleStart
  stop := Tarfs.sampleStart + 8192
  fuel := 1

/-- A system in which every command does nothing. -/
def idleSystem : System Unit where
  builtin _ _ := some ()
  execute _ _ _ := ((), none)

section Sample

variable {c : Row} (h : c.length < cmdBuffSize)

theorem lies_scriptTar : Strings.Lies (scriptTar c h).mem (scriptTar c h).start
    (Tarfs.entryBytes [scriptEntry c h]) ∧
    (scriptTar c h).start.toNat + (Tarfs.entryBytes [scriptEntry c h]).length ≤ (scriptTar c h).stop.toNat := by
  have hstart : Tarfs.sampleStart.toNat = 0xffffffff80700000 := rfl
  have hstop : (Tarfs.sampleStart + 8192).toNat = 0xffffffff80702000 := rfl
  have hlength : (Tarfs.entryBytes [scriptEntry c h]).length = Tarfs.entryLength c.length := by
    rw [Tarfs.entryBytes_cons, List.length_append, Tarfs.Entry.length_bytes]
    rfl
  unfold Tarfs.entryLength at hlength
  unfold cmdBuffSize at h
  constructor
  · exact Strings.lies_place (by omega)
  · show Tarfs.sampleStart.toNat + _ ≤ (Tarfs.sampleStart + 8192).toNat
    omega

/-- `open_s` finds the file. -/
theorem openS_scriptTar : ∃ s, (Files.fresh [47]).openS (scriptTar c h) [47, 97] = some (BitVec.ofNat 32 3, s) := by
  have hp : Tarfs.pathSanitize (Files.fresh [47]).cwd [47, 97] = some [47, 97] := by decide
  obtain ⟨it, -, -, hopen⟩ := (Files.fresh [47]).openS_found (e := scriptEntry c h) (lies_scriptTar h).1
    (lies_scriptTar h).2 hp (Strings.isString_strOf (by decide)) (by simp)
  exact ⟨_, hopen (Nat.le_refl 1)⟩

/-- The lines of the script that the shell hands on. -/
theorem main_scriptTar (h0 : (0 : Byte) ∉ c)
    (hlines : ∀ l ∈ allLines newline c, l.length < inputStringBufferLength) :
    main idleSystem (scriptTar c h) (Files.fresh [47]) [47, 97] cmdBuffSize () =
      some (serve (fun l => handle idleSystem (strOf l)) (filled ((lines newline c).drop 1)) ()) := by
  have hp : Tarfs.pathSanitize (Files.fresh [47]).cwd [47, 97] = some [47, 97] := by decide
  obtain ⟨hlies, hstop⟩ := lies_scriptTar h
  obtain ⟨s, hopen⟩ := openS_scriptTar h
  obtain ⟨ptr, hcontents, hat⟩ := Files.exists_at (e := scriptEntry c h) (Files.clean_fresh [47]) hlies hstop hp
    (Strings.isString_strOf (by decide)) (by simp) hopen (by decide) (by decide)
  exact (main_eq hopen (by decide) (by decide) hat hcontents h (by decide)).trans
    (mainLoop_lines h h0 hlines le_rfl)

end Sample

/-- The lines `l` and `p` behind `#` are handed on if a newline follows them. -/
theorem script_hands_lines : ∃ r, main idleSystem (scriptTar [35, 10, 108, 10, 112, 10] (by decide))
    (Files.fresh [47]) [47, 97] cmdBuffSize () = some r ∧ r = ⟨[[108], [112]], []⟩ := by
  obtain ⟨s, hopen⟩ := openS_scriptTar (c := [35, 10, 108, 10, 112, 10]) (by decide)
  obtain ⟨r, hmain, hiff⟩ := script_hands_iff idleSystem () (scriptTar [35, 10, 108, 10, 112, 10] (by decide)) _
    (lies_scriptTar (by decide)).1 (lies_scriptTar (by decide)).2 [47] [47, 97] [47, 97] [] (Files.fresh [47]) s
    (scriptEntry [35, 10, 108, 10, 112, 10] (by decide)) 3 cmdBuffSize rfl (by decide)
    (Strings.isString_strOf (by decide)) (by simp) hopen (by decide) (by decide) (by decide) (by decide) (by decide)
    le_rfl
  have hfirst : handle idleSystem (strOf [108]) () = .returns () := rfl
  exact ⟨r, hmain, hiff.mpr ⟨.inl (by decide), .inr ⟨(), hfirst, .inl (by decide)⟩⟩⟩

/-- Without a newline behind it, `l` is not. -/
theorem script_loses_last : ¬ ∀ (c : Row) (h : c.length < cmdBuffSize), (0 : Byte) ∉ c →
    (∀ l ∈ allLines newline c, l.length < inputStringBufferLength) →
    main idleSystem (scriptTar c h) (Files.fresh [47]) [47, 97] cmdBuffSize () =
      some ⟨filled ((allLines newline c).drop 1), []⟩ := by
  intro hall
  have hmain := hall [35, 10, 108] (by decide) (by decide) (by decide)
  rw [main_scriptTar (by decide) (by decide) (by decide)] at hmain
  have hnone : filled ((lines newline [35, 10, 108]).drop 1) = [] := by decide
  have hone : filled ((allLines newline [35, 10, 108]).drop 1) = [[108]] := by decide
  rw [hnone, hone] at hmain
  have hshell : ([] : List Row) = [[108]] := congrArg Handed.shell (Option.some.inj hmain)
  cases hshell

end Nascent.Shell
