import Mathlib.Algebra.Order.BigOperators.Group.List
import Nascent.Console.Terminal
import Nascent.Exec.Stack
import Nascent.Shell.Programs
import Nascent.Shell.Script

/-!
# Commands from the terminal

The way of a command from the keys to the program. The loop of `main` of `src/bin/sbush/sbush.c` without an argument reads
a line with `gets`, cuts it into words, and gives those of a command that is not its own to `execvp`, without the last one
if this starts with `&`. `sys_execvpe` puts them on the stack of the new program, and `_start` hands them to `main`.

So the words of a line that was typed arrive as the arguments of the program (`typed_command_arrives`), in every state of
the terminal, under the conditions of the parts: the terminal must not lose a character, and there are rows for ten
arguments only. `echo` then shows them (`echo_prints`).
-/

namespace Nascent.Shell

open Bytes (Byte)
open Memory (Mem Word64)
open Numeral
open Proc (FreshPage Passable mainArgs mainArgs_spec programMem)
open Runs
open Strings (Str IsString strOf)
open Tarfs (CInt strCompare)
open Words

/-! ## The shell at the terminal -/

/-- The words of the commands of the shell itself. -/
def shellWords : List Row := [exitWord, cdWord, pwdWord, exportWord, getenvWord]

/-- `gets` on a cleared `string_buffer_array`, once there is a line: the array, and the terminal after it. -/
def gets (t : Terminal) : Option (Str × Terminal) :=
  if t.terminalLineCount = 0 then none else some (t.readBuffer (fun _ => 0) inputStringBufferLength).2

/-- A round of the loop of `main` without an argument, but for the prompt. -/
def round {σ : Type*} (sys : System σ) (t : Terminal) (w : σ) : Option (Outcome σ × Terminal) :=
  (gets t).map fun (stringBufferArray, t) =>
    (if strCompare stringBufferArray (strOf []) = 0 then .returns w else handle sys stringBufferArray w, t)

/-- The last word starts with `&`. -/
def isBackground (ws : List Row) : Bool := decide ((ws.getLast?.bind List.head?) = some ampersand)

/-- The words that are given to `execvp`. -/
def passed (ws : List Row) : List Row := if isBackground ws then ws.dropLast else ws

/-- What the shell does once it has started a program. -/
def executed {σ : Type*} (r : σ × Option σ) : Outcome σ :=
  match r with
  | (w, none) => .returns w
  | (w, some child) => .splits w child

/-! ## One line -/

variable {σ : Type*} (sys : System σ) {l : Row} {string : Str} {R : List (ℕ × ℕ)} {a : ℕ → Byte}

/-- The rows that `split_and_count` has written. -/
theorem Rows.isString {old : ℕ → Byte} {ws : List Row} (h : Rows old a (ws.map (· ++ [0]))) {k : ℕ} (hk : k < ws.length)
    (hlen : ws[k].length < 150) (h0 : (0 : Byte) ∉ ws[k]) : IsString (row a k) ws[k] := by
  have hfill := isString_fill (row old k) h0
  have hget : ∀ i < 150, row a k i = fill (row old k) (ws[k] ++ [0]) i := by
    intro i hi
    rw [h k i hi, List.getD_eq_getElem _ _ (by rwa [List.length_map]), List.getElem_map]
  exact ⟨fun i hi => (hget i (by omega)).trans (hfill.get i hi), (hget _ hlen).trans hfill.get_end, h0⟩

/-- The words of a line are not empty, and their characters are those of the line. -/
theorem word_of_mem (hruns : AreRuns blank l R) {u : Row} (hu : u ∈ R.map (slice l)) :
    u ≠ [] ∧ u <:+: l := by
  obtain ⟨r, hr, rfl⟩ := List.mem_map.mp hu
  have hrun := (hruns.mem r).mp hr
  constructor
  · apply List.ne_nil_of_length_pos
    have hlt := hrun.lt
    have hle := hrun.le
    unfold slice
    rw [List.length_take, List.length_drop]
    omega
  · exact (List.take_prefix _ _).isInfix.trans (List.drop_suffix _ _).isInfix

/-- `split_and_count` on a line with a word: the rows are its words. -/
theorem splitAndCount_rows (hstring : IsString string l) (hnewline : newline ∉ l) (hlen : l.length < 100)
    (hword : ∃ c ∈ l, c ≠ blank) : ∃ a R, AreRuns blank l R ∧ R ≠ [] ∧
      splitAndCountBytes string blank Bytes.zero = some (a, (R.map (slice l)).length - 1) ∧
      List.Forall₂ IsString ((List.range (R.map (slice l)).length).map (row a)) (R.map (slice l)) := by
  obtain ⟨R, hne, hruns, hsplit⟩ := splitAndCount_eq hnewline hword
  obtain ⟨a, heq, hrows⟩ : ∃ a, splitAndCountBytes string blank Bytes.zero =
      some (a, (splitAndCount l blank).length - 1) ∧ Rows Bytes.zero a ((splitAndCount l blank).map (· ++ [0])) :=
    splitAndCountBytes_eq hstring (by decide) (by omega)
  rw [hsplit] at heq hrows
  refine ⟨a, R, hruns, hne, heq, List.forall₂_of_length_eq_of_get (by simp) fun k hk hk' => ?_⟩
  have hmem := List.getElem_mem hk'
  obtain ⟨-, hpart⟩ := word_of_mem hruns hmem
  have hrow := hrows.isString hk' (hpart.length_le.trans_lt (by omega)) fun h0 => hstring.ne_zero (hpart.subset h0)
  simpa using hrow

/-- The first row has the name of a command if and only if the first word is this name. -/
theorem names_iff {u word : Row} (hu : IsString (row a 0) u) (hlen : u.length < 2 ^ 64) (hword : word ∈ shellWords) :
    Names a word ↔ u = word := by
  have hall : ∀ v ∈ shellWords, (0 : Byte) ∉ v ∧ v.length < 2 ^ 64 := by decide
  obtain ⟨h0, hlen'⟩ := hall word hword
  exact Tarfs.strCompare1_eq_zero hu (Strings.isString_strOf h0) hlen hlen'

/-- The rows that are given to `execvp` have the words that are passed. -/
theorem runCommand_eq {ws : List Row} (hrows : List.Forall₂ IsString ((List.range ws.length).map (row a)) ws)
    (hne : ws ≠ []) (hwords : ∀ u ∈ ws, u ≠ []) : ∃ args, List.Forall₂ IsString args (passed ws) ∧
      ∀ w, runCommand sys a ws.length w = executed (sys.execute args (isBackground ws) w) := by
  obtain ⟨us, last, rfl⟩ := (List.eq_nil_or_concat' ws).resolve_left hne
  obtain ⟨c, t, rfl⟩ := List.exists_cons_of_ne_nil (hwords last (by simp))
  have hlen : (us ++ [c :: t]).length = us.length + 1 := by rw [List.length_append, List.length_singleton]
  -- The first character of the last row is that of the last word.
  have hrow : IsString (row a us.length) (c :: t) := by
    have hget := hrows.get (i := us.length) (by rw [List.length_map, List.length_range, hlen]; omega) (by omega)
    simpa using hget
  have hfirst : row a us.length 0 = c := hrow.get 0 (Nat.succ_pos _)
  have hback : isBackground (us ++ [c :: t]) = decide (c = ampersand) := by
    unfold isBackground
    rw [List.getLast?_concat, Option.bind_some, List.head?_cons]
    simp only [Option.some.injEq]
  have hdrop : List.Forall₂ IsString ((List.range us.length).map (row a)) us := by
    have htake := List.forall₂_take us.length hrows
    rwa [List.take_left', ← List.map_take, hlen, List.take_range, Nat.min_eq_left (Nat.le_succ _)] at htake
    rfl
  unfold runCommand passed
  rw [hlen, Nat.add_sub_cancel, hfirst, hback, List.dropLast_concat]
  by_cases hc : c = ampersand
  · rw [decide_eq_true hc]
    exact ⟨_, hdrop, fun _ => rfl⟩
  · rw [decide_eq_false hc]
    rw [hlen] at hrows
    exact ⟨_, hrows, fun _ => rfl⟩

/-- The shell gives the words of a line that has no command of its own to `execvp`. -/
theorem handle_command (hstring : IsString string l) (hnewline : newline ∉ l) (hlen : l.length < 100)
    (hword : ∃ c ∈ l, c ≠ blank) : ∃ R, AreRuns blank l R ∧
      ((∀ u ∈ (R.map (slice l)).head?, u ∉ shellWords) → ∃ args, List.Forall₂ IsString args (passed (R.map (slice l))) ∧
        ∀ w, handle sys string w = executed (sys.execute args (isBackground (R.map (slice l))) w)) := by
  obtain ⟨a, R, hruns, hne, hsplit, hrows⟩ := splitAndCount_rows hstring hnewline hlen hword
  refine ⟨R, hruns, fun hhead => ?_⟩
  have hwords : ∀ u ∈ R.map (slice l), u ≠ [] ∧ u <:+: l := fun u hu => word_of_mem hruns hu
  have hws : R.map (slice l) ≠ [] := by
    rw [ne_eq, List.map_eq_nil_iff]
    exact hne
  generalize R.map (slice l) = ws at *
  obtain ⟨args, hargs, hrun⟩ := runCommand_eq sys hrows hws fun u hu => (hwords u hu).1
  refine ⟨args, hargs, fun w => (Eq.trans ?_ (hrun w))⟩
  -- The first word is not one of the shell.
  obtain ⟨u, us, rfl⟩ := List.exists_cons_of_ne_nil hws
  have hrow : IsString (row a 0) u := by
    have hget := hrows.get (i := 0) (by rw [List.length_map, List.length_range]; exact Nat.succ_pos _) (Nat.succ_pos _)
    simpa using hget
  have hshort : u.length < 2 ^ 64 := ((hwords u List.mem_cons_self).2.length_le).trans_lt (by omega)
  have hnames : ∀ word ∈ shellWords, ¬ Names a word := by
    intro word hword hname
    rw [names_iff hrow hshort hword] at hname
    exact hhead u rfl (hname ▸ hword)
  have hother : ¬ (Names a cdWord ∨ Names a pwdWord ∨ Names a exportWord ∨ Names a getenvWord) := by
    rintro (h | h | h | h) <;> exact hnames _ (by decide) h
  unfold handle commandHandler
  rw [hsplit]
  dsimp only
  rw [if_neg (hnames exitWord (by decide)), if_neg hother, List.length_cons, Nat.add_sub_cancel]

/-! ## The arguments of a program -/

/-- The string `argv[i]` in the memory of a program. -/
def arg (u : Mem) (argv : Word64) (i : ℕ) : Str := Strings.strAt u (Memory.read u (argv + BitVec.ofNat 64 (8 * i)))

/-- The program that is started with some arguments and no environment, on a stack that was built in a page, gets their
number, and strings with their text. -/
def Gets (mem : Mem) (stackBase : Word64) (ws : List Row) : Prop :=
  (mainArgs mem stackBase (some ws) none).1.toInt = ws.length ∧
    List.Forall₂ IsString ((List.range ws.length).map
      (arg (programMem mem stackBase (some ws) none) (mainArgs mem stackBase (some ws) none).2.1)) ws

variable {mem : Mem} {stackBase : Word64} {ws : List Row}

/-- Some strings, at most ten and each of at most 99 bytes, can be passed. -/
theorem passable_of_length (hlen : ws.length ≤ 10) (hwords : ∀ u ∈ ws, u.length ≤ 99 ∧ (0 : Byte) ∉ u) :
    Passable ws [] where
  length_argv := hlen
  argv_string := hwords
  length_envp := by decide
  envp_string := by decide
  fits := by
    have hsum : Proc.stringBytes 1 ws ≤ 100 * ws.length := by
      unfold Proc.stringBytes
      rw [Nat.mul_comm]
      have hle : ∀ x ∈ ws.map fun u => 1 * (u.length + 1), x ≤ 100 := by
        intro x hx
        obtain ⟨u, hu, rfl⟩ := List.mem_map.mp hx
        have := (hwords u hu).1
        omega
      simpa using List.sum_le_card_nsmul _ _ hle
    have hnil : Proc.stringBytes 8 [] = 0 := rfl
    unfold Proc.stackBytes
    rw [hnil, List.length_nil]
    omega

/-- The program gets its arguments. -/
theorem gets_args (hpage : FreshPage mem stackBase) (hlen : ws.length ≤ 10)
    (hwords : ∀ u ∈ ws, u.length ≤ 99 ∧ (0 : Byte) ∉ u) : Gets mem stackBase ws := by
  have hpass : Passable ((some ws).getD []) ((none : Option (List (List Byte))).getD []) := passable_of_length hlen hwords
  obtain ⟨p, ptrs, hmain, hplaced, hget, -⟩ := mainArgs_spec hpage hpass
  rw [Option.getD_some] at hmain hplaced
  have hptrs : ptrs.length = ws.length := hplaced.length_eq
  unfold Gets
  rw [hmain]
  constructor
  · have hsmall : ∀ n ≤ 10, (BitVec.ofNat 32 n).toInt = n := by decide
    exact hsmall _ hlen
  · apply List.forall₂_of_length_eq_of_get
    · simp
    · intro i hi hi'
      obtain ⟨o, hptr, -, hend, hbytes⟩ := hplaced.get (hptrs.symm ▸ hi') hi'
      have harg : arg (programMem mem stackBase (some ws) none) p i =
          Strings.strAt (programMem mem stackBase (some ws) none) (stackBase + BitVec.ofNat 64 o) := by
        unfold arg
        rw [hget i (by omega)]
        exact congrArg _ hptr
      simp only [List.get_eq_getElem, List.getElem_map, List.getElem_range] at hend hbytes ⊢
      rw [harg, Strings.isString_iff]
      refine ⟨fun j hj => ?_, (hwords _ (List.getElem_mem hi')).2⟩
      rw [← hbytes j hj, Strings.strAt, Strings.add_ofNat_add]
      exact Proc.strAt_userMem_frame hpage.frame (by omega)

/-! ## From the terminal to the program -/

/-- The words that are passed are words. -/
theorem mem_of_mem_passed {u : Row} (hu : u ∈ passed ws) : u ∈ ws := by
  unfold passed at hu
  split_ifs at hu
  · exact List.mem_of_mem_dropLast hu
  · exact hu

/-- The next round of the shell is for a line, and if its first word is no command of the shell, the words are given to
`execvp`, without the last one if it starts with `&`. If there are at most ten, the program that is started gets them. -/
def Arrives {σ : Type*} (sys : System σ) (t : Terminal) (l : Row) : Prop :=
  ∃ R, AreRuns blank l R ∧ ((∀ u ∈ (R.map (slice l)).head?, u ∉ shellWords) →
    ∃ args, List.Forall₂ IsString args (passed (R.map (slice l))) ∧
      (∃ t', ∀ w : σ, round sys t w = some (executed (sys.execute args (isBackground (R.map (slice l))) w), t')) ∧
      ∀ mem stackBase, FreshPage mem stackBase → (passed (R.map (slice l))).length ≤ 10 →
        Gets mem stackBase (passed (R.map (slice l))))

/-- In every state of the terminal in which no character was lost, the line that comes next arrives at its program, if it
has fewer than 100 characters, no zero byte, and a word. -/
theorem typed_command_arrives {σ : Type*} (sys : System σ) (m : ℕ → Byte) (ops : List TermOp) (s : TermSys)
    (hops : Along TermSys.step TermSys.Admissible (TermSys.start m) ops)
    (hfits : Along TermSys.step TermSys.Fits (TermSys.start m) ops) (hvisit : Visits TermSys.step (TermSys.start m) ops s)
    (l : Row) (hpending : s.pending = some l) (hnext : s.Fits (.read inputStringBufferLength)) (hlen : l.length < 100)
    (h0 : (0 : Byte) ∉ l) (hword : ∃ c ∈ l, c ≠ blank) : Arrives sys s.term l := by
  have hstep : ∀ (s : TermSys) op t, (∃ ls rest, s.Ring m ls rest) → (s.Admissible op ∧ s.Fits op) →
      s.step op = some t → ∃ ls rest, t.Ring m ls rest := by
    rintro s op t ⟨ls, rest, h⟩ ⟨hop, hfits⟩ hs
    exact h.step hop hfits hs
  obtain ⟨ls, rest, hring⟩ := hvisit.invariant (hops.and hfits) hstep ⟨[], [], TermSys.ring_start⟩
  obtain ⟨rest', hfeed, hrest⟩ := hring.rest_of_pending hpending
  have hcount : s.term.terminalLineCount ≠ 0 := by
    rw [ne_eq, hring.count_eq_zero_iff, hpending]
    exact Option.some_ne_none l
  have hreader := hring.reader_eq (hnext.resolve_left (by rw [hpending]; exact Option.some_ne_none l))
  have hread : s.term.readBuffer (fun _ => 0) inputStringBufferLength = _ :=
    Terminal.readBuffer_line hcount hfeed hlen hreader (hring.get_line hrest)
  have hstring := Strings.isString_strOf h0
  obtain ⟨R, hruns, hhandle⟩ := handle_command sys hstring hfeed hlen hword
  refine ⟨R, hruns, fun hhead => ?_⟩
  obtain ⟨args, hargs, hexec⟩ := hhandle hhead
  obtain ⟨t, ht⟩ : ∃ t, s.term.readBuffer (fun _ => 0) inputStringBufferLength = (0, strOf l, t) := ⟨_, hread⟩
  refine ⟨args, hargs, ⟨t, fun w => ?_⟩, fun mem stackBase hpage hten => gets_args hpage hten fun u hu => ?_⟩
  · have hempty : strCompare (strOf l) (strOf []) = 0 ↔ l = [] :=
      Tarfs.strCompare1_eq_zero hstring (Strings.isString_strOf List.not_mem_nil) (by omega) (by decide)
    have hne : strCompare (strOf l) (strOf []) ≠ 0 := by
      obtain ⟨c, hc, -⟩ := hword
      rw [ne_eq, hempty]
      exact List.ne_nil_of_mem hc
    unfold round gets
    rw [if_neg hcount, ht, Option.map_some]
    dsimp only
    rw [if_neg hne, hexec]
  · obtain ⟨-, hpart⟩ := word_of_mem hruns (mem_of_mem_passed hu)
    have hle := hpart.length_le
    exact ⟨by omega, fun hzero => h0 (hpart.subset hzero)⟩

/-- The line `a b` is typed. -/
theorem typed_command_arrives_ab : ∃ s : TermSys, s.pending = some [97, 32, 98] ∧ Arrives idleSystem s.term [97, 32, 98] := by
  have hreturn : carriageReturn ∉ ([97, 32, 98, 10] : List Byte) := by decide
  obtain ⟨halong, s, hrun, hring⟩ := (TermSys.ring_start (m := fun _ => 0)).types hreturn (by decide)
  have hfits : Along TermSys.step TermSys.Fits (TermSys.start fun _ => 0) ([97, 32, 98, 10].map .type) :=
    ⟨trivial, fun _ _ => ⟨trivial, fun _ _ => ⟨trivial, fun _ _ => ⟨trivial, fun _ _ => trivial⟩⟩⟩⟩
  have hpending : s.pending = some [97, 32, 98] := hring.pending_eq.trans (by decide)
  exact ⟨s, hpending, typed_command_arrives idleSystem (fun _ => 0) _ s halong hfits (visits_of_run hrun) _ hpending
    (.inr (.inl hring.consumed_eq)) (by decide) (by decide) (by decide)⟩

/-! ## The program `echo` -/

/-- The text that `echo` prints without an argument. -/
def invalidArguments : List Byte :=
  [73, 110, 118, 97, 108, 105, 100, 32, 97, 114, 103, 117, 109, 101, 110, 116, 115, 10]

/-- `echo` of `src/bin/echo/echo.c`. -/
def echo (w : World) (s : Str) : Option World := w.printf [37, 115, 32] [.string s]

/-- `main` of `echo`, with the memory of the program. -/
def echoMain (u : Mem) (argc : CInt) (argv : Word64) (w : World) : Option World :=
  (if argc.toInt ≤ 1 then w.printf invalidArguments [] else some w).bind fun w =>
    ((((List.range argc.toInt.toNat).drop 1).map (arg u argv)).foldlM echo w).bind fun w => w.printf [10] []

/-- What `echo` prints, by calls of `printf`. -/
def echoed (ws : List Row) : List (List Byte) :=
  (if ws.length ≤ 1 then [invalidArguments ++ [0]] else []) ++ ws.tail.map (· ++ [32, 0]) ++ [[10, 0]]

/-- A text without conversions is printed. -/
theorem World.printf_plain (w : World) {fmt : List Byte} (hconv : Format.conversions fmt = [])
    (hfmt : Console.format fmt [] = fmt) (hlen : fmt.length < Format.outputBufferMaxLength1) :
    ∃ out, w.printf fmt [] = some ⟨w.files, w.console.writeToConsole (fmt ++ [0]), out⟩ ∧
      ∀ i, Format.outputBufferMaxLength1 ≤ i → out i = w.outputBuffer i := by
  have hprints : Format.PrintsAll (Format.conversions fmt) [] [] := by
    rw [hconv]
    exact .nil []
  have htext := World.printf_text (w := w) hprints (by rwa [hfmt])
  rwa [hfmt] at htext

/-- The loop of `echo` prints the strings, each with a blank behind it. -/
theorem foldlM_echo {ps : List Str} {ss : List Row} (h : List.Forall₂ IsString ps ss) (hlen : ∀ u ∈ ss, u.length ≤ 99)
    (w : World) : ∃ w', ps.foldlM echo w = some w' ∧
      w'.console = (ss.map (· ++ [32, 0])).foldl Console.writeToConsole w.console ∧
      ∀ i, Format.outputBufferMaxLength1 ≤ i → w'.outputBuffer i = w.outputBuffer i := by
  induction h generalizing w with
  | nil => exact ⟨w, rfl, rfl, fun _ _ => rfl⟩
  | @cons p u ps ss hp hps ih =>
    obtain ⟨hu, hss⟩ := List.forall_mem_cons.mp hlen
    have hfits : (u ++ [32]).length < Format.outputBufferMaxLength1 := by
      unfold Format.outputBufferMaxLength1
      rw [List.length_append, List.length_singleton]
      omega
    have hline : Console.format [37, 115, 32] [u] = u ++ [32] := rfl
    obtain ⟨out, hprint, hbehind⟩ := World.printf_string (w := w) hp rfl hline hfits (by omega)
    rw [List.append_assoc] at hprint
    obtain ⟨w', hrest, hconsole, hout⟩ := ih hss ⟨w.files, w.console.writeToConsole (u ++ [32, 0]), out⟩
    refine ⟨w', ?_, hconsole, fun i hi => (hout i hi).trans (hbehind i hi)⟩
    rw [List.foldlM_cons]
    unfold echo
    rw [hprint]
    exact hrest

/-- `echo`, started with some arguments, prints those behind the first one, each with a blank behind it, and a newline;
without such an argument it prints a message in front. -/
theorem echo_prints (mem : Mem) (stackBase : Word64) (hpage : FreshPage mem stackBase) (ws : List Row)
    (hlen : ws.length ≤ 10) (hwords : ∀ u ∈ ws, u.length ≤ 99 ∧ (0 : Byte) ∉ u) (w : World) :
    ∃ w', echoMain (programMem mem stackBase (some ws) none) (mainArgs mem stackBase (some ws) none).1
        (mainArgs mem stackBase (some ws) none).2.1 w = some w' ∧
      w'.console = (echoed ws).foldl Console.writeToConsole w.console ∧
      ∀ i, Format.outputBufferMaxLength1 ≤ i → w'.outputBuffer i = w.outputBuffer i := by
  obtain ⟨hargc, hargs⟩ := gets_args hpage hlen hwords
  generalize (mainArgs mem stackBase (some ws) none).1 = argc at hargc ⊢
  generalize (mainArgs mem stackBase (some ws) none).2.1 = argv at hargs ⊢
  generalize programMem mem stackBase (some ws) none = u at hargs ⊢
  -- The message.
  obtain ⟨w₁, hfirst, hconsole₁, hout₁⟩ : ∃ w₁, (if argc.toInt ≤ 1 then w.printf invalidArguments [] else some w) =
      some w₁ ∧ w₁.console = (if ws.length ≤ 1 then [invalidArguments ++ [0]] else []).foldl Console.writeToConsole
        w.console ∧ ∀ i, Format.outputBufferMaxLength1 ≤ i → w₁.outputBuffer i = w.outputBuffer i := by
    by_cases hone : ws.length ≤ 1
    · obtain ⟨out, hprint, hbehind⟩ := w.printf_plain (show Format.conversions invalidArguments = [] from rfl) rfl (by decide)
      rw [if_pos (by omega), if_pos hone]
      exact ⟨_, hprint, rfl, hbehind⟩
    · rw [if_neg (by omega), if_neg hone]
      exact ⟨w, rfl, rfl, fun _ _ => rfl⟩
  -- The arguments.
  have htail : List.Forall₂ IsString (((List.range argc.toInt.toNat).drop 1).map (arg u argv)) ws.tail := by
    rw [hargc, Int.toNat_natCast, List.map_drop, ← List.drop_one]
    exact List.forall₂_drop 1 hargs
  obtain ⟨w₂, hloop, hconsole₂, hout₂⟩ := foldlM_echo htail (fun v hv => (hwords v (List.mem_of_mem_tail hv)).1) w₁
  obtain ⟨out, hlast, hout₃⟩ := w₂.printf_plain (show Format.conversions [10] = [] from rfl) rfl (by decide)
  refine ⟨⟨w₂.files, w₂.console.writeToConsole [10, 0], out⟩, ?_, ?_, fun i hi =>
    (hout₃ i hi).trans ((hout₂ i hi).trans (hout₁ i hi))⟩
  · unfold echoMain
    rw [hfirst, Option.bind_some, hloop, Option.bind_some]
    exact hlast
  · unfold echoed
    rw [List.foldl_append, List.foldl_append, ← hconsole₁, ← hconsole₂]
    rfl

/-- `echo hi`. -/
theorem echo_prints_hi : ∃ w', echoMain (programMem (fun _ => 0) (convertVA 300) (some [[101], [104, 105]]) none)
      (mainArgs (fun _ => 0) (convertVA 300) (some [[101], [104, 105]]) none).1
      (mainArgs (fun _ => 0) (convertVA 300) (some [[101], [104, 105]]) none).2.1
      ⟨Tarfs.Files.fresh [47], Console.cleared fun _ => 0, fun _ => 0⟩ = some w' ∧
    w'.console = [[104, 105, 32, 0], [10, 0]].foldl Console.writeToConsole (Console.cleared fun _ => 0) ∧
    ∀ i, Format.outputBufferMaxLength1 ≤ i → w'.outputBuffer i = 0 :=
  echo_prints _ _ Proc.freshPage_zero _ (by decide) (by decide) _

end Nascent.Shell
