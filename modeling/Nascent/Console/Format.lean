import Nascent.Console.Page
import Nascent.Console.Parse
import Nascent.Tarfs.Archive

/-!
# The output buffer of `kprintf` and `printf`

`kprintf` of `src/sys/kprintf.c` and `printf` of `src/libc/printf.c` are the same loop over the format, with
buffers of 20480 and of 200 bytes. A conversion takes the next argument and writes it behind what is there, with
`num`, `pointer`, or `str_copy`, and adds what these return to the length. Nothing looks at the size of the buffer.
`kprintf` prints as many characters as it has counted, and `printf` writes one more, the zero byte.

`Console.format` says what text that is. It is what the loop leaves, and nothing behind the buffer is written, where
the text is shorter than the buffer and the arguments are such that `num` prints them (`kprintf_prints`). The number
0 counts for two characters, of which the second is the zero byte that the buffer was cleared with. So every line of
`printf` shows on the console with a zero byte behind it (`printf_shows_page`).
-/

namespace Nascent.Format

open Bytes (Byte)
open Numbers Numeral
open Console (isConversion)
open Strings (Str IsString)
open Memory (Word64)
open Tarfs (CInt len len_eq)

/-- An argument, as `va_arg` takes it. -/
inductive Arg
  /-- An `int` or an `unsigned int`. -/
  | int (n : CInt)
  /-- A pointer to characters. -/
  | string (s : Str)
  /-- An `unsigned long`. -/
  | long (n : Word64)

/-- `OUTPUT_BUFFER` and `OUTPUT_BUFFER_LENGTH`. -/
structure Output where
  /-- The buffer, and the bytes behind it. -/
  buffer : Str
  /-- The length. -/
  length : ℕ

/-- The loop of `str_copy`, from the byte `i` on. A string that does not end within the address space has no copy in
C either. -/
def strCopyLoop (source : Str) : ℕ → ℕ → Str → Option Str
  | 0, _, _ => none
  | fuel + 1, i, dest =>
    if source i = 0 then some (Function.update dest i 0)
    else strCopyLoop source fuel (i + 1) (Function.update dest i (source i))

/-- `str_copy`. -/
def strCopy (source dest : Str) : Option Str := strCopyLoop source (2 ^ 64) 0 dest

/-- `clear_global_array`, for a buffer of a size. -/
def clearGlobalArray (size : ℕ) (buffer : Str) : Str :=
  (List.range size).foldl (fun b i => Function.update b i 0) buffer

namespace Output

/-- `&OUTPUT_BUFFER[OUTPUT_BUFFER_LENGTH]`. -/
def tail (o : Output) : Str := fun i => o.buffer (o.length + i)

/-- What a function has written there, and what it has returned. -/
def advance (o : Output) (r : Str × ℕ) : Output :=
  ⟨fun i => if i < o.length then o.buffer i else r.1 (i - o.length), o.length + r.2⟩

/-- One more character. -/
def put (o : Output) (b : Byte) : Output := ⟨Function.update o.buffer o.length b, o.length + 1⟩

/-- A conversion. An argument of another type is undefined behaviour in C. -/
def convert (o : Output) (f : Byte) : Arg → Option Output
  | .int n =>
    if f = 99 then some (o.put (n.setWidth 8))
    else if f = 100 then (num n o.tail 10).map o.advance
    else if f = 120 then (num n o.tail 16).map o.advance
    else none
  | .string s =>
    if f = 115 then (strCopy s o.tail).map fun dest => o.advance (dest, len s) else none
  | .long n => if f = 112 then (pointer n o.tail).map o.advance else none

/-- The loop over the format. -/
def loop : List Byte → List Arg → Output → Option Output
  | [], _, o => some o
  | [f], _, o => some (o.put f)
  | f :: f' :: fs, args, o =>
    if f = 37 ∧ isConversion f' then args.head?.bind fun arg => (o.convert f' arg).bind (loop fs args.tail)
    else loop (f' :: fs) args (o.put f)

end Output

/-- The part of `kprintf` and `printf` up to the end of the loop, with the zero byte behind the text. -/
def output (size : ℕ) (buffer : Str) (stringToFormat : List Byte) (args : List Arg) : Option Output :=
  (Output.loop stringToFormat args ⟨clearGlobalArray size buffer, 0⟩).map fun o =>
    { o with buffer := Function.update o.buffer o.length 0 }

/-- `OUTPUT_BUFFER_MAX_LENGTH`. -/
def outputBufferMaxLength : ℕ := 20480

/-- `OUTPUT_BUFFER_MAX_LENGTH1`. -/
def outputBufferMaxLength1 : ℕ := 200

/-- The first bytes of a buffer. -/
def chars (s : Str) (n : ℕ) : List Byte := (List.range n).map s

/-- `kprintf`, with the buffer as it is left. -/
def kprintf (c : Console) (buffer : Str) (stringToFormat : List Byte) (args : List Arg) : Option (Console × Str) :=
  (output outputBufferMaxLength buffer stringToFormat args).map fun o =>
    (c.printToConsole (chars o.buffer o.length), o.buffer)

/-- `printf`, which calls `write(1, OUTPUT_BUFFER1, OUTPUT_BUFFER_LENGTH1 + 1)`. -/
def printf (c : Console) (buffer : Str) (stringToFormat : List Byte) (args : List Arg) : Option (Console × Str) :=
  (output outputBufferMaxLength1 buffer stringToFormat args).map fun o =>
    (c.writeToConsole (chars o.buffer (o.length + 1)), o.buffer)

/-! ## What is printed -/

/-- The conversions of a format, in their order. -/
def conversions : List Byte → List Byte
  | [] => []
  | [_] => []
  | f :: f' :: fs => if f = 37 ∧ isConversion f' then f' :: conversions fs else conversions (f' :: fs)

/-- The text that a conversion prints for an argument. `num` prints neither the smallest number nor a negative one in
base 16. -/
inductive Prints : Byte → Arg → List Byte → Prop
  | char (n : CInt) : Prints 99 (.int n) [n.setWidth 8]
  | decimal (n : CInt) (h0 : n ≠ 0) (hmin : n ≠ BitVec.intMin 32) : Prints 100 (.int n) (decimalText n)
  | decimalZero : Prints 100 (.int 0) [48, 0]
  | hex (n : CInt) (h : 0 < n.toInt) : Prints 120 (.int n) (hexText n)
  | hexZero : Prints 120 (.int 0) [48, 0]
  | string (p : Str) (s : List Byte) (h : IsString p s) (hlen : s.length < 2 ^ 64) : Prints 115 (.string p) s
  | long (n : Word64) : Prints 112 (.long n) (pointerText n)

/-- The texts of the arguments, of which there are enough. -/
inductive PrintsAll : List Byte → List Arg → List (List Byte) → Prop
  | nil (args : List Arg) : PrintsAll [] args []
  | cons {f : Byte} {fs : List Byte} {arg : Arg} {args : List Arg} {text : List Byte} {texts : List (List Byte)}
    (h : Prints f arg text) (hrest : PrintsAll fs args texts) : PrintsAll (f :: fs) (arg :: args) (text :: texts)

variable {base : Str} {text s : List Byte} {fmt : List Byte} {args : List Arg} {texts : List (List Byte)} {size i : ℕ}

/-! ## One conversion -/

/-- `str_copy` writes the string and its end. -/
theorem strCopy_eq {p dest : Str} (h : IsString p s) (hlen : s.length < 2 ^ 64) :
    strCopy p dest = some (fill dest (s ++ [0])) := by
  have hloop : ∀ (fuel i : ℕ), i ≤ s.length → s.length < i + fuel →
      strCopyLoop p fuel i (fill dest (s.take i)) = some (fill dest (s ++ [0])) := by
    intro fuel
    induction fuel with
    | zero => exact fun i hi hf => by omega
    | succ fuel ih =>
      intro i hi hf
      have htake : (s.take i).length = i := List.length_take_of_le hi
      rw [strCopyLoop]
      rcases hi.lt_or_eq with hlt | rfl
      · rw [if_neg (h.get_ne hlt), h.get i hlt, update_fill_of_length htake,
          List.take_concat_get' s i hlt]
        exact ih (i + 1) hlt (by omega)
      · rw [if_pos h.get_end, update_fill_of_length htake, List.take_length]
  have hzero := hloop (2 ^ 64) 0 (Nat.zero_le _) (by omega)
  rwa [List.take_zero, fill_nil] at hzero

/-- The place behind the text. -/
theorem tail_fill : Output.tail ⟨fill base text, text.length⟩ = fun i => base (text.length + i) := by
  funext i
  exact fill_of_le (by dsimp only; omega)

/-- A text that is written there comes behind the other. -/
theorem advance_fill : Output.advance ⟨fill base text, text.length⟩
    (fill (fun i => base (text.length + i)) s, s.length) = ⟨fill base (text ++ s), (text ++ s).length⟩ := by
  unfold Output.advance
  rw [List.length_append]
  congr 1
  funext i
  dsimp only
  by_cases hi : i < text.length
  · rw [if_pos hi, fill_of_lt hi, fill_of_lt (by rw [List.length_append]; omega), List.getElem_append_left hi]
  · have hsum : text.length + (i - text.length) = i := by omega
    rw [if_neg hi]
    by_cases his : i - text.length < s.length
    · rw [fill_of_lt his, fill_of_lt (by rw [List.length_append]; omega), List.getElem_append_right (by omega)]
    · rw [fill_of_le (by omega), fill_of_le (by rw [List.length_append]; omega), hsum]

/-- A zero byte behind a text that is there already. -/
theorem fill_concat_zero (h : base s.length = 0) : fill base (s ++ [0]) = fill base s := by
  rw [← update_fill]
  funext i
  by_cases hi : i = s.length
  · rw [hi, Function.update_self, fill_of_le le_rfl, h]
  · rw [Function.update_of_ne hi]

/-- A conversion writes its text behind the other, where there is room for it. -/
theorem Prints.convert {f : Byte} {arg : Arg} (h : Prints f arg s) (hbase : ∀ i < size, base i = 0)
    (hroom : (text ++ s).length < size) : Output.convert ⟨fill base text, text.length⟩ f arg =
      some ⟨fill base (text ++ s), (text ++ s).length⟩ := by
  rw [List.length_append] at hroom
  cases h with
  | char n =>
    rw [Output.convert, if_pos rfl]
    unfold Output.put
    rw [update_fill, List.length_append, List.length_singleton]
  | decimal n h0 hmin =>
    rw [Output.convert, if_neg (by decide), if_pos rfl, tail_fill, num_decimal h0 hmin, Option.map_some, advance_fill]
  | decimalZero =>
    have hzero : base (text.length + 1) = 0 := hbase _ ((Nat.lt_succ_self _).trans hroom)
    rw [Output.convert, if_neg (by decide), if_pos rfl, tail_fill, num_zero, Option.map_some,
      ← fill_concat_zero (s := [48]) hzero]
    exact congrArg some (advance_fill (s := [48, 0]))
  | hex n hn =>
    rw [Output.convert, if_neg (by decide), if_neg (by decide), if_pos rfl, tail_fill, num_hex hn, Option.map_some,
      advance_fill]
  | hexZero =>
    have hzero : base (text.length + 1) = 0 := hbase _ ((Nat.lt_succ_self _).trans hroom)
    rw [Output.convert, if_neg (by decide), if_neg (by decide), if_pos rfl, tail_fill, num_zero, Option.map_some,
      ← fill_concat_zero (s := [48]) hzero]
    exact congrArg some (advance_fill (s := [48, 0]))
  | string p _ hs hlen =>
    have hzero : base (text.length + s.length) = 0 := hbase _ hroom
    have hend : fill (fun i => base (text.length + i)) (s ++ [0]) = fill (fun i => base (text.length + i)) s :=
      fill_concat_zero hzero
    rw [Output.convert, if_pos rfl, tail_fill, strCopy_eq hs hlen, Option.map_some, len_eq hs hlen, hend, advance_fill]
  | long n =>
    rw [Output.convert, if_pos rfl, tail_fill, pointer_eq, Option.map_some, advance_fill]

/-! ## The loop -/

/-- The loop leaves the text of the format. -/
theorem loop_eq (hbase : ∀ i < size, base i = 0) : ∀ (fmt : List Byte) (args : List Arg) (texts : List (List Byte))
    (text : List Byte), PrintsAll (conversions fmt) args texts → (text ++ Console.format fmt texts).length < size →
    Output.loop fmt args ⟨fill base text, text.length⟩ =
      some ⟨fill base (text ++ Console.format fmt texts), (text ++ Console.format fmt texts).length⟩
  | [], args, texts, text, _, _ => by
    rw [Output.loop, Console.format, List.append_nil]
  | [f], args, texts, text, _, _ => by
    rw [Output.loop, Console.format]
    unfold Output.put
    rw [update_fill, List.length_append, List.length_singleton]
  | f :: f' :: fs, args, texts, text, hprints, hroom => by
    rw [conversions] at hprints
    rw [Console.format] at hroom ⊢
    rw [Output.loop]
    by_cases hf : f = 37 ∧ isConversion f' = true
    · rw [if_pos hf] at hprints hroom ⊢
      rw [if_pos hf]
      obtain - | ⟨hfirst, hrest⟩ := hprints
      rename_i arg args first texts
      rw [List.headD_cons, List.tail_cons, ← List.append_assoc] at hroom ⊢
      have hroom' : (text ++ first).length < size := by
        rw [List.length_append] at hroom
        omega
      rw [List.head?_cons, Option.bind_some, List.tail_cons, hfirst.convert hbase hroom', Option.bind_some]
      exact loop_eq hbase fs args texts (text ++ first) hrest hroom
    · rw [if_neg hf] at hprints hroom ⊢
      rw [if_neg hf]
      have hput : Output.put ⟨fill base text, text.length⟩ f = ⟨fill base (text ++ [f]), (text ++ [f]).length⟩ := by
        unfold Output.put
        rw [update_fill, List.length_append, List.length_singleton]
      rw [List.append_cons] at hroom ⊢
      rw [hput]
      exact loop_eq hbase (f' :: fs) args texts (text ++ [f]) hprints hroom

theorem clearGlobalArray_apply {buffer : Str} : clearGlobalArray size buffer i = if i < size then 0 else buffer i := by
  unfold clearGlobalArray
  induction size with
  | zero => rw [if_neg (Nat.not_lt_zero i)]; rfl
  | succ n ih =>
    rw [List.range_succ, List.foldl_append, List.foldl_cons, List.foldl_nil]
    by_cases hi : i = n
    · rw [hi, Function.update_self, if_pos (Nat.lt_succ_self n)]
    · rw [Function.update_of_ne hi, ih]
      refine if_congr ?_ rfl rfl
      omega

/-- The buffer after a call: the text, its end, zeros up to the end of the buffer, and what lies behind it. -/
theorem output_eq {buffer : Str} (h : PrintsAll (conversions fmt) args texts)
    (hroom : (Console.format fmt texts).length < size) : output size buffer fmt args =
      some ⟨fill (clearGlobalArray size buffer) (Console.format fmt texts), (Console.format fmt texts).length⟩ := by
  have hbase : ∀ i < size, clearGlobalArray size buffer i = 0 := fun i hi => by
    rw [clearGlobalArray_apply, if_pos hi]
  have hloop := loop_eq hbase fmt args texts [] h hroom
  rw [fill_nil, List.nil_append] at hloop
  unfold output
  rw [List.length_nil] at hloop
  rw [hloop, Option.map_some]
  dsimp only
  rw [update_fill, fill_concat_zero (hbase _ hroom)]

/-- The first bytes of the buffer are the text. -/
theorem chars_fill : chars (fill base s) s.length = s := by
  unfold chars
  refine List.ext_getElem (by simp) fun i hi hi' => ?_
  rw [List.getElem_map, List.getElem_range, fill_of_lt hi']

/-- With the byte behind it. -/
theorem chars_fill_succ (h : base s.length = 0) : chars (fill base s) (s.length + 1) = s ++ [0] := by
  have hlen : (s ++ [(0 : Byte)]).length = s.length + 1 := by rw [List.length_append, List.length_singleton]
  rw [← fill_concat_zero h, ← hlen, chars_fill]

/-- Nothing behind the buffer is written. -/
theorem fill_behind {buffer : Str} (hroom : s.length < size) (hi : size ≤ i) :
    fill (clearGlobalArray size buffer) s i = buffer i := by
  rw [fill_of_le (by omega), clearGlobalArray_apply, if_neg (Nat.not_lt.mpr hi)]

/-- `kprintf`, with the text. -/
theorem kprintf_eq {c : Console} {buffer : Str} (h : PrintsAll (conversions fmt) args texts)
    (hroom : (Console.format fmt texts).length < outputBufferMaxLength) : kprintf c buffer fmt args =
      some (c.kprintf fmt texts, fill (clearGlobalArray outputBufferMaxLength buffer) (Console.format fmt texts)) := by
  unfold kprintf
  rw [output_eq h hroom, Option.map_some, chars_fill]
  rfl

/-- Where the arguments suit the conversions of the format, and the text is shorter than the buffer, `kprintf` prints the
text of the format, with the zero byte behind the digit of a number 0, and writes nothing behind its buffer. -/
theorem kprintf_prints (c : Console) (buffer : Str) (fmt : List Byte) (args : List Arg) (texts : List (List Byte))
    (h : PrintsAll (conversions fmt) args texts) (hroom : (Console.format fmt texts).length < outputBufferMaxLength) :
    ∃ buffer', kprintf c buffer fmt args = some (c.kprintf fmt texts, buffer') ∧
      ∀ i, outputBufferMaxLength ≤ i → buffer' i = buffer i := by
  exact ⟨_, kprintf_eq h hroom, fun i hi => fill_behind hroom hi⟩

/-- The arguments of `"%d %s"`: 0 and `"ls"`. -/
theorem printsAll_row : PrintsAll (conversions [37, 100, 32, 37, 115]) [.int 0, .string (Strings.strOf [108, 115])]
    [[48, 0], [108, 115]] :=
  .cons .decimalZero (.cons (.string _ _ (Strings.isString_strOf (by decide)) (by decide)) (.nil []))

/-- `kprintf("%d %s", 0, "ls")` prints a zero byte behind the digit. -/
theorem kprintf_prints_row : ∃ buffer', kprintf (Console.cleared fun _ => 0) (fun _ => 1) [37, 100, 32, 37, 115]
      [.int 0, .string (Strings.strOf [108, 115])] =
    some ((Console.cleared fun _ => 0).kprintf [37, 100, 32, 37, 115] [[48, 0], [108, 115]], buffer') ∧
      ∀ i, outputBufferMaxLength ≤ i → buffer' i = 1 :=
  kprintf_prints _ _ _ _ _ printsAll_row (by decide)

/-- `printf`, with the text and the zero byte behind it. -/
theorem printf_eq {c : Console} {buffer : Str} (h : PrintsAll (conversions fmt) args texts)
    (hroom : (Console.format fmt texts).length < outputBufferMaxLength1) : printf c buffer fmt args =
      some (c.writeToConsole (Console.format fmt texts ++ [0]),
        fill (clearGlobalArray outputBufferMaxLength1 buffer) (Console.format fmt texts)) := by
  have hzero : clearGlobalArray outputBufferMaxLength1 buffer (Console.format fmt texts).length = 0 := by
    rw [clearGlobalArray_apply, if_pos hroom]
  unfold printf
  rw [output_eq h hroom, Option.map_some, chars_fill_succ hzero]

/-- A call of `printf`: its format, its arguments, and the texts of these. -/
structure Call where
  /-- The format. -/
  fmt : List Byte
  /-- The arguments. -/
  args : List Arg
  /-- The texts. -/
  texts : List (List Byte)
  /-- The arguments suit the conversions. -/
  prints : PrintsAll (conversions fmt) args texts
  /-- The text is shorter than the buffer. -/
  fits : (Console.format fmt texts).length < outputBufferMaxLength1

/-- What a call of `printf` shows. -/
def Call.shown (call : Call) : List Byte := Console.format call.fmt call.texts ++ [0]

/-- Some calls of `printf`. -/
def printfs (c : Console) (buffer : Str) (calls : List Call) : Option (Console × Str) :=
  calls.foldlM (fun r call => printf r.1 r.2 call.fmt call.args) (c, buffer)

/-- The calls write what they show, and nothing behind the buffer. -/
theorem printfs_eq (calls : List Call) (c : Console) (buffer : Str) : ∃ buffer',
    printfs c buffer calls = some ((calls.map Call.shown).foldl Console.writeToConsole c, buffer') ∧
      ∀ i, outputBufferMaxLength1 ≤ i → buffer' i = buffer i := by
  induction calls generalizing c buffer with
  | nil => exact ⟨buffer, rfl, fun _ _ => rfl⟩
  | cons call calls ih =>
    obtain ⟨buffer', hrest, hbehind⟩ := ih (c.writeToConsole call.shown)
      (fill (clearGlobalArray outputBufferMaxLength1 buffer) (Console.format call.fmt call.texts))
    refine ⟨buffer', ?_, fun i hi => (hbehind i hi).trans (fill_behind call.fits hi)⟩
    unfold printfs at hrest ⊢
    rw [List.foldlM_cons, printf_eq call.prints call.fits]
    exact hrest

/-- After any calls of `printf` whose arguments suit their formats and whose texts are shorter than the buffer, the screen
shows the end of the page of these texts, each with a zero byte behind it, and nothing behind the buffer was written. -/
theorem printf_shows_page (video : ℕ → Byte) (buffer : Str) (calls : List Call) :
    ∃ c buffer', printfs (Console.cleared video) buffer calls = some (c, buffer') ∧
      (∃ top, c.ShowsEnd ((calls.flatMap Call.shown).foldl Page.put Page.blank) top) ∧
      ∀ i, outputBufferMaxLength1 ≤ i → buffer' i = buffer i := by
  obtain ⟨buffer', hcalls, hbehind⟩ := printfs_eq calls (Console.cleared video) buffer
  obtain ⟨top, hshows⟩ := (Console.shows_cleared video).calls (calls.map Call.shown)
  refine ⟨_, buffer', hcalls, ⟨top, ?_⟩, hbehind⟩
  rw [List.flatMap_def]
  exact hshows.showsEnd

/-- One call, `printf("%d %s", 0, "ls")`. -/
theorem printf_shows_row : ∃ c buffer', printfs (Console.cleared fun _ => 0) (fun _ => 1)
      [⟨[37, 100, 32, 37, 115], _, _, printsAll_row, by decide⟩] = some (c, buffer') ∧
    (∃ top, c.ShowsEnd (([48, 0, 32, 108, 115, 0] : List Byte).foldl Page.put Page.blank) top) ∧
    ∀ i, outputBufferMaxLength1 ≤ i → buffer' i = 1 :=
  printf_shows_page _ _ _

end Nascent.Format
