import Nascent.Console.Format
import Nascent.Lib.Chunks
import Nascent.Tarfs.Listing
import Nascent.Tarfs.Opens

/-!
# Programs

The programs `cat.c` and `ls.c` of `src/bin`, with what they print. A program was started by `sys_execvpe`, so
that its descriptors are those of `clean_task_for_exec`, `Files.fresh`.

`cat` reads a file in parts of 100 bytes into a buffer of 100 bytes, and prints the buffer as a string. A part that fills
the buffer has no zero byte behind it, so that what lies behind the buffer on the stack is printed too, up to the first
zero byte. And a part with a zero byte is printed up to it. What is printed is the file if and only if nothing of this
happens (`cat_prints`).

`ls` prints the names that `read_dir` reports (`ls_prints`). For the root, `read_dir` itself prints four names, whatever
the archive has.
-/

namespace Nascent.Shell

open Bytes (Byte)
open Chunks
open Format (Call clearGlobalArray clearGlobalArray_apply outputBufferMaxLength1 printf printf_eq)
open Numeral
open Strings (Str IsString)
open Tarfs (CInt Entry Files Tar entryBytes pathSanitize)

/-! ## The program -/

/-- What a program works on. -/
structure World where
  /-- The files of the task. -/
  files : Files
  /-- The screen. -/
  console : Console
  /-- The bytes from `OUTPUT_BUFFER1` on. -/
  outputBuffer : Str

/-- `printf`. -/
def World.printf (w : World) (fmt : List Byte) (args : List Format.Arg) : Option World :=
  (Format.printf w.console w.outputBuffer fmt args).map fun r => { w with console := r.1, outputBuffer := r.2 }

/-- `memset`. -/
def memset (string : Str) (char : Byte) (length : ℕ) : Str :=
  (List.range length).foldl (fun s i => Function.update s i char) string

/-- `BUFF_SIZE` of `cat`. -/
def catBuffSize : ℕ := 100

/-- The text of a string. -/
def textOf (s : Str) : List Byte := Format.chars s (Tarfs.len s)

/-- `dpath is %s`. -/
def dpathIs : List Byte := [100, 112, 97, 116, 104, 32, 105, 115, 32, 37, 115]

/-- `Please provide valid path` and a newline. -/
def provideValidPath : List Byte :=
  [80, 108, 101, 97, 115, 101, 32, 112, 114, 111, 118, 105, 100, 101, 32,
    118, 97, 108, 105, 100, 32, 112, 97, 116, 104, 10]

/-- `out of file descriptors` and a newline. -/
def outOfFileDescriptors : List Byte :=
  [111, 117, 116, 32, 111, 102, 32, 102, 105, 108, 101, 32,
    100, 101, 115, 99, 114, 105, 112, 116, 111, 114, 115, 10]

/-- `file not found` and a newline. -/
def fileNotFound : List Byte := [102, 105, 108, 101, 32, 110, 111, 116, 32, 102, 111, 117, 110, 100, 10]

/-- `open_s`, with what it prints: the path that it looks for, and a message where the archive has no such file (then
`file_exists` fails) or the task no descriptor. -/
def World.openS (w : World) (tar : Tar) (dPath1 : List Byte) : Option (CInt × World) := do
  let dPath2 ← pathSanitize w.files.cwd dPath1
  let console := w.console.kprintf dpathIs [textOf (Strings.strOf dPath2.tail)]
  let found ← w.files.findFile tar dPath1
  let (fd, files) ← w.files.openS tar dPath1
  let console := match found with
    | none => console.kprintf provideValidPath []
    | some it => if (w.files.getFreeFd (it + 512)).isSome then console else console.kprintf outOfFileDescriptors []
  some (fd, { w with files := files, console := console })

/-- The screen after `read_s`, which prints something where the descriptor is not in use. -/
def World.readSConsole (w : World) (fd : ℕ) : Console :=
  if fd = 0 ∨ w.files.fileDesValidator fd = 0 then w.console else w.console.kprintf fileNotFound []

/-- The loop of `cat`, on the bytes from `buff` on. -/
def catLoop (m : Memory.Mem) (fd : ℕ) : ℕ → World → Str → Option World
  | 0, _, _ => none
  | fuel + 1, w, buff =>
    let (count, bytes, files) := w.files.readS m fd (BitVec.ofNat 32 catBuffSize)
    let w := { w with files := files, console := w.readSConsole fd }
    let buff := fill buff bytes
    if count ≠ 0 then
      (w.printf [37, 115] [.string buff]).bind fun w => catLoop m fd fuel w (memset buff 0 catBuffSize)
    else some w

/-- `cat`, on the bytes of the stack from `buff` on, or nothing where `open_s` has given it no descriptor of a file: with 0
it would read from the terminal, and with -1 `file_des_validator` looks in front of the descriptors. -/
def cat (tar : Tar) (fileName : List Byte) (stack : Str) (fuel : ℕ) (w : World) : Option World := do
  let (fd, w) ← w.openS tar fileName
  if fd.toInt ≤ 0 then none
  else
    let w ← catLoop tar.mem fd.toNat fuel w (memset stack 0 catBuffSize)
    let (_, files) ← w.files.closeS fd.toNat
    some { w with files := files }

/-- The text that `read_dir` prints for the root. -/
def rootListing : List Byte :=
  [117, 115, 114, 10, 32, 98, 105, 110, 10, 101, 116, 99, 10, 108, 105, 98, 10, 32]

/-- `Invalid fd` and a newline. -/
def invalidFd : List Byte := [73, 110, 118, 97, 108, 105, 100, 32, 102, 100, 10]

/-- The screen after `read_dir`, which prints something for the root and where it has no directory. -/
def World.readDirConsole (w : World) (fd : ℕ) : Console :=
  if fd = 25 then w.console.kprintf rootListing []
  else if w.files.fileDesValidator fd = 1 then w.console.kprintf invalidFd []
  else w.console

/-- `readdir`: the field `d_name` of what it returns, or nothing for the null pointer. -/
def readdir (tar : Tar) (fd : CInt) (w : World) (dName : Str) : Option (Option Str × World) := do
  let (r, name, files) ← w.files.readDir tar fd.toNat Bytes.zero
  let w := { w with files := files, console := w.readDirConsole fd.toNat }
  if r ≠ 0 then some (none, w) else (Format.strCopy name dName).map fun dName => (some dName, w)

/-- The loop of `ls`. -/
def lsLoop (tar : Tar) (fd : CInt) : ℕ → World → Str → Option World
  | 0, _, _ => none
  | fuel + 1, w, dName => do
    let (b, w) ← readdir tar fd w dName
    match b with
    | none => some w
    | some dName =>
      let w ← w.printf [37, 115, 10] [.string dName]
      lsLoop tar fd fuel w dName

/-- `ls`, with `dir_array`: the fields `fd`, and the field `name.d_name` of the element that `opendir` returns. -/
def ls (tar : Tar) (path : List Byte) (dirArray : ℕ → CInt) (dName : Str) (fuel : ℕ) (w : World) : Option World := do
  let (a1, dirArray, files) ← w.files.opendir tar dirArray path
  let w ← lsLoop tar (dirArray a1) fuel { w with files := files } dName
  let (_, files) ← w.files.closeDir (dirArray a1).toNat
  some { w with files := files }

/-- `main` of `ls`: without an argument, it takes the current directory. -/
def lsMain (tar : Tar) (arg : Option (List Byte)) (dirArray : ℕ → CInt) (dName : Str) (fuel : ℕ) (w : World) :
    Option World :=
  ls tar (arg.getD w.files.cwd) dirArray dName fuel w

/-! ## What `cat` prints -/

/-- What is printed for a part of a file, where `rest` lies behind the buffer. -/
def shown (rest part : List Byte) : List Byte :=
  (part ++ if part.length = catBuffSize then rest else []).takeWhile (· ≠ 0)

variable {stack buff : Str} {rest part contents : List Byte} {i : ℕ}

theorem memset_apply : memset stack 0 catBuffSize i = if i < catBuffSize then 0 else stack i := clearGlobalArray_apply

/-- The buffer after a part has been read, once it is cleared. -/
theorem memset_fill (hlen : part.length ≤ catBuffSize) :
    memset (fill (memset stack 0 catBuffSize) part) 0 catBuffSize = memset stack 0 catBuffSize := by
  funext i
  rw [memset_apply]
  by_cases hi : i < catBuffSize
  · rw [if_pos hi, memset_apply, if_pos hi]
  · rw [if_neg hi, fill_of_le (by omega)]

/-- The string of a buffer that has some bytes and a zero byte behind them ends with the first zero byte. -/
theorem isString_takeWhile {p : Str} {s : List Byte} (hget : ∀ i (hi : i < s.length), p i = s[i])
    (hend : p s.length = 0) : IsString p (s.takeWhile (· ≠ 0)) := by
  induction s generalizing p with
  | nil => exact ⟨fun i hi => absurd hi (Nat.not_lt_zero i), hend, List.not_mem_nil⟩
  | cons b s ih =>
    have hb : p 0 = b := hget 0 (Nat.succ_pos _)
    by_cases h0 : b = 0
    · rw [List.takeWhile_cons_of_neg (by simpa using h0)]
      exact ⟨fun i hi => absurd hi (Nat.not_lt_zero i), hb.trans h0, List.not_mem_nil⟩
    · have htail := ih (p := fun i => p (i + 1)) (fun i hi => hget (i + 1) (Nat.succ_lt_succ hi)) hend
      rw [List.takeWhile_cons_of_pos (by simpa using h0)]
      refine ⟨fun i hi => ?_, htail.get_end, ?_⟩
      · cases i with
        | zero => exact hb
        | succ i => exact htail.get i (Nat.lt_of_succ_lt_succ hi)
      · rw [List.mem_cons, not_or]
        exact ⟨Ne.symm h0, htail.ne_zero⟩

/-- The string that is printed for a part. -/
theorem isString_shown (hrest : IsString (fun i => stack (catBuffSize + i)) rest) (hlen : part.length ≤ catBuffSize) :
    IsString (fill (memset stack 0 catBuffSize) part) (shown rest part) := by
  unfold shown
  by_cases hfull : part.length = catBuffSize
  · rw [if_pos hfull]
    have hbehind : ∀ i, fill (memset stack 0 catBuffSize) part (part.length + i) = stack (catBuffSize + i) := by
      intro i
      rw [fill_of_le (Nat.le_add_right _ _), memset_apply, if_neg (by omega), hfull]
    apply isString_takeWhile
    · intro i hi
      by_cases hpart : i < part.length
      · rw [fill_of_lt hpart, List.getElem_append_left hpart]
      · obtain ⟨j, rfl⟩ := Nat.exists_eq_add_of_le (Nat.not_lt.mp hpart)
        have hj : j < rest.length := by
          rw [List.length_append] at hi
          omega
        rw [hbehind, hrest.get j hj, List.getElem_append_right (Nat.le_add_right _ _)]
        simp only [Nat.add_sub_cancel_left]
    · rw [List.length_append, hbehind]
      exact hrest.get_end
  · rw [if_neg hfull, List.append_nil]
    apply isString_takeWhile
    · exact fun i hi => fill_of_lt hi
    · rw [fill_of_le le_rfl, memset_apply, if_pos (by omega)]

theorem length_shown_lt (hroom : rest.length < 100) (hlen : part.length ≤ catBuffSize) :
    (shown rest part).length < outputBufferMaxLength1 := by
  have hle : (shown rest part).length ≤ (part ++ if part.length = catBuffSize then rest else []).length := by
    unfold shown
    exact (List.takeWhile_prefix _).length_le
  unfold catBuffSize at hlen
  unfold outputBufferMaxLength1
  rw [List.length_append] at hle
  split_ifs at hle
  · omega
  · rw [List.length_nil] at hle
    omega

/-- `printf` writes its text and a zero byte, and nothing behind its buffer. -/
theorem World.printf_text {w : World} {fmt : List Byte} {args : List Format.Arg} {texts : List (List Byte)}
    (hprints : Format.PrintsAll (Format.conversions fmt) args texts)
    (hlen : (Console.format fmt texts).length < outputBufferMaxLength1) :
    ∃ out, w.printf fmt args = some ⟨w.files, w.console.writeToConsole (Console.format fmt texts ++ [0]), out⟩ ∧
      ∀ i, outputBufferMaxLength1 ≤ i → out i = w.outputBuffer i := by
  refine ⟨fill (clearGlobalArray outputBufferMaxLength1 w.outputBuffer) (Console.format fmt texts), ?_, fun i hi =>
    Format.fill_behind hlen hi⟩
  unfold World.printf
  rw [printf_eq hprints hlen, Option.map_some]

/-- A string is printed. -/
theorem World.printf_string {w : World} {fmt text text' : List Byte} (hbuff : IsString buff text)
    (hfmt : Format.conversions fmt = [115]) (htext' : Console.format fmt [text] = text')
    (hlen : text'.length < outputBufferMaxLength1) (htext : text.length < 2 ^ 64) :
    ∃ out, w.printf fmt [.string buff] = some ⟨w.files, w.console.writeToConsole (text' ++ [0]), out⟩ ∧
      ∀ i, outputBufferMaxLength1 ≤ i → out i = w.outputBuffer i := by
  have hprints : Format.PrintsAll (Format.conversions fmt) [.string buff] [text] := by
    rw [hfmt]
    exact .cons (.string buff _ hbuff htext) (.nil [])
  subst htext'
  exact World.printf_text hprints hlen

/-! ## The loop of `cat` -/

variable {m : Memory.Mem} {ptr : Memory.Word64} {fd fuel total : ℕ}

/-- The loop prints what is left of the file, part by part. -/
theorem catLoop_eq (hrest : IsString (fun i => stack (catBuffSize + i)) rest) (hroom : rest.length < 100)
    (h0 : fd ≠ 0) (hlt : fd < Tarfs.maxFds) (hlies : Strings.Lies m ptr contents) (hc : contents.length < 2 ^ 31 - 1024)
    (w : World) (hat : (w.files.fdArray fd).At ptr contents.length total) (htotal : total < contents.length + 100)
    (hfuel : (chunks catBuffSize (contents.drop total)).length < fuel) :
    ∃ w', catLoop m fd fuel w (memset stack 0 catBuffSize) = some w' ∧
      w'.console = ((chunks catBuffSize (contents.drop total)).map (shown rest · ++ [0])).foldl
        Console.writeToConsole w.console ∧
      ∀ i, outputBufferMaxLength1 ≤ i → w'.outputBuffer i = w.outputBuffer i := by
  have hsize : (0 : ℤ) < (BitVec.ofNat 32 catBuffSize).toInt := by decide
  have hnum : (BitVec.ofNat 32 catBuffSize).toNat = 100 := rfl
  induction fuel generalizing w total with
  | zero => exact absurd hfuel (Nat.not_lt_zero _)
  | succ fuel ih =>
    obtain ⟨hcount, hbytes, hnext⟩ := hat.read hlies (by omega) hsize (by rw [hnum]; omega)
    rw [hnum] at hcount hbytes hnext
    have hread := Tarfs.Files.readS_eq (m := m) h0 hlt hat.alloted (BitVec.ofNat 32 catBuffSize)
    rw [hcount, hbytes] at hread
    have hvalid : w.files.fileDesValidator fd = 0 := by
      unfold Tarfs.Files.fileDesValidator
      rw [if_pos hlt, if_pos hat.alloted]
    have hquiet : w.readSConsole fd = w.console := if_pos (.inr hvalid)
    rw [catLoop, hread]
    dsimp only
    rw [hquiet]
    by_cases hnil : contents.drop total = []
    · -- The end of the file.
      have hzero : min 100 (contents.length - total) = 0 := by
        rw [List.drop_eq_nil_iff] at hnil
        omega
      rw [hzero, if_neg (by decide), hnil, chunks_nil]
      exact ⟨_, rfl, rfl, fun _ _ => rfl⟩
    · have hne : BitVec.ofNat 32 (min 100 (contents.length - total)) ≠ 0 := by
        rw [List.drop_eq_nil_iff] at hnil
        intro hzero
        have hnat := congrArg BitVec.toNat hzero
        rw [BitVec.toNat_ofNat] at hnat
        change _ = 0 at hnat
        omega
      have hlen : ((contents.drop total).take 100).length ≤ catBuffSize := List.length_take_le _ _
      rw [chunks_of_ne_nil (by decide) hnil, List.length_cons] at hfuel
      rw [if_pos hne, chunks_of_ne_nil (by decide) hnil, List.map_cons, List.foldl_cons]
      have hdrop : catBuffSize + total = total + 100 := Nat.add_comm _ _
      obtain ⟨files, hfiles⟩ : ∃ files, files = w.files.modify fd fun x =>
        (x.read m (BitVec.ofNat 32 catBuffSize)).2.2 := ⟨_, rfl⟩
      rw [← hfiles]
      have hfits := length_shown_lt hroom hlen
      have hline : Console.format [37, 115] [shown rest ((contents.drop total).take 100)] =
        shown rest ((contents.drop total).take 100) := List.append_nil _
      obtain ⟨out, hprint, hbehind⟩ := World.printf_string (w := { w with files := files }) (isString_shown hrest hlen)
        rfl hline hfits (hfits.trans (by decide))
      rw [hprint, Option.bind_some, memset_fill hlen]
      have hat' : (files.fdArray fd).At ptr contents.length (total + 100) := by
        rw [hfiles, Tarfs.Files.modify_fdArray_self]
        exact hnext
      rw [List.drop_drop, Nat.add_comm total] at hfuel ⊢
      rw [hdrop] at hfuel ⊢
      have hlong : total < contents.length := by
        rw [List.drop_eq_nil_iff] at hnil
        omega
      obtain ⟨w', hloop, hconsole, hout⟩ := ih ⟨files, w.console.writeToConsole (shown rest
        ((contents.drop total).take 100) ++ [0]), out⟩ hat' (by omega) (Nat.lt_of_succ_lt_succ hfuel)
      exact ⟨w', hloop, hconsole, fun i hi => (hout i hi).trans (hbehind i hi)⟩

/-! ## The program `cat` -/

theorem zero_notMem_shown (rest part : List Byte) : (0 : Byte) ∉ shown rest part := by
  unfold shown
  intro h0
  have hne := List.mem_takeWhile_imp h0
  exact absurd hne (by decide)

/-- A part without a zero byte is printed whole. -/
theorem shown_eq (hrest : (0 : Byte) ∉ rest) (hpart : (0 : Byte) ∉ part) :
    shown rest part = part ++ if part.length = catBuffSize then rest else [] := by
  unfold shown
  rw [List.takeWhile_eq_self_iff]
  intro b hb
  apply decide_eq_true
  rintro rfl
  rcases List.mem_append.mp hb with hb | hb
  · exact hpart hb
  · split_ifs at hb
    · exact hrest hb
    · exact List.not_mem_nil hb

/-- What is printed is the file if and only if it has no zero byte, and nothing lies behind a part that fills the
buffer. -/
theorem shown_eq_iff (hrest : (0 : Byte) ∉ rest) : (chunks catBuffSize contents).flatMap (shown rest) = contents ↔
    (0 : Byte) ∉ contents ∧ (contents.length < catBuffSize ∨ rest = []) := by
  have hn : catBuffSize ≠ 0 := by decide
  by_cases h0 : (0 : Byte) ∈ contents
  · refine iff_of_false (fun heq => ?_) fun h => h.1 h0
    rw [← heq] at h0
    obtain ⟨part, -, hmem⟩ := List.mem_flatMap.mp h0
    exact zero_notMem_shown rest part hmem
  · have hpart : ∀ c ∈ chunks catBuffSize contents, c <:+: contents := by
      intro c hc
      have hmem := List.infix_of_mem_flatten hc
      rwa [flatten_chunks hn] at hmem
    have hshown : ∀ c ∈ chunks catBuffSize contents, shown rest c =
        c ++ if c.length = catBuffSize then rest else [] := fun c hc =>
      shown_eq hrest fun hmem => h0 ((hpart c hc).subset hmem)
    rw [flatMap_chunks_eq_iff hn contents fun c hc => (hshown c hc) ▸ List.prefix_append c _, and_iff_right h0]
    constructor
    · intro hself
      by_contra hnot
      rw [not_or, Nat.not_lt] at hnot
      -- The first part fills the buffer.
      have hne : contents ≠ [] := List.ne_nil_of_length_pos (Nat.lt_of_lt_of_le (by decide) hnot.1)
      have hfirst : contents.take catBuffSize ∈ chunks catBuffSize contents := by
        rw [chunks_of_ne_nil hn hne]
        exact List.mem_cons_self
      have heq := hself _ hfirst
      rw [hshown _ hfirst, if_pos (List.length_take_of_le hnot.1)] at heq
      exact hnot.2 (List.append_right_eq_self.mp heq)
    · intro hor c hc
      rw [hshown c hc]
      have hle := (hpart c hc).length_le
      rcases hor with hlt | hnil
      · rw [if_neg (by omega), List.append_nil]
      · rw [hnil, ite_self, List.append_nil]

theorem textOf_eq {p : Str} {s : List Byte} (h : IsString p s) (hlen : s.length < 2 ^ 64) : textOf p = s := by
  have hchars : (Format.chars p s.length).length = s.length := by
    rw [Format.chars, List.length_map, List.length_range]
  rw [textOf, Tarfs.len_eq h hlen]
  refine List.ext_getElem hchars fun i hi hi' => ?_
  simp only [Format.chars, List.getElem_map, List.getElem_range]
  exact h.get i hi'

/-- `open_s` of a file of the archive prints its name, as long as a descriptor is free. -/
theorem World.openS_found {w : World} {es : List Entry} {path p : List Byte} {e : Entry} {tar : Tar}
    (hlies : Strings.Lies tar.mem tar.start (entryBytes es))
    (hstop : tar.start.toNat + (entryBytes es).length ≤ tar.stop.toNat) (hwalk : es.length ≤ tar.fuel)
    (hp : pathSanitize w.files.cwd path = some p) (hname : IsString (Strings.strOf p.tail) e.name)
    (hfind : es.find? (·.name = e.name) = some e) (hfree : w.files.HasFree) :
    ∃ it, Strings.Lies tar.mem it e.bytes ∧ w.openS tar path = some ((w.files.openEntry tar.mem it).1,
      ⟨(w.files.openEntry tar.mem it).2, w.console.kprintf dpathIs [e.name], w.outputBuffer⟩) := by
  obtain ⟨it, hit, -, hfound⟩ := w.files.openS_found hlies hstop hp hname hfind
  have hopen := hfound hwalk
  have htext := textOf_eq hname (e.length_name.trans_lt (by decide))
  obtain ⟨it', hit'⟩ : ∃ it', w.files.findFile tar path = some (some it') := by
    have hmap := (Tarfs.Files.openS_eq (s := w.files)).symm.trans hopen
    obtain ⟨found, hfile, hval⟩ := Option.map_eq_some_iff.mp hmap
    cases found with
    | some it' => exact ⟨it', hfile⟩
    | none =>
      -- A descriptor is not -1.
      have hfd : (-1 : CInt) = (w.files.openEntry tar.mem it).1 := congrArg Prod.fst hval
      rcases Tarfs.Files.openEntry_cases (s := w.files) tar.mem it with heq | ⟨fd, s', heq, hlt, -⟩
      · rw [heq] at hfd
        exact absurd hfd (show (-1 : CInt) ≠ 0 by decide)
      · rw [heq] at hfd
        have hnat := congrArg BitVec.toNat hfd
        have hmod := Nat.mod_le fd (2 ^ 32)
        rw [BitVec.toNat_ofNat] at hnat
        change 2 ^ 32 - 1 = fd % 2 ^ 32 at hnat
        unfold Tarfs.maxFds at hlt
        omega
  obtain ⟨fd, hfd⟩ : ∃ r, w.files.getFreeFd (it' + 512) = some r := by
    rcases Tarfs.Files.getFreeFd_cases w.files (it' + 512) with ⟨-, hno⟩ | ⟨fd, s', hget, -⟩
    · exact absurd hfree hno
    · exact ⟨_, hget⟩
  refine ⟨it, hit, ?_⟩
  unfold World.openS
  rw [hp]
  change (w.files.findFile tar path).bind _ = _
  rw [hit']
  change (w.files.openS tar path).bind _ = _
  rw [hopen, Option.bind_some, htext]
  dsimp only
  rw [hfd]
  rfl

/-- `cat` of a file of the archive prints the line with which `open_s` names the file, and then the file by parts of 100
bytes, each up to its first zero byte, and each full part with what lies behind the buffer on the stack; every part is
printed with a zero byte behind it. What is printed for the parts is the file if and only if it has no zero byte and is
shorter than 100 bytes, or nothing lies behind the buffer. -/
theorem cat_prints (tar : Tar) (es : List Entry) (hlies : Strings.Lies tar.mem tar.start (entryBytes es))
    (hstop : tar.start.toNat + (entryBytes es).length ≤ tar.stop.toNat) (hwalk : es.length ≤ tar.fuel)
    (cwd path p : List Byte) (e : Entry) (hp : pathSanitize cwd path = some p)
    (hname : IsString (Strings.strOf p.tail) e.name) (hfind : es.find? (·.name = e.name) = some e) (stack : Str)
    (rest : List Byte) (hrest : IsString (fun i => stack (catBuffSize + i)) rest) (hroom : rest.length < 100)
    (console : Console) (outputBuffer : Str) (fuel : ℕ) (hfuel : e.contents.length < fuel) :
    (∃ w, cat tar path stack fuel ⟨Files.fresh cwd, console, outputBuffer⟩ = some w ∧
      w.console = ((chunks catBuffSize e.contents).map (shown rest · ++ [0])).foldl Console.writeToConsole
        (console.kprintf dpathIs [e.name]) ∧
      ∀ i, outputBufferMaxLength1 ≤ i → w.outputBuffer i = outputBuffer i) ∧
    ((chunks catBuffSize e.contents).flatMap (shown rest) = e.contents ↔
      (0 : Byte) ∉ e.contents ∧ (e.contents.length < catBuffSize ∨ rest = [])) := by
  refine ⟨?_, shown_eq_iff hrest.ne_zero⟩
  have hfree : (Files.fresh cwd).HasFree := ⟨3, by decide, rfl⟩
  obtain ⟨it, hit, hopen⟩ := World.openS_found (w := ⟨Files.fresh cwd, console, outputBuffer⟩) hlies hstop hwalk hp hname
    hfind hfree
  have hat : (((Files.fresh cwd).openEntry tar.mem it).2.fdArray 3).At (it + 512) e.contents.length 0 :=
    Tarfs.Files.at_openEntry (Tarfs.Files.clean_fresh cwd) hit rfl (by decide) (by decide)
  have hlong := e.length_contents
  have hchunks : (chunks catBuffSize (e.contents.drop 0)).length < fuel :=
    (length_chunks_le (by decide) e.contents).trans_lt hfuel
  obtain ⟨w, hloop, hconsole, hout⟩ := catLoop_eq hrest hroom (by decide) (by decide) (Entry.lies_contents hit)
    hlong ⟨((Files.fresh cwd).openEntry tar.mem it).2, console.kprintf dpathIs [e.name], outputBuffer⟩ hat (by omega)
    hchunks
  have hclose : ∃ r, w.files.closeS 3 = some r := ⟨_, if_pos (by decide)⟩
  obtain ⟨⟨r, files⟩, hclose⟩ := hclose
  refine ⟨⟨files, w.console, w.outputBuffer⟩, ?_, hconsole, hout⟩
  unfold cat
  rw [hopen]
  change (catLoop tar.mem 3 fuel _ _).bind _ = _
  rw [hloop, Option.bind_some]
  change (w.files.closeS 3).bind _ = _
  rw [hclose, Option.bind_some]

/-- Three characters of a file, with an `A` behind the buffer. -/
theorem cat_prints_sample :
    (∃ w, cat Tarfs.sampleTar [47, 97] (fun i => if i = 100 then 65 else 0) 4
        ⟨Files.fresh [47], Console.cleared fun _ => 0, fun _ => 1⟩ = some w ∧
      w.console = ((chunks catBuffSize (Tarfs.sampleEntry 3 (by decide)).contents).map (shown [65] · ++ [0])).foldl
        Console.writeToConsole ((Console.cleared fun _ => 0).kprintf dpathIs [[97]]) ∧
      ∀ i, outputBufferMaxLength1 ≤ i → w.outputBuffer i = 1) ∧
    ((chunks catBuffSize (Tarfs.sampleEntry 3 (by decide)).contents).flatMap (shown [65]) =
        (Tarfs.sampleEntry 3 (by decide)).contents ↔
      (0 : Byte) ∉ (Tarfs.sampleEntry 3 (by decide)).contents ∧
        ((Tarfs.sampleEntry 3 (by decide)).contents.length < catBuffSize ∨ ([65] : List Byte) = [])) := by
  have hname : IsString (Strings.strOf [97]) (Tarfs.sampleEntry 3 (by decide)).name := Strings.isString_strOf (by decide)
  have hrest : IsString (fun i => if catBuffSize + i = 100 then 65 else 0) [65] := by
    refine ⟨fun i hi => ?_, rfl, by decide⟩
    obtain rfl : i = 0 := Nat.lt_one_iff.mp hi
    rfl
  exact cat_prints Tarfs.sampleTar _ Tarfs.lies_sampleTar Tarfs.stop_sampleTar (by decide) [47] [47, 97] [47, 97] _
    (by decide) hname (by simp) _ _ hrest (by decide) _ _ 4 (by decide)

/-! ## The program `ls` -/

open Forests (component)
open Tarfs (DirOf Ends OpenedDir NoPrefix children located nameOf slash)

variable {tar : Tar} {es : List Entry} {zeros : ℕ} {D L : Memory.Word64 × Entry} {s' : Files}
  {xs ys kept : List (Memory.Word64 × Entry)}

/-- The name of a child behind that of the directory has no zero byte, and is short. -/
theorem component_string (D x : Memory.Word64 × Entry) :
    (0 : Byte) ∉ component slash D.2.name x.2.name ∧ (component slash D.2.name x.2.name).length ≤ 99 := by
  have hfront : component slash D.2.name x.2.name <+: x.2.name.drop D.2.name.length := List.takeWhile_prefix _
  have hsuffix : x.2.name.drop D.2.name.length <:+ x.2.name := List.drop_suffix _ _
  constructor
  · exact fun h0 => x.2.zero_notMem_name (hsuffix.subset (hfront.subset h0))
  · exact hfront.length_le.trans (hsuffix.length_le.trans x.2.length_name)

/-- The line of a child. -/
def line (D x : Memory.Word64 × Entry) : List Byte := component slash D.2.name x.2.name ++ [10, 0]

/-- A string that is copied is the same string. -/
theorem isString_fill {text : List Byte} (buffer : Str) (h0 : (0 : Byte) ∉ text) :
    IsString (fill buffer (text ++ [0])) text := by
  have hlen : (text ++ [(0 : Byte)]).length = text.length + 1 := by rw [List.length_append, List.length_singleton]
  refine ⟨fun i hi => ?_, ?_, h0⟩
  · rw [fill_of_lt (by omega), List.getElem_append_left hi]
  · rw [fill_of_lt (by omega), List.getElem_concat_length rfl]

/-- `readdir` of the directory, where `read_dir` reports a name. -/
theorem readdir_some {fd : CInt} {w : World} {t : Files} {text : List Byte} (dName : Str)
    (hcall : w.files.readDir tar fd.toNat (fun _ => 0) = some (0, Strings.strOf text, t))
    (hconsole : w.readDirConsole fd.toNat = w.console) (h0 : (0 : Byte) ∉ text) (hlen : text.length ≤ 99) :
    readdir tar fd w dName = some (some (fill dName (text ++ [0])), { w with files := t }) := by
  have hcopy : Format.strCopy (Strings.strOf text) dName = some (fill dName (text ++ [0])) :=
    Format.strCopy_eq (Strings.isString_strOf h0) (by omega)
  unfold readdir
  change (w.files.readDir tar fd.toNat (fun _ => 0)).bind _ = _
  rw [hcall, Option.bind_some]
  dsimp only
  rw [if_neg (by decide), hcopy, Option.map_some, hconsole]

/-- `readdir` of the directory, where `read_dir` reports nothing. -/
theorem readdir_none {fd : CInt} {w : World} {dName : Str}
    (hcall : w.files.readDir tar fd.toNat (fun _ => 0) = some (1, fun _ => 0, w.files))
    (hconsole : w.readDirConsole fd.toNat = w.console) : readdir tar fd w dName = some (none, w) := by
  unfold readdir
  change (w.files.readDir tar fd.toNat (fun _ => 0)).bind _ = _
  rw [hcall, Option.bind_some]
  dsimp only
  rw [if_pos (by decide), hconsole]

/-- The loop prints the names that the scan finds. -/
theorem lsLoop_eq {fd : ℕ} (h : OpenedDir tar es zeros D s' fd) (hends : Ends tar.start es zeros)
    (w : World) (dName : Str) (hL : located tar.start es = xs ++ L :: ys) (hr : w.files.Reading fd D L)
    (hscan : Forests.scan nameOf D.2.name L.2.name ys = kept) (hfuel : kept.length < fuel) :
    ∃ w', lsLoop tar (BitVec.ofNat 32 fd) fuel w dName = some w' ∧
      w'.console = (kept.map (line D)).foldl Console.writeToConsole w.console ∧
      ∀ i, outputBufferMaxLength1 ≤ i → w'.outputBuffer i = w.outputBuffer i := by
  have hfd := h.fd_lt
  unfold Tarfs.maxFds at hfd
  have hnum : (BitVec.ofNat 32 fd).toNat = fd := by
    rw [BitVec.toNat_ofNat]
    omega
  induction fuel generalizing w dName L xs ys kept with
  | zero => exact absurd hfuel (Nat.not_lt_zero _)
  | succ fuel ih =>
    have hvalid : w.files.fileDesValidator fd = 0 := Tarfs.Files.fileDesValidator_eq_zero.mpr ⟨h.fd_lt, hr.alloted⟩
    have hconsole : w.readDirConsole (BitVec.ofNat 32 fd).toNat = w.console := by
      unfold World.readDirConsole
      rw [hnum, if_neg (by omega), hvalid, if_neg (by decide)]
    cases kept with
    | nil =>
      have hcall := h.readDir_nil hends hL hr hscan
      rw [← hnum] at hcall
      refine ⟨w, ?_, rfl, fun _ _ => rfl⟩
      rw [lsLoop, readdir_none hcall hconsole]
      rfl
    | cons x kept =>
      obtain ⟨t, zs, ws, hcall, ht, hx, hkept⟩ := h.readDir_cons hL hr hscan
      obtain ⟨h0, hlen⟩ := component_string D x
      rw [← hnum] at hcall
      have hread := readdir_some dName hcall hconsole h0 hlen
      have hfits : (component slash D.2.name x.2.name ++ [10]).length < outputBufferMaxLength1 := by
        unfold outputBufferMaxLength1
        rw [List.length_append, List.length_singleton]
        omega
      have hline : Console.format [37, 115, 10] [component slash D.2.name x.2.name] =
        component slash D.2.name x.2.name ++ [10] := rfl
      obtain ⟨out, hprint, hbehind⟩ := World.printf_string (w := { w with files := t })
        (isString_fill dName h0) rfl hline hfits (by omega)
      rw [List.append_assoc] at hprint
      obtain ⟨w', hloop, hw', hout⟩ := ih ⟨t, w.console.writeToConsole (line D x), out⟩
        (fill dName (component slash D.2.name x.2.name ++ [0])) hx ht hkept (Nat.lt_of_succ_lt_succ hfuel)
      refine ⟨w', ?_, hw', fun i hi => (hout i hi).trans (hbehind i hi)⟩
      rw [lsLoop, hread]
      exact (congrArg (Option.bind · _) hprint).trans hloop

/-- `ls` of a directory of the archive prints the names of its children in the order of the archive, each once and on a
line of its own, but for those that go on from the name that was printed before: it prints all of them if and only if no
child's name goes on from the one before it. -/
theorem ls_prints (tar : Tar) (es : List Entry) (zeros : ℕ) (D : Memory.Word64 × Entry) (h : DirOf tar es zeros D)
    (hends : Ends tar.start es zeros) (cwd : List Byte) (arg : Option (List Byte)) (hroot : ¬ Files.IsRoot (arg.getD cwd))
    (hpath : (pathSanitize cwd (arg.getD cwd)).bind Tarfs.withSlash = some (slash :: D.2.name)) (dirArray : ℕ → CInt)
    (dName : Str) (console : Console) (outputBuffer : Str) (fuel : ℕ) (hfuel : es.length < fuel) :
    ∃ kept, kept.Sublist (children tar es D) ∧ kept.Nodup ∧ (kept = children tar es D ↔ NoPrefix tar es D) ∧
      ∃ w, lsMain tar arg dirArray dName fuel ⟨Files.fresh cwd, console, outputBuffer⟩ = some w ∧
        w.console = (kept.map (line D)).foldl Console.writeToConsole console ∧
        ∀ i, outputBufferMaxLength1 ≤ i → w.outputBuffer i = outputBuffer i := by
  have hopen : (Files.fresh cwd).openDir tar (arg.getD cwd) =
      some (BitVec.ofNat 32 3, ((Files.fresh cwd).openHeader D.1).2) := h.openDir_eq hroot hpath
  have hdir : OpenedDir tar es zeros D ((Files.fresh cwd).openHeader D.1).2 3 :=
    ⟨h, ⟨_, _, hpath, hopen⟩, by decide, by decide⟩
  obtain ⟨xs, ys, hsplit, hscan⟩ := hdir.scan_eq
  have hsub : (Forests.scan nameOf D.2.name D.2.name (children tar es D)).Sublist (children tar es D) :=
    Forests.scan_sublist
  refine ⟨_, hsub, hdir.nodup_children.sublist hsub, hdir.scan_children_iff, ?_⟩
  have hlen : (Forests.scan nameOf D.2.name D.2.name (children tar es D)).length < fuel := by
    have hall : (located tar.start es).length = es.length := by
      rw [← List.length_map Prod.snd, Tarfs.map_snd_located]
    have hfilter : (children tar es D).length ≤ (located tar.start es).length := List.length_filter_le _ _
    have hle := hsub.length_le
    omega
  obtain ⟨w, hloop, hconsole, hout⟩ := lsLoop_eq hdir hends ⟨((Files.fresh cwd).openHeader D.1).2, console, outputBuffer⟩
    dName hsplit hdir.reading hscan hlen
  have hclose : ∃ r, w.files.closeDir 3 = some r := ⟨_, (if_neg (by decide)).trans (if_pos (by decide))⟩
  obtain ⟨⟨r, files⟩, hclose⟩ := hclose
  refine ⟨⟨files, w.console, w.outputBuffer⟩, ?_, hconsole, hout⟩
  have hopendir : (Files.fresh cwd).opendir tar dirArray (arg.getD cwd) =
      some (3, Function.update dirArray 3 3, ((Files.fresh cwd).openHeader D.1).2) := by
    unfold Files.opendir
    rw [hopen]
    rfl
  have hfd : Function.update dirArray 3 3 3 = BitVec.ofNat 32 3 := Function.update_self ..
  unfold lsMain ls
  change ((Files.fresh cwd).opendir tar dirArray (arg.getD cwd)).bind _ = _
  rw [hopendir, Option.bind_some]
  change (lsLoop tar (Function.update dirArray 3 3 3) fuel _ dName).bind _ = _
  rw [hfd, hloop, Option.bind_some]
  change (w.files.closeDir 3).bind _ = _
  rw [hclose, Option.bind_some]

/-- `ls /d` where the archive has `d/a` and `d/b`. -/
theorem ls_prints_ab : ∃ kept, kept.Sublist (children (Tarfs.archiveTar Tarfs.sampleAB) Tarfs.sampleAB
      (Tarfs.sampleStart, Tarfs.sampleDir)) ∧ kept.Nodup ∧
    (kept = children (Tarfs.archiveTar Tarfs.sampleAB) Tarfs.sampleAB (Tarfs.sampleStart, Tarfs.sampleDir) ↔
      NoPrefix (Tarfs.archiveTar Tarfs.sampleAB) Tarfs.sampleAB (Tarfs.sampleStart, Tarfs.sampleDir)) ∧
    ∃ w, lsMain (Tarfs.archiveTar Tarfs.sampleAB) (some [47, 100]) (fun _ => 0) (fun _ => 1) 4
        ⟨Files.fresh [47], Console.cleared fun _ => 0, fun _ => 1⟩ = some w ∧
      w.console = (kept.map (line (Tarfs.sampleStart, Tarfs.sampleDir))).foldl Console.writeToConsole
        (Console.cleared fun _ => 0) ∧ ∀ i, outputBufferMaxLength1 ≤ i → w.outputBuffer i = 1 := by
  have hroot : ¬ Files.IsRoot [47, 100] := fun heq =>
    absurd ((Tarfs.strCompare1_eq_zero (Strings.isString_strOf (by decide)) (Strings.isString_strOf (by decide)) (by decide)
      (by decide)).mp heq) (by decide)
  exact ls_prints _ _ 1 _ Tarfs.openedDir_sampleAB.toDirOf (Tarfs.ends_sampleFiles _) [47] (some [47, 100]) hroot
    (by decide) _ _ _ _ 4 (by decide)

end Nascent.Shell
