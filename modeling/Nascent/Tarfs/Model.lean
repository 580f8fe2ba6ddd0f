import Nascent.Lib.Strings

/-!
# The tar file system

The archive is linked into the kernel, between `_binary_tarfs_start` and `_binary_tarfs_end`, and is
read where it lies: `get_next_tar_header` gives the address of the header behind a file, and every
lookup walks from header to header while the address is below the end (`src/sys/tarfs.c`). Integers
of type `int` have 32 bits and addresses 64 bits, and both wrap around. The walk has no other end
than the end of the image, so the functions that walk take a number of steps and return nothing
where it does not suffice.
-/

namespace Nascent.Tarfs

open Nascent.Bytes (Byte)
open Nascent.Memory Nascent.Strings

/-- The value of a C `int`. -/
abbrev CInt := BitVec 32

/-! ## Strings -/

/-- The loop of `len`, from the byte `i` on. A string that does not end within the address space has
no length in C either. -/
def lenLoop (s : Str) : ℕ → ℕ → ℕ
  | 0, i => i
  | fuel + 1, i => if s i = 0 then i else lenLoop s fuel (i + 1)

/-- `len`: the number of bytes before the first zero byte. -/
def len (s : Str) : ℕ := lenLoop s (2 ^ 64) 0

/-- The loop of `str_compare1`, from the byte `i` on. -/
def strCompareLoop (s1 s2 : Str) : ℕ → ℕ → CInt
  | 0, _ => 0
  | fuel + 1, i =>
    if s1 i = 0 then 0 else if s1 i ≠ s2 i then 1 else strCompareLoop s1 s2 fuel (i + 1)

/-- `str_compare1`: 0 where two strings are equal, and 1 otherwise. -/
def strCompare1 (s1 s2 : Str) : CInt :=
  if len s1 ≠ len s2 then 1 else strCompareLoop s1 s2 (2 ^ 64) 0

/-- `str_compare`, the same function on arguments declared as arrays. -/
def strCompare (s1 s2 : Str) : CInt := strCompare1 s1 s2

/-! ## Headers -/

/-- The offset of the size in a header, behind the name, the mode and the two owners. -/
def sizeOffset : Word64 := 124

/-- The loop of `convert_oct_int` from the digit `i` down to the first one. A `char` is signed. -/
def convertOctIntLoop (digit : ℕ → Byte) : ℕ → CInt → CInt → CInt
  | 0, fileSize, f => fileSize + ((digit 0).signExtend 32 - 48) * f
  | i + 1, fileSize, f =>
    convertOctIntLoop digit i (fileSize + ((digit (i + 1)).signExtend 32 - 48) * f) (f * 8)

/-- `convert_oct_int`: the value of eleven octal digits. -/
def convertOctInt (m : Mem) (octString : Word64) : CInt :=
  convertOctIntLoop (fun i => m (octString + BitVec.ofNat 64 i)) 10 0 1

/-- The distance from a header to the next one, by the size of the file. -/
def blockLength (fileSize : CInt) : CInt :=
  if fileSize.srem 512 = 0 then (fileSize.sdiv 512 + 1) * 512 else (fileSize.sdiv 512 + 2) * 512

/-- `get_next_tar_header`. -/
def getNextTarHeader (m : Mem) (presentHeader : Word64) : Word64 :=
  presentHeader + (blockLength (convertOctInt m (presentHeader + sizeOffset))).signExtend 64

/-! ## Lookups -/

/-- The headers that the loop `while (tarfs_iterator < &_binary_tarfs_end)` visits. -/
def walk (m : Mem) (stop : Word64) : ℕ → Word64 → Option (List Word64)
  | 0, _ => none
  | fuel + 1, it =>
    if it < stop then (walk m stop fuel (getNextTarHeader m it)).map (it :: ·) else some []

/-- The first header of the walk that a comparison with its name finds equal, or nothing in the inner
option where there is none. -/
def lookup (compare : Str → CInt) (m : Mem) (stop : Word64) : ℕ → Word64 → Option (Option Word64)
  | 0, _ => none
  | fuel + 1, it =>
    if it < stop then
      if compare (strAt m it) = 0 then some (some it)
      else lookup compare m stop fuel (getNextTarHeader m it)
    else some none

/-- `file_exists`, of an image from `start` to `stop`. -/
def fileExists (m : Mem) (start stop : Word64) (fuel : ℕ) (fName : Str) : Option CInt :=
  (lookup (strCompare1 · fName) m stop fuel start).map fun
    | some _ => 1
    | none => -1

/-! ## Paths -/

/-- The size of the buffers in which paths are put together. -/
def pathSize : ℕ := 100

/-- The character `/`. -/
def slash : Byte := 47

/-- The character `.`. -/
def dot : Byte := 46

/-- The loop `while (b[p] != '/') p--` of `remove_d` from `p = j - 3` on: what `b` has up to the
character it finds. The loop leaves the buffer where there is none. -/
def lastSlash (b : List Byte) : Option (List Byte) :=
  if b.length < 3 then none
  else match (b.take (b.length - 2)).reverse.dropWhile (· ≠ slash) with
    | [] => none
    | c :: cs => some (c :: cs).reverse

/-- The loop of `remove_d`, with what is left of `buff` from its index `i` on, the number `c` of dots
and what `b` has so far. A zero byte that the loop puts into `b` is the end of the result. -/
def removeDLoop : List Byte → ℕ → ℕ → List Byte → Option (List Byte)
  | [], _, _, b => some b
  | x :: xs, i, c, b =>
    let c := if x = dot then c + 1 else c
    if c = 2 ∧ i ≠ 2 then
      (lastSlash b).bind fun b =>
        match xs with
        | [] => some b
        | [_] => some b
        | _ :: z :: zs => removeDLoop zs (i + 3) (if z = dot then 1 else 0) (b ++ [z])
    else removeDLoop xs (i + 1) c (b ++ [x])

/-- `remove_d`: the path without its `..` parts, or nothing where the search for a `/` leaves the
buffer. -/
def removeD (buff : List Byte) : Option (List Byte) := removeDLoop buff 0 0 []

/-- `path_sanitize`, with the current directory and the path as strings, or nothing where it reads or
writes outside its buffers. -/
def pathSanitize (cwd binaryName : List Byte) : Option (List Byte) :=
  let buff :=
    if binaryName.head? = some slash then some binaryName
    else match cwd.getLast? with
      | none => none
      | some c => some (cwd ++ (if c = slash then [] else [slash]) ++ binaryName)
  buff.bind fun buff => if buff.length < pathSize then removeD buff else none

end Nascent.Tarfs
