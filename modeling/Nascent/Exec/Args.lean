import Nascent.Proc.Model

/-!
# The page of the stack

The part of `sys_execvpe` of `src/sys/process.c` that puts the arguments and the environment into the page of the
stack: the copy to `args`, which has ten rows of 100 bytes, and `copy_arg_to_stack`, which works downwards from the
end of the page and keeps the pointers in arrays of ten elements. Its pointer is one to words of eight bytes:
`user_stack - 0x8` leaves eight words, and a string of the environment takes a word for each of its bytes, where an
argument takes a byte. None of the sizes is checked (`Passable`).
-/

namespace Nascent.Proc

open Bytes (Byte Block)
open Memory (Mem Word64)
open Strings
open Tarfs (len)

/-! ## The functions -/

/-- `str_copy` to an offset of a buffer. -/
def strCopy (source : List Byte) (buffer : Block) (o : ℕ) : Block := fun i =>
  if o ≤ i ∧ i ≤ o + source.length then strOf source (i - o) else buffer i

/-- The loop of `sys_execvpe` that fills `args`, an array of rows of 100 bytes. -/
def fillArgs : List (List Byte) → ℕ → Block → Block
  | [], _, args => args
  | s :: argv, argc, args => fillArgs argv (argc + 1) (strCopy s args (100 * argc))

/-- `args[i]`. -/
def row (args : Block) (i : ℕ) : Str := fun j => args (100 * i + j)

/-- What `copy_arg_to_stack` has done so far. -/
structure Build where
  /-- `user_stack`. -/
  userStack : Word64
  /-- The memory. -/
  mem : Mem
  /-- The addresses and the sizes of the strings and the words that it has stored, the last one first.
  The source has no such list. -/
  stores : List (Word64 × ℕ)

namespace Build

/-- Some bytes stored below `user_stack`, which is lowered. -/
def store (b : Build) (s : Str) (n lowered : ℕ) : Build :=
  let userStack := b.userStack - BitVec.ofNat 64 lowered
  ⟨userStack, copied b.mem s userStack n, (userStack, n) :: b.stores⟩

/-- Words that are left out. -/
def skip (b : Build) (n : ℕ) : Build := { b with userStack := b.userStack - BitVec.ofNat 64 n }

/-- The loops of `copy_arg_to_stack` that store strings, from the last one to the first, with the size of
what `user_stack` counts: the pointers to them. -/
def storeStrings (unit : ℕ) (b : Build) : List Str → List Word64 × Build
  | [] => ([], b)
  | s :: ss =>
    let (ptrs, b) := b.storeStrings unit ss
    let argLen := len s + 1
    let b := b.store s argLen (unit * argLen)
    (b.userStack :: ptrs, b)

/-- A word stored below `user_stack`. -/
def push (b : Build) (v : Word64) : Build := b.store (fun j => v.extractLsb' (8 * j) 8) 8 8

/-- The loops of `copy_arg_to_stack` that store pointers, from the last one to the first. -/
def pushAll (b : Build) (ptrs : List Word64) : Build := ptrs.foldr (fun p b => b.push p) b

end Build

/-- `copy_arg_to_stack`, with the environment as strings or the null pointer. -/
def copyArgToStack (b : Build) (args : Block) (argc : ℕ) (envp : Option (List Str)) : Build :=
  let b := b.skip (8 * 8)
  let (argv1, b) := b.storeStrings 8 (envp.getD [])
  let (argv, b) := b.storeStrings 1 ((List.range argc).map (row args))
  let b := b.skip (8 * 8)
  let b := b.pushAll argv1
  let b := b.skip (8 * 8)
  let b := b.pushAll argv
  b.push (BitVec.ofNat 64 argc)

/-- The part of `sys_execvpe` that builds the stack in a page. -/
def buildStack (m : Mem) (stackBase : Word64) (argv envp : Option (List (List Byte))) : Build :=
  let args := fillArgs (argv.getD []) 0 Bytes.zero
  copyArgToStack ⟨stackBase + pageSize, m, []⟩ args (argv.getD []).length
    (envp.map fun e => e.map strOf)

/-! ## What fits -/

/-- The number of bytes that strings take, by the size of what `user_stack` counts. -/
def stringBytes (unit : ℕ) (ss : List (List Byte)) : ℕ :=
  (ss.map fun s => unit * (s.length + 1)).sum

/-- The number of bytes of the page that are used. -/
def stackBytes (argv envp : List (List Byte)) : ℕ :=
  64 + stringBytes 8 envp + stringBytes 1 argv + 64 + 8 * envp.length + 64 + 8 * argv.length + 8

/-- Arguments and an environment that can be passed: at most ten strings each, those of the arguments of
at most 99 bytes, and everything fits in a page. -/
structure Passable (argv envp : List (List Byte)) : Prop where
  /-- The number of arguments. -/
  length_argv : argv.length ≤ 10
  /-- The arguments are strings, and fit in `args`. -/
  argv_string : ∀ s ∈ argv, s.length ≤ 99 ∧ (0 : Byte) ∉ s
  /-- The size of the environment. -/
  length_envp : envp.length ≤ 10
  /-- The environment has strings. -/
  envp_string : ∀ s ∈ envp, (0 : Byte) ∉ s
  /-- Everything fits. -/
  fits : stackBytes argv envp ≤ 4096

instance (argv envp : List (List Byte)) : Decidable (Passable argv envp) :=
  decidable_of_iff (argv.length ≤ 10 ∧ (∀ s ∈ argv, s.length ≤ 99 ∧ (0 : Byte) ∉ s) ∧ envp.length ≤ 10 ∧
    (∀ s ∈ envp, (0 : Byte) ∉ s) ∧ stackBytes argv envp ≤ 4096)
    ⟨fun ⟨h₁, h₂, h₃, h₄, h₅⟩ => ⟨h₁, h₂, h₃, h₄, h₅⟩, fun ⟨h₁, h₂, h₃, h₄, h₅⟩ => ⟨h₁, h₂, h₃, h₄, h₅⟩⟩

end Nascent.Proc
