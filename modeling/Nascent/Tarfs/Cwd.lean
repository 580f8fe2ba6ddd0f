import Nascent.Tarfs.Listing
import Nascent.Tarfs.Paths

/-!
# The working directory

`set_cwd` of `src/sys/tarfs.c`, and the copy of the working directory that `fork_process` makes. The path
is put behind the working directory where it is relative, `remove_d` resolves the `..` parts, and the result
is the new working directory where the archive has an entry of this name.

A path is a list of parts, and so is the working directory, with a `/` behind each of them. For these
`remove_d` keeps a stack of parts (`removeD_parts`). The working directory is always a directory of the
archive or the root where the walk through the zero blocks ends (`CwdSys.cwd_real`).
-/

namespace Nascent.Tarfs

open Nascent.Bytes (Byte)
open Nascent.Memory Nascent.Strings Nascent.Lines Nascent.Runs

/-- The size of the working directory in a PCB. -/
def cwdSize : ℕ := 75

/-- A copy to the working directory, or nothing where it leaves the PCB. -/
def copyCwd (buff : List Byte) : Option (List Byte) := if buff.length < cwdSize then some buff else none

/-- `set_cwd`: the working directory after it, or nothing where the path leaves its buffer or the walk does
not end. -/
def setCwd (tar : Tar) (cwd inputBuffer : List Byte) : Option (List Byte) :=
  ((pathSanitize cwd inputBuffer).bind withSlash).bind fun buff =>
    if buff = [slash] then copyCwd buff
    else (fileExists tar.mem tar.start tar.stop tar.fuel (strOf buff.tail)).bind fun exists? =>
      if exists? = 1 then copyCwd buff else some cwd

/-! ## `remove_d` -/

/-- `remove_d` and the `/` behind its result, on a path behind a directory. -/
theorem removeD_parts {stack : List (List Byte)} (path : Path) (hstack : ∀ c ∈ stack, IsName c)
    (hclimb : NoClimb stack.length path.parts)
    (hlen : (slash :: joined slash stack ++ path.body).length < 98) :
    (removeD (slash :: joined slash stack ++ path.body)).bind withSlash =
      some (slash :: joined slash (resolve stack path.parts)) := by
  rw [removeD_body path hstack hclimb, Option.bind_some]
  by_cases hopen : path.Open
  · obtain ⟨b, hb⟩ := exists_concat_slash (resolve stack path.parts)
    rw [if_pos hopen, hb, withSlash, List.getLast?_concat, Option.bind_some, if_pos rfl]
  · -- The last part is a name, and a `/` is put behind it.
    obtain ⟨cs, c, hparts, hdots, hbody⟩ := path.of_not_open hopen
    have hname := (path.valid c (by rw [hparts]; simp)).resolve_left hdots
    obtain ⟨c', x, hx⟩ := (List.eq_nil_or_concat' c).resolve_left hname.ne_nil
    have hxs : x ≠ slash := fun heq => hname.slash_notMem (by rw [hx, heq]; simp)
    have hshort := length_joined_resolve_le cs stack
    rw [hbody, List.length_append, List.length_append, List.length_cons] at hlen
    have hroom : (slash :: joined slash (resolve stack cs) ++ c).length + 2 < pathSize := by
      rw [pathSize, List.length_append, List.length_cons]
      omega
    have hgetLast : (slash :: joined slash (resolve stack cs) ++ c).getLast? = some x := by
      rw [hx, ← List.append_assoc, List.getLast?_concat]
    rw [if_neg hopen, hparts, resolve_concat, if_neg hdots, joined_concat, ← List.append_assoc,
      List.dropLast_concat, ← List.cons_append, withSlash, hgetLast, Option.bind_some, if_neg hxs,
      if_pos hroom]
    rfl

/-! ## `set_cwd` -/

/-- The archive that the kernel has. -/
structure TarOf (tar : Tar) (es : List Entry) (zeros : ℕ) : Prop where
  /-- The archive. -/
  tarball : Tarball tar.mem tar.start es zeros
  /-- `_binary_tarfs_end`. -/
  stop : tar.stop = imageEnd tar.start es zeros
  /-- A walk may visit all headers and zero blocks. -/
  fuel : es.length + zeros < tar.fuel

/-- A directory as `cwd` has it: the root, or a `/` and the name of an entry that ends with `/`. -/
def IsDir (es : List Entry) (cwd : List Byte) : Prop :=
  cwd = [slash] ∨ ∃ e ∈ es, e.name.getLast? = some slash ∧ cwd = slash :: e.name

instance {es : List Entry} {cwd : List Byte} : Decidable (IsDir es cwd) := inferInstanceAs (Decidable (_ ∨ _))

/-- A working directory of some parts. -/
structure CwdOf (es : List Entry) (cwd : List Byte) (stack : List (List Byte)) : Prop where
  /-- It has a `/` before and behind each part. -/
  cwd_eq : cwd = slash :: joined slash stack
  /-- The parts are names. -/
  isName : ∀ c ∈ stack, IsName c
  /-- It is the root or an entry of the archive. -/
  isDir : IsDir es cwd

section setCwd

variable {tar : Tar} {es : List Entry} {zeros : ℕ} {name cwd : List Byte} {stack : List (List Byte)}

/-- `file_exists` tells whether there is an entry of a name. -/
theorem TarOf.fileExists_eq (h : TarOf tar es zeros) (hends : Ends tar.start es zeros) (hne : name ≠ [])
    (h0 : (0 : Byte) ∉ name) (hlen : name.length < 2 ^ 64) :
    fileExists tar.mem tar.start tar.stop tar.fuel (strOf name) =
      some (if name ∈ es.map Entry.name then 1 else -1) := by
  have hname := isString_strOf h0
  have hcmp : ∀ (e : Entry) (it : Word64), Lies tar.mem it e.bytes →
      (strCompare1 (strAt tar.mem it) (strOf name) = 0 ↔ e.name = name) := fun e it hit =>
    strCompare1_eq_zero (Entry.isString_name hit) hname e.length_name_lt hlen
  have hfuel := h.fuel
  rw [fileExists]
  by_cases hmem : name ∈ es.map Entry.name
  · obtain ⟨as, bs, hsplit, hfirst⟩ := List.eq_append_cons_of_mem hmem
    obtain ⟨pre, rest, hes, rfl, hrest⟩ := List.map_eq_append_iff.mp hsplit
    obtain ⟨e, post, rfl, he, -⟩ := List.map_eq_cons_iff.mp hrest
    obtain ⟨hlies, hstop⟩ := h.tarball.suffix (List.nil_append es).symm
    rw [← h.stop, entryBytes, List.flatMap_nil, List.length_nil, BitVec.add_zero, hes] at hstop
    rw [entryBytes, List.flatMap_nil, List.length_nil, BitVec.add_zero, hes] at hlies
    rw [hes, List.length_append] at hfuel
    have hfound : lookup (strCompare1 · (strOf name)) tar.mem tar.stop tar.fuel tar.start =
        some (some (tar.start + BitVec.ofNat 64 (entryBytes pre).length)) :=
      lookup_split hlies (by omega)
        (fun x hx it hit heq => hfirst ((hcmp x it hit).mp heq ▸ List.mem_map_of_mem hx))
        (fun it hit => (hcmp e it hit).mpr he) (by omega)
    rw [hfound, if_pos hmem, Option.map_some]
  · have hnone : lookup (strCompare1 · (strOf name)) tar.mem (imageEnd tar.start es zeros) tar.fuel
        tar.start = some none :=
      h.tarball.lookup_none hends (List.nil_append es).symm (by simp [entryBytes])
        (fun x hx it hit heq => hmem ((hcmp x it hit).mp heq ▸ List.mem_map_of_mem hx))
        (fun it hit heq => hne ((strCompare1_eq_zero (isString_zero hit) hname (by decide) hlen).mp heq).symm)
        hfuel
    rw [h.stop, hnone, if_neg hmem, Option.map_some]

/-- A path of parts is a directory where it is an entry. -/
theorem isDir_joined (hstack : stack ≠ []) :
    IsDir es (slash :: joined slash stack) ↔ joined slash stack ∈ es.map Entry.name := by
  obtain ⟨st, w, rfl⟩ := (List.eq_nil_or_concat' stack).resolve_left hstack
  have hlast : (joined slash (st ++ [w])).getLast? = some slash := by
    rw [joined_concat, ← List.append_assoc, List.getLast?_concat]
  constructor
  · rintro (hroot | ⟨e, he, -, hcwd⟩)
    · rw [(List.cons.inj hroot).2] at hlast
      cases hlast
    · rw [(List.cons.inj hcwd).2]
      exact List.mem_map_of_mem he
  · intro hmem
    obtain ⟨e, he, hname⟩ := List.mem_map.mp hmem
    exact .inr ⟨e, he, by rw [hname, hlast], by rw [hname]⟩

/-- The parts of the directory that a path starts from. -/
def Path.base (path : Path) (stack : List (List Byte)) : List (List Byte) :=
  if path.absolute then [] else stack

/-- The sanitised path. -/
theorem pathSanitize_bytes (path : Path) (hstack : ∀ c ∈ stack, IsName c)
    (hclimb : NoClimb (path.base stack).length path.parts)
    (hlen : (slash :: joined slash stack).length + path.bytes.length < 98) :
    (pathSanitize (slash :: joined slash stack) path.bytes).bind withSlash =
      some (slash :: joined slash (resolve (path.base stack) path.parts)) := by
  rw [List.length_cons] at hlen
  rw [Path.base] at hclimb ⊢
  rw [Path.bytes] at hlen ⊢
  cases habs : path.absolute with
  | true =>
    rw [habs, if_pos rfl] at hclimb hlen
    rw [if_pos rfl, if_pos rfl, pathSanitize, List.head?_cons, if_pos rfl, Option.bind_some, if_pos (by
      rw [pathSize]
      omega)]
    exact removeD_parts path (List.forall_mem_nil _) hclimb (by
      rw [List.length_append]
      simp only [joined, List.flatMap_nil, List.length_singleton]
      rw [List.length_cons] at hlen
      omega)
  | false =>
    rw [habs, if_neg (by decide)] at hclimb hlen
    have hlast : (slash :: joined slash stack).getLast? = some slash := by
      obtain ⟨b, hb⟩ := exists_concat_slash stack
      rw [hb, List.getLast?_concat]
    have hbuff : (slash :: joined slash stack ++ path.body).length < 98 := by
      rw [List.length_append, List.length_cons]
      exact hlen
    rw [if_neg (by decide), if_neg (by decide), pathSanitize, if_neg path.head?_body, hlast]
    dsimp only
    rw [if_pos rfl, List.append_nil, Option.bind_some, if_pos (hbuff.trans (by decide)),
      removeD_parts path hstack hclimb hbuff]

/-- The result of `remove_d` is a path of names. -/
theorem Path.isName_base (path : Path) (hstack : ∀ c ∈ stack, IsName c) :
    ∀ c ∈ resolve (path.base stack) path.parts, IsName c := by
  refine isName_of_mem_resolve path.valid ?_
  rw [base]
  split
  · exact List.forall_mem_nil _
  · exact hstack

/-- The result of `remove_d` is not longer than the directory and the path, but for a `/` behind them. -/
theorem Path.length_resolve_le (path : Path) (stack : List (List Byte)) :
    (joined slash (resolve (path.base stack) path.parts)).length ≤
      (joined slash stack).length + path.bytes.length + 1 := by
  have hbase : (joined slash (path.base stack)).length ≤ (joined slash stack).length := by
    rw [base]
    split
    · exact Nat.zero_le _
    · exact le_rfl
  have hbody : (joined slash path.parts).length ≤ path.body.length + 1 := by
    rcases path.body_cases with ⟨-, hbody⟩ | ⟨cs, c, -, hparts, hbody⟩
    · rw [hbody]
      exact Nat.le_succ _
    · rw [hbody, hparts, joined_concat, ← List.append_assoc, List.length_append, List.length_singleton]
  have hbytes : path.body.length ≤ path.bytes.length := by
    rw [bytes]
    split
    · exact Nat.le_succ _
    · exact le_rfl
  have hresolve := length_joined_resolve_le path.parts (path.base stack)
  omega

/-- `set_cwd` goes to a directory, and stays where it is for any other path. -/
theorem TarOf.setCwd_eq (h : TarOf tar es zeros) (hends : Ends tar.start es zeros)
    (hdirs : ∀ e ∈ es, e.name.getLast? = some slash → e.name.length < 73) (path : Path)
    (hstack : ∀ c ∈ stack, IsName c) (hclimb : NoClimb (path.base stack).length path.parts)
    (hlen : (slash :: joined slash stack).length + path.bytes.length < 98) :
    setCwd tar (slash :: joined slash stack) path.bytes =
      some (if IsDir es (slash :: joined slash (resolve (path.base stack) path.parts)) then
        slash :: joined slash (resolve (path.base stack) path.parts)
        else slash :: joined slash stack) := by
  have hnames := path.isName_base hstack
  have hshort := path.length_resolve_le stack
  rw [setCwd, pathSanitize_bytes path hstack hclimb hlen, Option.bind_some]
  rw [List.length_cons] at hlen
  generalize resolve (path.base stack) path.parts = st at hnames hshort ⊢
  by_cases hnil : st = []
  · have hroot : slash :: joined slash st = [slash] := by rw [hnil]; rfl
    rw [hroot, if_pos rfl, if_pos (.inl rfl)]
    rfl
  · have hroot : slash :: joined slash st ≠ [slash] := by
      obtain ⟨c, cs, rfl⟩ := List.exists_cons_of_ne_nil hnil
      simp [joined]
    have hne : joined slash st ≠ [] := fun heq => hroot (by rw [heq])
    have hzero : (0 : Byte) ∉ joined slash st := by
      intro hmem
      obtain ⟨c, hc, hmem⟩ := List.mem_flatMap.mp hmem
      exact (List.mem_append.mp hmem).elim (hnames c hc).zero_notMem (by decide)
    rw [if_neg hroot, List.tail_cons, h.fileExists_eq hends hne hzero (by omega), Option.bind_some]
    by_cases hmem : joined slash st ∈ es.map Entry.name
    · have hdir := (isDir_joined hnil).mpr hmem
      have hfit : (slash :: joined slash st).length < cwdSize := by
        obtain ⟨e, he, hlast, hcwd⟩ := hdir.resolve_left hroot
        have := hdirs e he hlast
        rw [hcwd, List.length_cons, cwdSize]
        omega
      rw [if_pos hmem, if_pos rfl, if_pos hdir, copyCwd, if_pos hfit]
    · rw [if_neg hmem, if_neg (by decide), if_neg ((isDir_joined hnil).not.mpr hmem)]

end setCwd

/-! ## Runs -/

/-- The working directories of the tasks, by their PCBs. -/
abbrev CwdSys := ℕ → Option (List Byte)

/-- The calls that change a working directory. -/
inductive CwdOp where
  /-- A task calls `set_cwd`. -/
  | setCwd (task : ℕ) (path : Path)
  /-- A task is forked. -/
  | forkProcess (parent child : ℕ)

namespace CwdSys

/-- The first task, in the root. -/
def start : CwdSys := fun task => if task = 0 then some [slash] else none

/-- What a call does, or nothing where the task does not exist or the call is not defined. -/
def step (tar : Tar) (s : CwdSys) : CwdOp → Option CwdSys
  | .setCwd task path => (s task).bind fun cwd =>
      (setCwd tar cwd path.bytes).map fun cwd => Function.update s task (some cwd)
  | .forkProcess parent child => (s parent).bind fun cwd =>
      (copyCwd cwd).map fun cwd => Function.update s child (some cwd)

/-- The depth of the directory that a path starts from. -/
def depth (cwd : List Byte) (path : Path) : ℕ := if path.absolute then 0 else cwd.count slash - 1

/-- The working directory and the path fit the buffers, and no `..` climbs above the root. -/
def Admissible (s : CwdSys) : CwdOp → Prop
  | .setCwd task path => ∀ cwd, s task = some cwd →
      cwd.length + path.bytes.length < 98 ∧ NoClimb (depth cwd path) path.parts
  | .forkProcess _ _ => True

/-- All working directories are directories of the archive, and a call of `set_cwd` goes to a directory or
changes nothing. -/
structure Real (tar : Tar) (es : List Entry) (s : CwdSys) : Prop where
  /-- A working directory begins and ends with `/`, and is the root or an entry. -/
  cwd : ∀ task cwd, s task = some cwd →
    cwd.head? = some slash ∧ cwd.getLast? = some slash ∧ IsDir es cwd
  /-- A path that is neither the root nor an entry leaves the working directory as it is. -/
  call : ∀ task cwd path, s task = some cwd → Admissible s (.setCwd task path) →
    ∃ buff, (pathSanitize cwd path.bytes).bind withSlash = some buff ∧
      setCwd tar cwd path.bytes = some (if IsDir es buff then buff else cwd)

/-- The working directories are directories of some parts. -/
def Inv (es : List Entry) (s : CwdSys) : Prop := ∀ task cwd, s task = some cwd → ∃ stack, CwdOf es cwd stack

section Inv

variable {tar : Tar} {es : List Entry} {zeros : ℕ} {s s' : CwdSys} {op : CwdOp}

theorem inv_start : Inv es start := by
  intro task cwd hcwd
  rw [start] at hcwd
  split at hcwd
  · exact ⟨[], (Option.some.inj hcwd).symm, List.forall_mem_nil _, .inl (Option.some.inj hcwd).symm⟩
  · cases hcwd

/-- The depth of a directory of some parts. -/
theorem depth_eq {cwd : List Byte} {stack : List (List Byte)} (h : CwdOf es cwd stack) (path : Path) :
    depth cwd path = (path.base stack).length := by
  rw [depth, Path.base, h.cwd_eq, List.count_cons_self,
    count_joined fun c hc => (h.isName c hc).slash_notMem]
  split
  · rfl
  · exact Nat.add_sub_cancel _ _

/-- A call of `set_cwd` from a directory. -/
theorem setCwd_of_inv (h : TarOf tar es zeros) (hends : Ends tar.start es zeros)
    (hdirs : ∀ e ∈ es, e.name.getLast? = some slash → e.name.length < 73) (hinv : Inv es s) {task : ℕ}
    {cwd : List Byte} {path : Path} (hcwd : s task = some cwd) (hadm : Admissible s (.setCwd task path)) :
    ∃ stack, (∀ c ∈ stack, IsName c) ∧
      (pathSanitize cwd path.bytes).bind withSlash = some (slash :: joined slash stack) ∧
      setCwd tar cwd path.bytes = some (if IsDir es (slash :: joined slash stack) then
        slash :: joined slash stack else cwd) := by
  obtain ⟨stack, hof⟩ := hinv task cwd hcwd
  obtain ⟨hlen, hclimb⟩ := hadm cwd hcwd
  rw [depth_eq hof] at hclimb
  rw [hof.cwd_eq] at hlen ⊢
  exact ⟨_, path.isName_base hof.isName, pathSanitize_bytes path hof.isName hclimb hlen,
    h.setCwd_eq hends hdirs path hof.isName hclimb hlen⟩

/-- A task whose working directory is replaced by a directory. -/
theorem Inv.update {cwd : List Byte} {stack : List (List Byte)} (hinv : Inv es s) {task : ℕ}
    (hof : CwdOf es cwd stack) : Inv es (Function.update s task (some cwd)) := by
  intro task' cwd' hcwd
  by_cases heq : task' = task
  · rw [heq, Function.update_self] at hcwd
    exact ⟨stack, Option.some.inj hcwd ▸ hof⟩
  · rw [Function.update_of_ne heq] at hcwd
    exact hinv task' cwd' hcwd

/-- The calls keep the invariant. -/
theorem inv_step (h : TarOf tar es zeros) (hends : Ends tar.start es zeros)
    (hdirs : ∀ e ∈ es, e.name.getLast? = some slash → e.name.length < 73) (hinv : Inv es s)
    (hadm : Admissible s op) (hstep : step tar s op = some s') : Inv es s' := by
  cases op with
  | setCwd task path =>
    obtain ⟨cwd, hcwd, hstep⟩ := Option.bind_eq_some_iff.mp hstep
    obtain ⟨cwd', hcall, rfl⟩ := Option.map_eq_some_iff.mp hstep
    obtain ⟨stack, hnames, -, hset⟩ := setCwd_of_inv h hends hdirs hinv hcwd hadm
    rw [hset] at hcall
    split at hcall
    · rename_i hdir
      exact hinv.update ⟨(Option.some.inj hcall).symm, hnames, Option.some.inj hcall ▸ hdir⟩
    · obtain ⟨stack, hof⟩ := hinv task cwd hcwd
      exact hinv.update (Option.some.inj hcall ▸ hof)
  | forkProcess parent child =>
    obtain ⟨cwd, hcwd, hstep⟩ := Option.bind_eq_some_iff.mp hstep
    obtain ⟨cwd', hcopy, rfl⟩ := Option.map_eq_some_iff.mp hstep
    rw [copyCwd] at hcopy
    split at hcopy
    · obtain ⟨stack, hof⟩ := hinv parent cwd hcwd
      exact hinv.update (Option.some.inj hcopy ▸ hof)
    · cases hcopy

/-- The invariant says what the working directories are, and what the next call does. -/
theorem Inv.real (h : TarOf tar es zeros) (hends : Ends tar.start es zeros)
    (hdirs : ∀ e ∈ es, e.name.getLast? = some slash → e.name.length < 73) (hinv : Inv es s) :
    Real tar es s where
  cwd task cwd hcwd := by
    obtain ⟨stack, hof⟩ := hinv task cwd hcwd
    obtain ⟨b, hb⟩ := exists_concat_slash stack
    refine ⟨by rw [hof.cwd_eq]; rfl, ?_, hof.isDir⟩
    rw [hof.cwd_eq, hb, List.getLast?_concat]
  call task cwd path hcwd hadm := by
    obtain ⟨stack, -, hpath, hset⟩ := setCwd_of_inv h hends hdirs hinv hcwd hadm
    exact ⟨_, hpath, hset⟩

end Inv

/-- The working directory is always a directory of the archive where the steps through the zero blocks do
not wrap around: after any calls of `set_cwd` and any forks, every working directory is the root or an entry
that ends with `/`, and a call with any other path changes nothing. -/
theorem cwd_real {tar : Tar} {es : List Entry} {zeros : ℕ} {ops : List CwdOp} {s : CwdSys}
    (h : TarOf tar es zeros) (hdirs : ∀ e ∈ es, e.name.getLast? = some slash → e.name.length < 73)
    (hends : Ends tar.start es zeros) (hadm : Along (step tar) Admissible start ops)
    (hv : Visits (step tar) start ops s) : Real tar es s :=
  (hv.invariant hadm (fun _ _ _ hinv ha hs => inv_step h hends hdirs hinv ha hs) inv_start).real h hends hdirs

/-! ## Two runs -/

/-- The absolute path of one part. -/
def rootPath (c : List Byte) (h : IsName c) : Path where
  absolute := true
  parts := [c]
  trailing := false
  valid _ hc := .inr (List.mem_singleton.mp hc ▸ h)

/-- The name `d`. -/
theorem isName_d : IsName [100] := ⟨by decide, by decide, by decide, by decide⟩

/-- The name `x`. -/
theorem isName_x : IsName [120] := ⟨by decide, by decide, by decide, by decide⟩

/-- The first call of a run. -/
theorem along_setCwd {tar : Tar} {c : List Byte} (h : IsName c) (hlen : c.length < 90) :
    Along (step tar) Admissible start [.setCwd 0 (rootPath c h)] := by
  refine ⟨fun cwd hcwd => ?_, fun _ _ => trivial⟩
  have hcwd : [slash] = cwd := Option.some.inj hcwd
  have hbytes : (rootPath c h).bytes.length = c.length + 1 := by
    simp [Path.bytes, Path.body, rootPath, joined]
  refine ⟨by rw [← hcwd, hbytes, List.length_singleton]; omega, ?_⟩
  rw [rootPath, NoClimb, if_neg]
  · trivial
  · rintro rfl
    exact h.dot_notMem (by decide)

/-- The archive of `d/a` and `d/b`. -/
theorem tarOf_sampleAB : TarOf (archiveTar sampleAB) sampleAB 1 :=
  ⟨openedDir_sampleAB.tarball, openedDir_sampleAB.stop, openedDir_sampleAB.fuel⟩

/-- The first call of a run, and the state after it. -/
theorem visits_setCwd {tar : Tar} {cwd : List Byte} {path : Path}
    (h : setCwd tar [slash] path.bytes = some cwd) :
    Visits (step tar) start [.setCwd 0 path] (Function.update start 0 (some cwd)) := by
  refine visits_of_run ?_
  rw [run_cons, step, start, if_pos rfl, Option.bind_some, h]
  rfl

/-- The path `..`. -/
def parentPath : Path where
  absolute := false
  parts := [dotdot]
  trailing := false
  valid _ hc := .inl (List.mem_singleton.mp hc)

/-- A task goes to the directory `d/` and forks, and the child goes to `..`. -/
theorem cwd_real_d : ∃ s, run (step (archiveTar sampleAB)) start
      [.setCwd 0 (rootPath [100] isName_d), .forkProcess 0 1, .setCwd 1 parentPath] = some s ∧
    s 0 = some [47, 100, 47] ∧ s 1 = some [47] ∧ Real (archiveTar sampleAB) sampleAB s := by
  have hends : Ends (archiveTar sampleAB).start sampleAB 1 := ends_sampleFiles _
  have hdirs : ∀ e ∈ sampleAB, e.name.getLast? = some slash → e.name.length < 73 := by
    have hlen : ∀ n ∈ sampleAB.map Entry.name, n.length < 73 := by
      have hnames : sampleAB.map Entry.name = [[100, 47], [100, 47, 97], [100, 47, 98]] := rfl
      rw [hnames]
      decide
    exact fun e he _ => hlen _ (List.mem_map_of_mem he)
  have hfirst : Along (step (archiveTar sampleAB)) Admissible start [.setCwd 0 (rootPath [100] isName_d)] :=
    along_setCwd isName_d (by decide)
  have hdown : setCwd (archiveTar sampleAB) [slash] (rootPath [100] isName_d).bytes = some [47, 100, 47] := by
    refine (tarOf_sampleAB.setCwd_eq hends hdirs (rootPath [100] isName_d) (List.forall_mem_nil _)
      (hfirst.1 [slash] rfl).2 (hfirst.1 [slash] rfl).1).trans (congrArg some (if_pos ?_))
    exact .inr ⟨sampleDir, List.mem_cons_self .., rfl, rfl⟩
  have hup : setCwd (archiveTar sampleAB) [47, 100, 47] parentPath.bytes = some [47] :=
    (tarOf_sampleAB.setCwd_eq hends hdirs parentPath (show ∀ c ∈ [[100]], IsName c from
      List.forall_mem_singleton.mpr isName_d) ⟨by decide, trivial⟩ (by decide)).trans
      (congrArg some (if_pos (.inl rfl)))
  -- The states after the three calls.
  have h₁ : step (archiveTar sampleAB) start (.setCwd 0 (rootPath [100] isName_d)) =
      some (Function.update start 0 (some [47, 100, 47])) := by
    rw [step, start, if_pos rfl, Option.bind_some, hdown]
    rfl
  have h₂ : step (archiveTar sampleAB) (Function.update start 0 (some [47, 100, 47])) (.forkProcess 0 1) =
      some (Function.update (Function.update start 0 (some [47, 100, 47])) 1 (some [47, 100, 47])) := rfl
  have h₃ : step (archiveTar sampleAB)
      (Function.update (Function.update start 0 (some [47, 100, 47])) 1 (some [47, 100, 47])) (.setCwd 1 parentPath) =
      some (Function.update (Function.update (Function.update start 0 (some [47, 100, 47])) 1
        (some [47, 100, 47])) 1 (some [47])) := by
    rw [step, Function.update_self, Option.bind_some, hup]
    rfl
  have hrun : run (step (archiveTar sampleAB)) start
      [.setCwd 0 (rootPath [100] isName_d), .forkProcess 0 1, .setCwd 1 parentPath] =
      some (Function.update (Function.update (Function.update start 0 (some [47, 100, 47])) 1
        (some [47, 100, 47])) 1 (some [47])) := by
    rw [run_cons, h₁, Option.bind_some, run_cons, h₂, Option.bind_some, run_cons, h₃, Option.bind_some, run_nil]
  have hadm : Along (step (archiveTar sampleAB)) Admissible start
      [.setCwd 0 (rootPath [100] isName_d), .forkProcess 0 1, .setCwd 1 parentPath] := by
    refine ⟨hfirst.1, fun s₁ hs₁ => ⟨trivial, fun s₂ hs₂ => ⟨fun cwd hcwd => ?_, fun _ _ => trivial⟩⟩⟩
    obtain rfl := Option.some.inj (h₁.symm.trans hs₁)
    obtain rfl := Option.some.inj (h₂.symm.trans hs₂)
    obtain rfl : [47, 100, 47] = cwd := Option.some.inj hcwd
    exact ⟨by decide, by decide, trivial⟩
  exact ⟨_, hrun, rfl, rfl, cwd_real tarOf_sampleAB hdirs hends hadm (visits_of_run hrun)⟩

/-- The stray header of a directory `x/`. -/
def strayDir : Entry := namedEntry [120, 47] 53 (by decide)

/-- The stray directory becomes the working directory. -/
theorem stray_cwd : ¬ ∀ (tar : Tar) (es : List Entry) (zeros : ℕ) (ops : List CwdOp) (s : CwdSys),
    TarOf tar es zeros → (∀ e ∈ es, e.name.getLast? = some slash → e.name.length < 73) →
    Along (step tar) Admissible start ops → Visits (step tar) start ops s → Real tar es s := by
  intro hall
  have hnames : hugeFiles.map Entry.name = [[100, 47], [97]] := rfl
  have hne : ∀ e ∈ hugeFiles, e.name ≠ [120, 47] := by
    have hne : ∀ n ∈ hugeFiles.map Entry.name, n ≠ [120, 47] := by
      rw [hnames]
      decide
    exact fun e he => hne _ (List.mem_map_of_mem he)
  have hdirs : ∀ e ∈ hugeFiles, e.name.getLast? = some slash → e.name.length < 73 := by
    have hlen : ∀ n ∈ hugeFiles.map Entry.name, n.length < 73 := by
      rw [hnames]
      decide
    exact fun e he _ => hlen _ (List.mem_map_of_mem he)
  have hname : IsString (strOf [120, 47]) [120, 47] := isString_strOf (by decide)
  have hcmp : ∀ {p : Str} {t : List Byte}, IsString p t → t.length < 2 ^ 64 →
      (strCompare1 p (strOf [120, 47]) = 0 ↔ t = [120, 47]) := fun hp ht =>
    strCompare1_eq_zero hp hname ht (by decide)
  have hfound : lookup (strCompare1 · (strOf [120, 47])) (hugeMem strayDir) (hugeTar strayDir).stop
      (hugeTar strayDir).fuel sampleStart = some (some strayStart) :=
    lookup_stray
      (fun e he it hit heq => hne e he ((hcmp (Entry.isString_name hit) e.length_name_lt).mp heq))
      (fun it hit heq => absurd ((hcmp (isString_zero hit) (by decide)).mp heq) (by decide))
      ((hcmp (Entry.isString_name lies_stray) strayDir.length_name_lt).mpr rfl)
  have hpath : (pathSanitize [slash] (rootPath [120] isName_x).bytes).bind withSlash =
      some [47, 120, 47] := by decide
  have hset : setCwd (hugeTar strayDir) [slash] (rootPath [120] isName_x).bytes =
      some [47, 120, 47] := by
    have hexists : fileExists (hugeTar strayDir).mem (hugeTar strayDir).start (hugeTar strayDir).stop
        (hugeTar strayDir).fuel (strOf [120, 47]) = some 1 :=
      congrArg (Option.map _) hfound
    rw [setCwd, hpath, Option.bind_some, if_neg (by decide), List.tail_cons, hexists, Option.bind_some,
      if_pos rfl]
    rfl
  have hreal := hall (hugeTar strayDir) hugeFiles 1 _ _ ⟨tarball_huge, rfl, by decide⟩ hdirs
    (along_setCwd isName_x (by decide)) (visits_setCwd hset)
  rcases (hreal.cwd 0 [47, 120, 47] (Function.update_self ..)).2.2 with hroot | ⟨e, he, -, hcwd⟩
  · exact absurd hroot (by decide)
  · exact hne e he (List.cons.inj hcwd).2.symm

end CwdSys

end Nascent.Tarfs
