import Nascent.Exec.Intact
import Nascent.Proc.Life

/-!
# Is `sys_execvpe` all or nothing?

`sys_execvpe` looks at the first bytes of the file and then tears the old program down. From there on it does
not come back: the new program has to be loaded. `validate_binary` and `load_elf1` find the same file, since the
teardown keeps the current directory (`loadElf_of_target`). But what `elf_read` relies on is not checked. A file
without a segment to be loaded has it follow a null pointer, no one counts the frames, and neither the name of the
file nor the arguments are compared with the arrays that they are copied to. `all_or_nothing_iff` says for which
files and which states the call comes to an end.
-/

namespace Nascent.Proc

open Bytes (Byte Block)
open Memory (Mem)
open Strings (strOf)
open Tarfs (Tar lookup strCompare pathSanitize)

variable {m : Mem} {elf : Word} {s₀ : Mm} {roots : Finset ℕ} {held : ℕ → ℕ} {r : ℕ} {r₀ r' : MmStruct}
  {p₀ p' : Pools} {fs : List ℕ} {junk : ℕ → Word × Word}

/-! ## `elf_read` -/

/-- The program headers of a file that are to be loaded. -/
def segments (m : Mem) (elf : Word) : List Phdr := (phdrs m elf).filter Phdr.isLoad

theorem loads_headers (m : Mem) (elf : Word) (junk : ℕ → Word × Word) :
    loads ((phdrs m elf).zip ((List.range (phdrs m elf).length).map junk)) = segments m elf := by
  rw [loads, List.map_fst_zip, segments]
  rw [List.length_map, List.length_range]

/-- What `elf_read` has done at its end: the VMAs of the segments and of the heap are in the list, and the
frames of the segments are spent. -/
structure HasRead (s₀ : Mm) (roots : Finset ℕ) (r N : ℕ) (r₀ : MmStruct) (free : List ℕ) (phs : List Phdr)
    (r' : MmStruct) (p' : Pools) : Prop where
  /-- The frames. -/
  spent : ∃ held, s₀.Spent roots r N (pagesOf phs).length (pathsTo (pagesOf phs)) p'.mm held
  /-- The list of the task. -/
  vmas : r'.vmas = r₀.vmas ++ free.take (phs.length + 1)
  /-- The list of free VMAs. -/
  freeVmas : p'.freeVmas = free.drop (phs.length + 1)

/-- The walk to the end of the list follows `vma_head`. -/
theorem lastVma_isOk {r : MmStruct} : (∃ v, lastVma r = .ok v) ↔ r.vmas ≠ [] := by
  unfold lastVma
  cases hlast : r.vmas.getLast? with
  | none =>
    rw [List.getLast?_eq_none_iff] at hlast
    exact iff_of_false (fun ⟨v, hv⟩ => nomatch hv) fun hne => hne hlast
  | some v =>
    refine iff_of_true ⟨v, rfl⟩ fun hnil => ?_
    rw [hnil] at hlast
    cases hlast

/-- Where `elf_read` comes to its end, the list of VMAs was not empty behind the segments, and the copies went
to pages with the write bit. -/
theorem elfRead_spec (p₀ : Pools) (h : p₀.mm.Accounted roots held) (hl : p₀.mm.FreeChain fs) (hr : r ∈ roots)
    (huser : ∀ ph ∈ segments m elf, ph.AtUser)
    (hs : elfRead m elf (convertVA r) junk r₀ p₀ = .ok (r', p')) :
    HasRead p₀.mm roots r fs.length r₀ p₀.freeVmas (segments m elf) r' p' ∧
      r₀.vmas ++ p₀.freeVmas.take (segments m elf).length ≠ [] ∧ Covered p₀.mm r [] (segments m elf) := by
  obtain ⟨l, hrun, hs⟩ := bind_eq_ok hs
  obtain ⟨last, hlast, hs⟩ := bind_eq_ok hs
  obtain ⟨hl', hcov⟩ := Loading.run hr _ [] _ (@loading_self _ _ r ⟨r₀, p₀, 0⟩ _ h hl) (by rwa [loads_headers]) hrun
  rw [List.nil_append, loads_headers] at hl'
  rw [loads_headers] at hcov
  obtain ⟨hvma, hfree, hmm⟩ := fetchFreeVma_spec l.pools ⟨heapAddr l.maxAddr, heapAddr l.maxAddr, 6, .heap,
    (junk (phdrs m elf).length).1, (junk (phdrs m elf).length).2⟩
  dsimp only at hs
  generalize l.pools.fetchFreeVma _ = fetched at hs hvma hfree hmm
  obtain ⟨rfl, rfl⟩ := Prod.mk.inj (Except.ok.inj hs)
  refine ⟨⟨?_, ?_, ?_⟩, ?_, hcov⟩
  · rw [hmm]
    exact hl'.spent
  · have happend : (l.mm.append fetched.1).vmas = l.mm.vmas ++ fetched.1.toList := rfl
    rw [happend, hvma, hl'.vmas, hl'.freeVmas, List.append_assoc, ← List.take_add]
  · rw [hfree, hl'.freeVmas, List.drop_drop]
  · rw [← hl'.vmas]
    exact lastVma_isOk.mp ⟨last, hlast⟩

/-- `elf_read` comes to its end with the frames for the pages, where the list of VMAs is not empty behind the
segments and the copies go to pages with the write bit. -/
theorem exists_elfRead (p₀ : Pools) (junk : ℕ → Word × Word) (h : p₀.mm.Accounted roots held)
    (hl : p₀.mm.FreeChain fs) (hr : r ∈ roots) (huser : ∀ ph ∈ segments m elf, ph.AtUser)
    (hN : cost p₀.mm r (pagesOf (segments m elf)) ≤ fs.length)
    (hne : r₀.vmas ++ p₀.freeVmas.take (segments m elf).length ≠ [])
    (hcov : Covered p₀.mm r [] (segments m elf)) :
    ∃ r' p', elfRead m elf (convertVA r) junk r₀ p₀ = .ok (r', p') := by
  have hstart : Loading p₀.mm roots r fs.length r₀ p₀.freeVmas [] ⟨r₀, p₀, 0⟩ := @loading_self _ _ r ⟨r₀, p₀, 0⟩ _ h hl
  rw [← loads_headers m elf junk] at huser hN hne hcov
  obtain ⟨l, hrun⟩ := Loading.exists_run hr m elf _ [] _ hstart huser hN hcov
  obtain ⟨hl', -⟩ := Loading.run hr _ [] _ hstart huser hrun
  rw [← List.nil_append (loads _), ← hl'.vmas] at hne
  obtain ⟨last, hlast⟩ := lastVma_isOk.mpr hne
  unfold elfRead
  rw [hrun]
  change ∃ r' p', (lastVma l.mm >>= fun _ => _) = Except.ok (r', p')
  rw [hlast]
  exact ⟨_, _, rfl⟩

/-! ## The new program -/

/-- The frames that a program takes: one for each page of its segments, and one for each table that is missing
on the way to these and to the page of the stack. -/
def need (s : Mm) (r : ℕ) (phs : List Phdr) : ℕ :=
  (pagesOf phs).length + (s.missing r (pathsTo (pagesOf phs) ∪ (vpage (ustack - pageSize)).paths)).card

theorem cost_le_need (s : Mm) (r : ℕ) (phs : List Phdr) : cost s r (pagesOf phs) ≤ need s r phs :=
  Nat.add_le_add_left (Mm.missing_mono Finset.subset_union_left) _

/-- What loading a program with the segments `phs` relies on, in a memory without the old one, for a task with
the list `vmas` of VMAs: there is a VMA to follow, the free list has the frames, and the copies go to pages with
the write bit. -/
structure Loadable (mm : Mm) (r : ℕ) (vmas free : List ℕ) (phs : List Phdr) : Prop where
  /-- The VMAs that were there before, and those of the segments. -/
  linked : vmas ++ free.take phs.length ≠ []
  /-- The frames. -/
  room : ∃ fs, mm.FreeChain fs ∧ need mm r phs ≤ fs.length
  /-- The copies. -/
  covered : Covered mm r [] phs

namespace Kernel

variable {s t : Kernel} {tar : Tar} {a : ExecArgs} {it stackBase rip : Word} {buff : List Byte}

/-- The teardown of the old program, but for the first process. -/
def unload (s : Kernel) : Kernel :=
  if s.isFirstProc then { s with isFirstProc := false } else s.cleanTaskForExec s.runningTask

/-- The VMAs that the task has then. -/
def oldVmas (s : Kernel) : List ℕ := if s.isFirstProc then s.current.mm.vmas else []

/-- What the teardown keeps, and what it leaves. -/
theorem unload_spec (s : Kernel) : s.unload.current.cwd = s.current.cwd ∧
    s.unload.current.pml4 = s.current.pml4 ∧ s.unload.current.mm.vmas = s.oldVmas ∧
      s.unload.freeVmas = s.freeVmas ∧
      s.unload.mm = if s.isFirstProc then s.mm else s.mm.clearMapping s.current.pml4 := by
  unfold unload oldVmas
  split
  · exact ⟨rfl, rfl, rfl, rfl, rfl⟩
  · have hcurrent := current_cleanTaskForExec (s := s)
    have hmm : ∀ mm i p, ((s.setMm mm).setPcb i p).mm = mm := fun _ _ _ => rfl
    refine ⟨?_, ?_, ?_, cleanTaskForExec_freeVmas, ?_⟩
    · rw [hcurrent]
      rfl
    · rw [hcurrent]
      rfl
    · rw [hcurrent]
      rfl
    · rw [cleanTaskForExec, hmm, current]

/-- The file that a path names for the running task. -/
def target (s : Kernel) (tar : Tar) (fileName : List Byte) : Option (Option Word) :=
  (pathSanitize s.current.cwd fileName).bind fun buff =>
    lookup (strCompare · (strOf buff.tail)) tar.mem tar.stop tar.fuel tar.start

/-- What `elf_read` has the kernel with. -/
def withImage (s : Kernel) (filename : List Byte) (x : MmStruct × Pools) : Kernel :=
  (s.setPools x.2).modifyCurrent fun p => { p with filename := filename, mm := x.1 }

theorem withImage_spec (s : Kernel) (filename : List Byte) (x : MmStruct × Pools) :
    (s.withImage filename x).toPools = x.2 ∧ (s.withImage filename x).current.mm = x.1 ∧
      (s.withImage filename x).current.pml4 = s.current.pml4 := by
  have hcurrent : (s.withImage filename x).current = { s.current with filename := filename, mm := x.1 } :=
    current_modifyCurrent _
  rw [hcurrent]
  exact ⟨rfl, rfl, rfl⟩

/-- The name of the file fits in the field `filename`. -/
def NameFits (s : Kernel) (fileName : List Byte) : Prop :=
  ∃ buff, pathSanitize s.current.cwd fileName = some buff ∧ buff.tail.length < filenameSize

theorem bounded_guard {P : Prop} [Decidable P] (h : P) : bounded (guard P) = .ok () := by
  rw [guard, if_pos h]
  rfl

theorem of_bounded_guard {P : Prop} [Decidable P] {u : Unit} (h : bounded (guard P) = .ok u) : P := by
  by_contra hnot
  rw [guard, if_neg hnot] at h
  cases h

/-- `load_elf1` finds the file that the path names, and copies its name. -/
theorem loadElf_target (htarget : s.target tar a.fileName = some (some it))
    (helf : isElfFormat tar.mem (it + 512) = true) : ∃ buff, pathSanitize s.current.cwd a.fileName = some buff ∧
      s.loadElf tar a.fileName a.junk = (bounded (guard (buff.tail.length < filenameSize))).bind fun _ =>
        (elfRead tar.mem (it + 512) s.current.pml4 a.junk s.current.mm s.toPools).map fun x =>
          (entry tar.mem (it + 512), s.withImage buff.tail x) := by
  obtain ⟨buff, hpath, hfound⟩ := Option.bind_eq_some_iff.mp htarget
  refine ⟨buff, hpath, ?_⟩
  unfold loadElf
  rw [hpath]
  change (ended (lookup (strCompare · (strOf buff.tail)) tar.mem tar.stop tar.fuel tar.start) >>= _) = _
  rw [hfound]
  change (if isElfFormat tar.mem (it + 512) = true then _ else _) = _
  rw [if_pos helf]
  cases bounded (guard (buff.tail.length < filenameSize)) with
  | error e => rfl
  | ok u =>
    cases elfRead tar.mem (it + 512) s.current.pml4 a.junk s.current.mm s.toPools with
    | error e => rfl
    | ok x => rfl

/-- Where its name fits, `elf_read` is called for it. -/
theorem loadElf_of_target (htarget : s.target tar a.fileName = some (some it))
    (helf : isElfFormat tar.mem (it + 512) = true) (hname : s.NameFits a.fileName) :
    ∃ filename, s.loadElf tar a.fileName a.junk =
      (elfRead tar.mem (it + 512) s.current.pml4 a.junk s.current.mm s.toPools).map fun x =>
        (entry tar.mem (it + 512), s.withImage filename x) := by
  obtain ⟨buff, hpath, hload⟩ := loadElf_target htarget helf
  obtain ⟨buff', hpath', hlen⟩ := hname
  obtain rfl := Option.some.inj (hpath.symm.trans hpath')
  exact ⟨buff.tail, by rw [hload, bounded_guard hlen]; rfl⟩

/-- Where the file is loaded, its name fits. -/
theorem nameFits_of_ok {x : Word × Kernel} (htarget : s.target tar a.fileName = some (some it))
    (helf : isElfFormat tar.mem (it + 512) = true) (hs : s.loadElf tar a.fileName a.junk = .ok x) :
    s.NameFits a.fileName := by
  obtain ⟨buff, hpath, hload⟩ := loadElf_target htarget helf
  rw [hload] at hs
  obtain ⟨u, hu, -⟩ := bind_eq_ok hs
  exact ⟨buff, hpath, of_bounded_guard hu⟩

/-- The kernel with the new program. -/
structure HasLoaded (rip : Word) (vmas free : List ℕ) (phs : List Phdr) (t : Kernel) : Prop where
  /-- It starts at its entry point. -/
  rip : t.current.regs.rip = rip
  /-- The list of VMAs: the segments, the heap, and the stack. -/
  vmas : t.current.mm.vmas = vmas ++ free.take (phs.length + 2)
  /-- The list of free VMAs. -/
  freeVmas : t.freeVmas = free.drop (phs.length + 2)

/-- The part of `sys_execvpe` behind `load_elf`: the VMA and the page of the stack, and the registers. -/
def addStack (s : Kernel) (a : ExecArgs) (stackBase rip : Word) : Except Fault Kernel := do
  let _ ← lastVma s.current.mm
  let (vma, pools) := s.toPools.fetchFreeVma ⟨ustack - ustackSize, ustack, 6, .stack, 0, 0⟩
  let mm ← paged (pools.mm.setMapping s.current.pml4 (ustack - pageSize) (stackBase - kernBase) 7)
  pure (((s.setPools pools).setMm mm).modifyCurrent fun p => { p with
    mm := p.mm.append vma
    regs := { p.regs with
      rip := rip
      rsp := ustack - (pageSize - ((a.build stackBase).userStack - stackBase))
      krsp := kstackAddr s.pcbArr s.runningTask 509 } })

theorem loadProgram_eq (s : Kernel) : s.loadProgram tar a stackBase =
    (s.unload.loadElf tar a.fileName a.junk).bind fun x => x.2.addStack a stackBase x.1 := rfl

/-- Where this comes to its end, the page of the stack was mapped. -/
theorem addStack_spec (hs : s.addStack a stackBase rip = .ok t) : t.current.regs.rip = rip ∧
    t.current.mm.vmas = s.current.mm.vmas ++ s.freeVmas.take 1 ∧ t.freeVmas = s.freeVmas.drop 1 ∧
      ∃ mm, s.mm.setMapping s.current.pml4 (ustack - pageSize) (stackBase - kernBase) 7 = some mm := by
  obtain ⟨last, -, hs⟩ := bind_eq_ok hs
  obtain ⟨hvma, hfree, hmm⟩ := fetchFreeVma_spec s.toPools ⟨ustack - ustackSize, ustack, 6, .stack, 0, 0⟩
  dsimp only at hs
  generalize s.toPools.fetchFreeVma _ = fetched at hs hvma hfree hmm
  obtain ⟨mm, hmap, hs⟩ := bind_eq_ok hs
  obtain rfl := Except.ok.inj hs
  rw [current_modifyCurrent]
  refine ⟨rfl, congrArg (s.current.mm.vmas ++ ·) hvma, hfree, mm, ?_⟩
  rw [← hmm]
  exact paged_eq_ok hmap

/-- It comes to its end where there is a VMA to follow and the page of the stack can be mapped. -/
theorem exists_addStack (hne : s.current.mm.vmas ≠ [])
    (hmap : (s.mm.setMapping s.current.pml4 (ustack - pageSize) (stackBase - kernBase) 7).isSome) :
    ∃ t, s.addStack a stackBase rip = .ok t := by
  obtain ⟨last, hlast⟩ := lastVma_isOk.mpr hne
  obtain ⟨mm, hmm⟩ := Option.isSome_iff_exists.mp hmap
  obtain ⟨-, -, hsame⟩ := fetchFreeVma_spec s.toPools ⟨ustack - ustackSize, ustack, 6, .stack, 0, 0⟩
  unfold addStack
  rw [hlast]
  change ∃ t, (paged (Mm.setMapping (Pools.fetchFreeVma _ _).2.mm _ _ _ _) >>= fun mm => pure _) = Except.ok t
  rw [hsame, hmm]
  exact ⟨_, rfl⟩

/-- The page of the stack lies in the user half. -/
theorem inUser_stack : (vpage (ustack - pageSize)).InUser := by decide

section Load

variable (h : s.mm.Accounted roots held) (hr : r ∈ roots) (hpml4 : s.current.pml4 = convertVA r)
  (htarget : s.target tar a.fileName = some (some it)) (helf : isElfFormat tar.mem (it + 512) = true)
  (huser : ∀ ph ∈ segments tar.mem (it + 512), ph.AtUser)

include h hr hpml4 htarget helf huser

/-- Where a program is loaded, what this relies on was there. -/
theorem load_spec (hs : ((s.loadElf tar a.fileName a.junk).bind fun x => x.2.addStack a stackBase x.1) = .ok t) :
    HasLoaded (entry tar.mem (it + 512)) s.current.mm.vmas s.freeVmas (segments tar.mem (it + 512)) t ∧
      Loadable s.mm r s.current.mm.vmas s.freeVmas (segments tar.mem (it + 512)) ∧ s.NameFits a.fileName := by
  obtain ⟨fs, hl⟩ := h.free
  obtain ⟨y, hy, -⟩ := bind_eq_ok hs
  have hname := nameFits_of_ok htarget helf hy
  obtain ⟨filename, hload⟩ := loadElf_of_target htarget helf hname
  rw [hload, hpml4] at hs
  cases hread : elfRead tar.mem (it + 512) (convertVA r) a.junk s.current.mm s.toPools with
  | error e =>
    rw [hread] at hs
    cases hs
  | ok x =>
    rw [hread] at hs
    change (s.withImage filename x).addStack a stackBase (entry tar.mem (it + 512)) = .ok t at hs
    obtain ⟨r', p'⟩ := x
    obtain ⟨hdone, hne, hcov⟩ := elfRead_spec s.toPools h hl hr huser hread
    obtain ⟨hpools, hmm, hpml⟩ := withImage_spec s filename (r', p')
    obtain ⟨hrip, hvmas, hfree, mm, hmap⟩ := addStack_spec hs
    rw [hpools] at hvmas hfree hmap
    rw [hmm] at hvmas
    rw [hpml, hpml4] at hmap
    obtain ⟨held', hspent⟩ := hdone.spent
    obtain ⟨s₂, held₂, -, -, ⟨-, -, fs', -, hlen⟩, -⟩ := hspent.of_setMapping hr inUser_stack hmap
    refine ⟨⟨hrip, ?_, ?_⟩, ⟨hne, ⟨fs, hl, ?_⟩, hcov⟩, hname⟩
    · rw [hvmas, hdone.vmas, hdone.freeVmas, List.append_assoc, ← List.take_add]
    · rw [hfree, hdone.freeVmas, List.drop_drop]
    · unfold need
      omega

/-- With what it relies on, the program is loaded. -/
theorem exists_load (hloadable : Loadable s.mm r s.current.mm.vmas s.freeVmas (segments tar.mem (it + 512)))
    (hname : s.NameFits a.fileName) :
    ∃ t, ((s.loadElf tar a.fileName a.junk).bind fun x => x.2.addStack a stackBase x.1) = .ok t := by
  obtain ⟨hne, ⟨fs, hl, hneed⟩, hcov⟩ := hloadable
  obtain ⟨filename, hload⟩ := loadElf_of_target htarget helf hname
  obtain ⟨r', p', hread⟩ := exists_elfRead s.toPools a.junk h hl hr huser
    ((cost_le_need ..).trans hneed) hne hcov
  obtain ⟨hdone, -, -⟩ := elfRead_spec s.toPools h hl hr huser hread
  obtain ⟨held', hspent⟩ := hdone.spent
  obtain ⟨hpools, hmm, hpml⟩ := withImage_spec s filename (r', p')
  rw [hload, hpml4, hread]
  refine exists_addStack ?_ ?_
  · rw [hmm, hdone.vmas, List.take_add, ← List.append_assoc]
    exact List.append_ne_nil_of_left_ne_nil hne _
  · rw [hpools, hpml, hpml4]
    exact hspent.setMapping hr inUser_stack hneed _ _

end Load

/-! ## The call -/

/-- `sys_execvpe` returns to its caller where the path names no file, or one of another format. -/
theorem sysExecvpe_of_refused {found : Option Word} (htarget : s.resetCwd.target tar a.fileName = some found)
    (hnot : ∀ it, found = some it → isElfFormat tar.mem (it + 512) = false) :
    s.sysExecvpe tar a = .ok (.returned (-1) s.resetCwd) := by
  obtain ⟨buff, hpath, hfound⟩ := Option.bind_eq_some_iff.mp htarget
  have hvalid : validateBinary tar buff.tail = some (-1) := by
    unfold validateBinary
    change Option.map _ (lookup (strCompare · (strOf buff.tail)) tar.mem tar.stop tar.fuel tar.start) = _
    rw [hfound]
    cases found with
    | none => rfl
    | some it =>
      change some (if isElfFormat tar.mem (it + 512) = true then _ else _) = _
      rw [hnot it rfl]
      rfl
  unfold sysExecvpe
  dsimp only
  rw [hpath]
  change (ended (validateBinary tar buff.tail) >>= _) = _
  rw [hvalid]
  rfl

/-- Otherwise it takes a frame for the stack, copies the arguments, and loads the program. -/
theorem sysExecvpe_of_elf (htarget : s.resetCwd.target tar a.fileName = some (some it))
    (helf : isElfFormat tar.mem (it + 512) = true) : s.sysExecvpe tar a =
      (paged s.resetCwd.mm.pageAlloc).bind fun x => (bounded (guard a.Fits)).bind fun _ =>
        ((s.resetCwd.setMm (x.2.setBlock (Mm.kframe x.1) (a.stack x.1))).loadProgram tar a x.1).map
          ExecResult.entered := by
  obtain ⟨buff, hpath, hfound⟩ := Option.bind_eq_some_iff.mp htarget
  have hvalid : validateBinary tar buff.tail = some 1 := by
    unfold validateBinary
    change Option.map _ (lookup (strCompare · (strOf buff.tail)) tar.mem tar.stop tar.fuel tar.start) = _
    rw [hfound]
    change some (if isElfFormat tar.mem (it + 512) = true then _ else _) = _
    rw [if_pos helf]
  unfold sysExecvpe
  dsimp only
  rw [hpath]
  change (ended (validateBinary tar buff.tail) >>= _) = _
  rw [hvalid]
  change (paged s.resetCwd.mm.pageAlloc >>= _) = _
  cases paged s.resetCwd.mm.pageAlloc with
  | error e => rfl
  | ok x =>
    change (bounded (guard a.Fits) >>= _) = (bounded (guard a.Fits)).bind _
    cases bounded (guard a.Fits) with
    | error e => rfl
    | ok u =>
      change (Kernel.loadProgram (s.resetCwd.setMm (x.2.setBlock (Mm.kframe x.1) (a.stack x.1))) tar a x.1 >>= _) = _
      change _ = (Kernel.loadProgram (s.resetCwd.setMm (x.2.setBlock (Mm.kframe x.1) (a.stack x.1))) tar a x.1).map
        ExecResult.entered
      cases (s.resetCwd.setMm (x.2.setBlock (Mm.kframe x.1) (a.stack x.1))).loadProgram tar a x.1 with
      | error e => rfl
      | ok t => rfl

/-- It does not come to an end where the path does not fit or the walk through the archive does not end. -/
theorem sysExecvpe_of_none (htarget : s.resetCwd.target tar a.fileName = none) (x : ExecResult) :
    s.sysExecvpe tar a ≠ .ok x := by
  intro hs
  obtain ⟨buff, hpath, hs⟩ := bind_eq_ok hs
  obtain ⟨res, hres, -⟩ := bind_eq_ok hs
  unfold target at htarget
  cases hp : pathSanitize s.resetCwd.current.cwd a.fileName with
  | none =>
    rw [hp] at hpath
    cases hpath
  | some buff' =>
    rw [hp] at hpath htarget
    obtain rfl := Except.ok.inj hpath
    have hnone : validateBinary tar buff'.tail = none := by
      unfold validateBinary
      rw [Option.map_eq_none_iff]
      exact htarget
    rw [hnone] at hres
    cases hres

/-- The memory from which a program is loaded: the frame of the stack is taken and filled, and the old program is
gone, but for the first process. -/
def emptied (s : Kernel) (a : ExecArgs) : Option Mm :=
  s.mm.pageAlloc.map fun x =>
    let mm := x.2.setBlock (Mm.kframe x.1) (a.stack x.1)
    if s.isFirstProc then mm else mm.clearMapping s.current.pml4

/-- This memory, where the free list has a frame for the stack. -/
theorem emptied_eq {g : ℕ} (h : s.mm.Accounted roots held) (hpml4 : s.current.pml4 = convertVA r)
    (hg : s.mm.freePageHead = some g) : s.emptied a = some (if s.isFirstProc
      then (s.mm.takeHead g (convertVA g)).setBlock g (a.stack (convertVA g))
      else ((s.mm.takeHead g (convertVA g)).setBlock g (a.stack (convertVA g))).clearMapping (convertVA r)) := by
  have hframe := kframe_convertVA (h.lt_two_pow (h.head hg).1)
  rw [emptied, (Mm.alloc_eq hg).1, Option.map_some, hframe, hpml4]

/-- The frame of the stack is filled, and the account balances. -/
theorem accounted_stack {g : ℕ} (stack : Block) (h : s.mm.Accounted roots held)
    (hg : s.mm.freePageHead = some g) : ∃ held', ((s.mm.takeHead g (convertVA g)).setBlock g stack).Accounted roots held' := by
  obtain ⟨hgrown, hloose⟩ := h.grown_alloc hg
  exact ⟨_, hgrown.account.setBlock hloose.not_isTable⟩

/-- The account balances in this memory. -/
theorem accounted_emptied {mm : Mm} (h : s.mm.Accounted roots held) (hr : r ∈ roots)
    (hpml4 : s.current.pml4 = convertVA r) (hs : s.emptied a = some mm) :
    ∃ held', mm.Accounted roots held' := by
  cases hg : s.mm.freePageHead with
  | none =>
    rw [emptied, Mm.pageAlloc, hg] at hs
    cases hs
  | some g =>
    obtain ⟨held₁, hset⟩ := accounted_stack (a.stack (convertVA g)) h hg
    rw [emptied_eq h hpml4 hg] at hs
    obtain rfl := Option.some.inj hs
    split
    · exact ⟨held₁, hset⟩
    · obtain ⟨held', h', -⟩ := (hset.clearMapping hr).account
      exact ⟨held', h'⟩

/-- All frames that the allocators could take but one are in the stock of this memory. -/
theorem stock_emptied {mm : Mm} {l : List ℕ} (h : s.mm.Accounted roots held) (hr : r ∈ roots)
    (hpml4 : s.current.pml4 = convertVA r) (hs : s.emptied a = some mm) (hl : s.mm.Stock l) (hne : l ≠ []) :
    mm.Stock l.tail := by
  obtain ⟨g, l, rfl⟩ := List.exists_cons_of_ne_nil hne
  obtain ⟨l', hchain⟩ := hl.chain
  have hg : s.mm.freePageHead = some g := hchain.chain.1
  obtain ⟨held₁, hset⟩ := accounted_stack (a.stack (convertVA g)) h hg
  have hstack : ((s.mm.takeHead g (convertVA g)).setBlock g (a.stack (convertVA g))).Stock l :=
    hl.takeHead.congr rfl rfl rfl rfl fun _ hf => hf
  rw [emptied_eq h hpml4 hg] at hs
  obtain rfl := Option.some.inj hs
  split
  · exact hstack
  · exact hstack.clearMapping hset hr

/-- The first lines of `sys_execvpe` keep all but the current directory. -/
theorem resetCwd_spec (s : Kernel) : s.resetCwd.toPools = s.toPools ∧ s.resetCwd.isFirstProc = s.isFirstProc ∧
    s.resetCwd.current.pml4 = s.current.pml4 ∧ s.resetCwd.current.mm = s.current.mm := by
  unfold resetCwd
  split
  · rw [current_modifyCurrent]
    exact ⟨rfl, rfl, rfl, rfl⟩
  · exact ⟨rfl, rfl, rfl, rfl⟩

/-- The kernel before `load_elf`. -/
theorem unload_setMm (s : Kernel) (mm : Mm) : (s.resetCwd.setMm mm).unload.current.cwd = s.resetCwd.current.cwd ∧
    (s.resetCwd.setMm mm).unload.current.pml4 = s.current.pml4 ∧
    (s.resetCwd.setMm mm).unload.current.mm.vmas = s.oldVmas ∧
    (s.resetCwd.setMm mm).unload.freeVmas = s.freeVmas ∧
    (s.resetCwd.setMm mm).unload.mm = if s.isFirstProc then mm else mm.clearMapping s.current.pml4 := by
  obtain ⟨hpools, hfirst, hpml, hmm⟩ := s.resetCwd_spec
  obtain ⟨hcwd', hpml', hvmas', hfree', hmm'⟩ := (s.resetCwd.setMm mm).unload_spec
  have hfree : s.resetCwd.freeVmas = s.freeVmas := congrArg Pools.freeVmas hpools
  refine ⟨hcwd', hpml'.trans hpml, hvmas'.trans ?_, hfree'.trans hfree, hmm'.trans ?_⟩
  · unfold oldVmas
    change (if s.resetCwd.isFirstProc = true then s.resetCwd.current.mm.vmas else []) = _
    rw [hfirst, hmm]
  · change (if s.resetCwd.isFirstProc = true then mm else mm.clearMapping s.resetCwd.current.pml4) = _
    rw [hfirst, hpml]

/-- The kernel behind the teardown, from which the file that passed `validate_binary` is loaded. -/
structure Unloaded (s : Kernel) (tar : Tar) (a : ExecArgs) (mm : Mm) (stackBase : Word) (u : Kernel) : Prop where
  /-- The memory. -/
  mm_eq : u.mm = mm
  /-- The PML4 of the task. -/
  pml4 : u.current.pml4 = s.current.pml4
  /-- The list of VMAs of the task. -/
  vmas : u.current.mm.vmas = s.oldVmas
  /-- The list of free VMAs. -/
  freeVmas : u.freeVmas = s.freeVmas
  /-- The current directory. -/
  cwd : u.current.cwd = s.resetCwd.current.cwd
  /-- The path names the same file as before. -/
  target : u.target tar a.fileName = s.resetCwd.target tar a.fileName
  /-- The rest of the call. -/
  call : s.sysExecvpe tar a =
    ((u.loadElf tar a.fileName a.junk).bind fun x => x.2.addStack a stackBase x.1).map ExecResult.entered

/-- Where there is a frame for the stack, and the arguments fit, `sys_execvpe` comes to this kernel. -/
theorem exists_unloaded {mm : Mm} (htarget : s.resetCwd.target tar a.fileName = some (some it))
    (helf : isElfFormat tar.mem (it + 512) = true) (hfits : a.Fits) (hmm : s.emptied a = some mm) :
    ∃ stackBase u, s.Unloaded tar a mm stackBase u := by
  obtain ⟨⟨stackBase, mm₁⟩, halloc, rfl⟩ := Option.map_eq_some_iff.mp hmm
  have hpools : s.resetCwd.mm = s.mm := congrArg Pools.mm s.resetCwd_spec.1
  obtain ⟨hcwd, hpml, hvmas, hfree, hmm'⟩ :=
    s.unload_setMm (mm₁.setBlock (Mm.kframe stackBase) (a.stack stackBase))
  refine ⟨stackBase, (s.resetCwd.setMm (mm₁.setBlock (Mm.kframe stackBase) (a.stack stackBase))).unload, hmm', hpml,
    hvmas, hfree, hcwd, ?_, ?_⟩
  · unfold target
    rw [hcwd]
  · rw [sysExecvpe_of_elf htarget helf, hpools, halloc, bounded_guard hfits, ← loadProgram_eq]
    rfl

/-- `sys_execvpe` returns -1 and has changed the current directory at most, or it enters the new program, with
the list of VMAs and the entry point of the file that the path names. -/
def AllOrNothing (s : Kernel) (tar : Tar) (a : ExecArgs) : Prop :=
  (∃ t, s.sysExecvpe tar a = .ok (.returned (-1) t) ∧
    (t = s ∨ s.current.pid < 3 ∧ t = s.modifyCurrent fun p => { p with cwd := [47] })) ∨
  ∃ it t, s.resetCwd.target tar a.fileName = some (some it) ∧ s.sysExecvpe tar a = .ok (.entered t) ∧
    HasLoaded (entry tar.mem (it + 512)) s.oldVmas s.freeVmas (segments tar.mem (it + 512)) t

/-- The segments of the file that the path names, if it passes `validate_binary`, lie at user addresses. -/
def AtUser (s : Kernel) (tar : Tar) (a : ExecArgs) : Prop :=
  ∀ it, s.resetCwd.target tar a.fileName = some (some it) → isElfFormat tar.mem (it + 512) = true →
    ∀ ph ∈ segments tar.mem (it + 512), ph.AtUser

/-- The path can be looked up, and the file that it names can be loaded, if it passes `validate_binary`: the arguments
and the name fit, there is a VMA to follow, the allocators can take the frames, and the copies go to pages with the
write bit. -/
def Executable (s : Kernel) (tar : Tar) (a : ExecArgs) (r : ℕ) : Prop :=
  ∃ found, s.resetCwd.target tar a.fileName = some found ∧
    ∀ it, found = some it → isElfFormat tar.mem (it + 512) = true → a.Fits ∧ s.resetCwd.NameFits a.fileName ∧
      ∃ mm l, s.emptied a = some mm ∧ s.oldVmas ++ s.freeVmas.take (segments tar.mem (it + 512)).length ≠ [] ∧
        s.mm.Stock l ∧ need mm r (segments tar.mem (it + 512)) < l.length ∧
        Covered mm r [] (segments tar.mem (it + 512))

/-- What every call relies on that comes to an end. -/
def Needed (s : Kernel) (tar : Tar) (a : ExecArgs) (r : ℕ) : Prop :=
  ∃ found, s.resetCwd.target tar a.fileName = some found ∧
    ∀ it, found = some it → isElfFormat tar.mem (it + 512) = true → a.Fits ∧ s.resetCwd.NameFits a.fileName ∧
      ∃ mm fs, s.emptied a = some mm ∧ s.oldVmas ++ s.freeVmas.take (segments tar.mem (it + 512)).length ≠ [] ∧
        mm.FreeChain fs ∧ need mm r (segments tar.mem (it + 512)) ≤ fs.length

theorem resetCwd_eq (s : Kernel) : s.resetCwd = s ∨
    s.current.pid < 3 ∧ s.resetCwd = s.modifyCurrent fun p => { p with cwd := [47] } := by
  unfold resetCwd
  split
  · exact .inr ⟨‹_›, rfl⟩
  · exact .inl rfl

section Call

variable (h : s.mm.Accounted roots held) (hr : r ∈ roots) (hpml4 : s.current.pml4 = convertVA r)
  (huser : s.AtUser tar a)

include h hr hpml4 huser

/-- A file that can be loaded is loaded. -/
theorem Executable.allOrNothing (hexec : s.Executable tar a r) : s.AllOrNothing tar a := by
  obtain ⟨found, htarget, hload⟩ := hexec
  by_cases hvalid : ∃ it, found = some it ∧ isElfFormat tar.mem (it + 512) = true
  · obtain ⟨it, rfl, helf⟩ := hvalid
    obtain ⟨hfits, hname, mm, l, hmm, hlinked, hl, hneed, hcov⟩ := hload it rfl helf
    obtain ⟨held', h'⟩ := accounted_emptied h hr hpml4 hmm
    obtain ⟨stackBase, u, hu⟩ := exists_unloaded htarget helf hfits hmm
    -- The frames are left after the page of the stack and the teardown.
    have hstock := stock_emptied h hr hpml4 hmm hl (List.ne_nil_of_length_pos (Nat.zero_lt_of_lt hneed))
    obtain ⟨l', hchain⟩ := hstock.chain
    have hroom : need mm r (segments tar.mem (it + 512)) ≤ (l.tail ++ l').length := by
      rw [List.length_append, List.length_tail]
      omega
    have hloadable : Loadable mm r s.oldVmas s.freeVmas (segments tar.mem (it + 512)) :=
      ⟨hlinked, ⟨_, hchain, hroom⟩, hcov⟩
    rw [← hu.mm_eq] at h' hloadable
    rw [← hu.vmas, ← hu.freeVmas] at hloadable
    have hname' : u.NameFits a.fileName := by
      unfold NameFits
      rw [hu.cwd]
      exact hname
    obtain ⟨t, ht⟩ := exists_load h' hr (hu.pml4.trans hpml4) (hu.target.trans htarget) helf
      (huser it htarget helf) hloadable hname'
    obtain ⟨hloaded, -⟩ := load_spec h' hr (hu.pml4.trans hpml4) (hu.target.trans htarget) helf
      (huser it htarget helf) ht
    rw [hu.vmas, hu.freeVmas] at hloaded
    refine .inr ⟨it, t, htarget, ?_, hloaded⟩
    rw [hu.call, ht]
    rfl
  · refine .inl ⟨s.resetCwd, sysExecvpe_of_refused htarget fun it hit => ?_, s.resetCwd_eq⟩
    exact Bool.eq_false_iff.mpr fun helf => hvalid ⟨it, hit, helf⟩

/-- Where the call comes to an end, there was what it relies on, or the file was none to be loaded. -/
theorem needed_of_ok {x : ExecResult} (hs : s.sysExecvpe tar a = .ok x) : s.Needed tar a r := by
  cases htarget : s.resetCwd.target tar a.fileName with
  | none => exact absurd hs (sysExecvpe_of_none htarget x)
  | some found =>
    refine ⟨found, htarget, ?_⟩
    rintro it rfl helf
    have hcall := hs
    rw [sysExecvpe_of_elf htarget helf, congrArg Pools.mm s.resetCwd_spec.1] at hcall
    obtain ⟨y, hy, hcall⟩ := bind_eq_ok hcall
    obtain ⟨u, hu, -⟩ := bind_eq_ok hcall
    have hfits := of_bounded_guard hu
    obtain ⟨mm, hmm⟩ : ∃ mm, s.emptied a = some mm := ⟨_, by rw [emptied, paged_eq_ok hy, Option.map_some]⟩
    obtain ⟨held', h'⟩ := accounted_emptied h hr hpml4 hmm
    obtain ⟨stackBase, u, hu⟩ := exists_unloaded htarget helf hfits hmm
    rw [← hu.mm_eq] at h'
    rw [hu.call] at hs
    cases hload : (u.loadElf tar a.fileName a.junk).bind fun x => x.2.addStack a stackBase x.1 with
    | error e =>
      rw [hload] at hs
      cases hs
    | ok t =>
      obtain ⟨-, hloadable, hname⟩ := load_spec h' hr (hu.pml4.trans hpml4) (hu.target.trans htarget) helf
        (huser it htarget helf) hload
      rw [hu.mm_eq, hu.vmas, hu.freeVmas] at hloadable
      obtain ⟨hlinked, ⟨fs, hchain, hroom⟩, -⟩ := hloadable
      refine ⟨hfits, ?_, mm, fs, hmm, hlinked, hchain, hroom⟩
      unfold NameFits at hname ⊢
      rwa [hu.cwd] at hname

end Call

/-- Where the segments of the file lie at user addresses, `sys_execvpe` is all or nothing if the path can be looked up
and the file, if it passes `validate_binary`, can be loaded in the memory that the teardown leaves. And where it is all
or nothing, the arguments and the name fit, there is a VMA to follow, and the free list has the frames. -/
theorem all_or_nothing_iff (s : Kernel) (tar : Tar) (a : ExecArgs) (roots : Finset ℕ) (held : ℕ → ℕ) (r : ℕ)
    (h : s.mm.Accounted roots held) (hr : r ∈ roots) (hpml4 : s.current.pml4 = convertVA r) :
    (s.AtUser tar a ∧ s.Executable tar a r → s.AllOrNothing tar a) ∧
      (s.AtUser tar a → s.AllOrNothing tar a → s.Needed tar a r) := by
  constructor
  · rintro ⟨huser, hexec⟩
    exact hexec.allOrNothing h hr hpml4 huser
  · rintro huser (⟨t, hs, -⟩ | ⟨it, t, -, hs, -⟩)
    · exact needed_of_ok h hr hpml4 huser hs
    · exact needed_of_ok h hr hpml4 huser hs

end Kernel

/-! ## A small file -/

/-- A memory with an empty PML4 in frame 0 and the free frames 1 to 8. -/
def loadMm : Mm :=
  { Mm.roomy with
    next := fun f => if f < 8 then some (f + 1) else none
    freePageEnd := some 8
    pageCount := 9 }

theorem freeChain_loadMm : loadMm.FreeChain [1, 2, 3, 4, 5, 6, 7, 8] :=
  ⟨by decide, by decide, by decide, by decide⟩

theorem accounted_loadMm : loadMm.Accounted {0} loadMm.refCount :=
  Mm.accounted_of_zero rfl freeChain_loadMm (by decide)

/-- A kernel with this memory and three free VMAs. -/
def loadKernel (isFirstProc : Bool) : Kernel :=
  { Kernel.smallKernel [5, 6, 7] [3] with
    mm := loadMm
    pcb := fun _ => .blank
    isFirstProc := isFirstProc }

theorem target_loadKernel (isFirstProc : Bool) (phnum : Byte) :
    (loadKernel isFirstProc).resetCwd.target (elfTar phnum) loadArgs.fileName = some (some 0) := by
  have hname : Strings.IsString (Strings.strAt (elfMem phnum) 0) [97] := by
    refine ⟨fun i hi => ?_, rfl, by decide⟩
    obtain rfl : i = 0 := Nat.lt_one_iff.mp hi
    rfl
  have hcmp : strCompare (Strings.strAt (elfMem phnum) 0) (strOf [97]) = 0 :=
    (Tarfs.strCompare1_eq_zero hname (Strings.isString_strOf (by decide)) (by decide) (by decide)).mpr rfl
  have hlookup : lookup (strCompare · (strOf [97])) (elfMem phnum) 1024 1 0 = some (some 0) := by
    rw [lookup, if_pos (by decide), if_pos hcmp]
  have hcwd : (loadKernel isFirstProc).resetCwd.current.cwd = [47] := by
    cases isFirstProc <;> rfl
  unfold Kernel.target
  rw [hcwd]
  exact hlookup

theorem segments_elfTar : segments (elfTar 1).mem (0 + 512) = [byteSegment 0x400000] := rfl

theorem isElfFormat_elfTar (phnum : Byte) : isElfFormat (elfTar phnum).mem (0 + 512) = true := rfl

/-- Its segment lies at user addresses, and what is copied lies on its page. -/
theorem byteSegment_copies {x a : Word} (ha : (byteSegment x).Contains a ∨ (byteSegment x).Copies a) :
    a = x := by
  have hone : ∀ b : Word, b - x < 1 → b = x := fun b hb => by bv_omega
  rcases ha with ha | ha | ha
  · exact hone a ha
  · exact hone a ha
  · have hzero : (byteSegment x).bssSize = 0 := by
      change ((1 - 1 : Word).setWidth 32).toInt.toNat = 0
      decide
    rw [hzero] at ha
    exact absurd ha (Nat.not_lt_zero _)

theorem atUser_byteSegment {x : Word} (hx : UserAddr x) : (byteSegment x).AtUser :=
  ⟨fun _ ha => byteSegment_copies (.inl ha) ▸ hx, fun _ ha => byteSegment_copies (.inr ha) ▸ hx⟩

/-- The frames that it takes: one for its page and three for tables, and three more for the page of the stack. -/
theorem need_byteSegment (mm : Mm) : need mm 0 [byteSegment 0x400000] ≤ 7 := by
  have hpages : pagesOf [byteSegment 0x400000] = [vpage 0x400000] := by decide
  have hcard : (pathsTo [vpage 0x400000] ∪ (vpage (ustack - pageSize)).paths).card = 6 := by decide
  unfold need
  rw [hpages, List.length_singleton]
  exact Nat.add_le_add_left (Mm.card_missing_le.trans hcard.le) 1

/-- The first process loads the file with one segment. -/
theorem all_or_nothing_iff_small : (loadKernel true).AllOrNothing (elfTar 1) loadArgs := by
  have hpml4 : (loadKernel true).current.pml4 = convertVA 0 := by decide
  have hstock : loadMm.Stock [1, 2, 3, 4, 5, 6, 7, 8] := ⟨⟨[], freeChain_loadMm⟩, by decide⟩
  have hcwd : (loadKernel true).resetCwd.current.cwd = [47] := rfl
  have hpath : pathSanitize [47] [97] = some [47, 97] := by decide
  refine (Kernel.all_or_nothing_iff (loadKernel true) (elfTar 1) loadArgs {0} loadMm.refCount 0 accounted_loadMm
    (Finset.mem_singleton_self 0) hpml4).1 ⟨fun it hit helf => ?_, some 0, target_loadKernel true 1,
      fun it hit helf => ⟨by decide, ⟨_, hcwd ▸ hpath, by decide⟩, _, [1, 2, 3, 4, 5, 6, 7, 8],
        Kernel.emptied_eq accounted_loadMm hpml4 rfl, ?_⟩⟩
  · obtain rfl : (0 : Word) = it :=
      Option.some.inj (Option.some.inj ((target_loadKernel true 1).symm.trans hit))
    rw [segments_elfTar]
    exact List.forall_mem_singleton.mpr (atUser_byteSegment (by decide))
  · obtain rfl : (0 : Word) = it := Option.some.inj hit
    rw [segments_elfTar]
    refine ⟨by decide, hstock, Nat.lt_succ_of_le (need_byteSegment _), fun a ha => .inr ?_, trivial⟩
    rw [byteSegment_copies (.inr ha)]
    decide

/-- A file without a segment passes `validate_binary`, and a task that is not the first process does not come to
an end with it. -/
theorem headers_unchecked : ¬ ∀ (s : Kernel) (tar : Tar) (a : ExecArgs) (roots : Finset ℕ) (held : ℕ → ℕ)
    (r : ℕ), s.mm.Accounted roots held → r ∈ roots → s.current.pml4 = convertVA r → s.AllOrNothing tar a := by
  intro hall
  have hsegments : segments (elfTar 0).mem (0 + 512) = [] := rfl
  have hnot : ¬ (loadKernel false).Needed (elfTar 0) loadArgs 0 := by
    rintro ⟨found, htarget, hload⟩
    obtain rfl := Option.some.inj ((target_loadKernel false 0).symm.trans htarget)
    obtain ⟨-, -, mm, fs, -, hlinked, -⟩ := hload 0 rfl (isElfFormat_elfTar 0)
    rw [hsegments] at hlinked
    exact hlinked rfl
  have huser : (loadKernel false).AtUser (elfTar 0) loadArgs := by
    intro it hit helf
    obtain rfl : (0 : Word) = it :=
      Option.some.inj (Option.some.inj ((target_loadKernel false 0).symm.trans hit))
    rw [hsegments]
    exact nofun
  have hpml4 : (loadKernel false).current.pml4 = convertVA 0 := by decide
  have hmem : (0 : ℕ) ∈ ({0} : Finset ℕ) := Finset.mem_singleton_self 0
  rcases hall (loadKernel false) (elfTar 0) loadArgs {0} loadMm.refCount 0 accounted_loadMm hmem hpml4 with
    ⟨t, hs, -⟩ | ⟨it, t, -, hs, -⟩
  · exact hnot (Kernel.needed_of_ok accounted_loadMm hmem hpml4 huser hs)
  · exact hnot (Kernel.needed_of_ok accounted_loadMm hmem hpml4 huser hs)

end Nascent.Proc
