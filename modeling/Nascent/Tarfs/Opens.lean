import Nascent.Tarfs.Listing

/-!
# What the open calls return

`open_s` and `open_dir` of `src/sys/tarfs.c` return the first descriptor that is free, or -1 where there is
no such entry. Out of descriptors they return 0, and `open_dir` returns 25 for the root: these are no
descriptors of the call (`opened_openS_iff`, `opened_openDir_iff`). `opendir` of `src/libc/directory.c` uses
what `open_dir` returns as an index into an array of 20 elements (`opendir_isSome_iff`).

In a run whose calls find a free descriptor for each entry and do not open the root, the descriptors in use
have different numbers (`OpenSys.InUse.step`).
-/

namespace Nascent.Tarfs

open Nascent.Bytes (Byte)
open Nascent.Memory Nascent.Strings Nascent.Runs

/-- The number of elements of `dir_array`. -/
def dirArraySize : ℕ := 20

namespace Files

variable (s : Files)

/-- `opendir` of libc, with the field `fd` of the elements of `dir_array`: the index of the element that it
returns, or nothing where this is not in the array. -/
def opendir (tar : Tar) (dirArray : ℕ → CInt) (name : List Byte) : Option (ℕ × (ℕ → CInt) × Files) :=
  (s.openDir tar name).bind fun fd =>
    if 0 ≤ fd.1.toInt ∧ fd.1.toInt < dirArraySize then
      some (fd.1.toNat, Function.update dirArray fd.1.toNat fd.1, fd.2)
    else none

/-- `close_dir`. -/
def closeDir (fd : ℕ) : Option (CInt × Files) := if fd = 25 then some (0, s) else s.closeS fd

/-- There is a free descriptor. -/
def HasFree : Prop := ∃ i < maxFds, (s.fdArray i).alloted = 0

/-- The path is the root, for which `open_dir` has no descriptor. -/
def IsRoot (path : List Byte) : Prop := strCompare (strOf [slash]) (strOf path) = 0

/-- The header that `open_s` finds for a path, nothing in the inner option where there is none, and nothing
at all where the path leaves its buffer or the walk does not end. -/
def findFile (tar : Tar) (path : List Byte) : Option (Option Word64) :=
  (pathSanitize s.cwd path).bind fun dPath =>
    lookup (strCompare · (strOf dPath.tail)) tar.mem tar.stop tar.fuel tar.start

/-- The header that `open_dir` finds for a path. -/
def findDir (tar : Tar) (path : List Byte) : Option (Option Word64) :=
  ((pathSanitize s.cwd path).bind withSlash).bind fun dPath =>
    (fileExists tar.mem tar.start tar.stop tar.fuel (strOf dPath.tail)).bind fun exists? =>
      if exists? = 1 then
        lookup (compareDir (strOf dPath.tail)) tar.mem tar.stop tar.fuel tar.start
      else some none

/-- The result of a call that opens what `found` gives: -1 and the descriptors as they were, or a
descriptor that was free, is in use now, and refers to the entry as `Refers` says. -/
def Opened (found : Option (Option Word64)) (Refers : Word64 → Fd → Prop) (r : CInt × Files) : Prop :=
  found = some none ∧ r = (-1, s) ∨
    ∃ it fd, found = some (some it) ∧ r.1 = BitVec.ofNat 32 fd ∧ fd < maxFds ∧
      (s.fdArray fd).alloted = 0 ∧ (r.2.fdArray fd).alloted = 1 ∧ Refers it (r.2.fdArray fd) ∧
      (∀ i ≠ fd, r.2.fdArray i = s.fdArray i) ∧ r.2.cwd = s.cwd

/-- The descriptor is one of a file. -/
def RefersFile (m : Mem) (it : Word64) (x : Fd) : Prop :=
  x.filePtr = it + 512 ∧ x.fileSz = convertOctInt m (it + sizeOffset)

/-- The descriptor is one of a directory. -/
def RefersDir (it : Word64) (x : Fd) : Prop := x.filePtr = it ∧ x.lastMatchedHeader = it

variable {s} {s' : Files} {tar : Tar} {path : List Byte} {fd : ℕ} {r : CInt × Files} {it ptr : Word64}
  {Refers : Word64 → Fd → Prop} {found : Option (Option Word64)}

/-! ## One call -/

/-- The first free descriptor, where there is one. -/
theorem getFreeFd_cases (s : Files) (ptr : Word64) : s.getFreeFd ptr = none ∧ ¬ s.HasFree ∨
    ∃ fd s', s.getFreeFd ptr = some (fd, s') ∧ fd < maxFds ∧ (s.fdArray fd).alloted = 0 ∧
      s' = s.modify fd fun x => { x with alloted := 1, filePtr := ptr, lastMatchedHeader := ptr } := by
  unfold getFreeFd
  cases hfind : (List.range maxFds).find? fun i => (s.fdArray i).alloted = 0 with
  | none =>
    refine .inl ⟨rfl, ?_⟩
    rintro ⟨i, hi, h0⟩
    have := List.find?_eq_none.mp hfind i (List.mem_range.mpr hi)
    simp [h0] at this
  | some fd =>
    have h0 : (s.fdArray fd).alloted = 0 := by simpa using List.find?_some hfind
    exact .inr ⟨fd, _, rfl, List.mem_range.mp (List.mem_of_find?_eq_some hfind), h0, rfl⟩

/-- `open_s` by what it finds. -/
theorem openS_eq : s.openS tar path = (s.findFile tar path).map fun found =>
    found.elim (-1, s) (s.openEntry tar.mem) := by
  unfold openS findFile fileExists
  cases pathSanitize s.cwd path with
  | none => rfl
  | some dPath =>
    simp only [Option.bind_some]
    change ((lookup (strCompare · (strOf dPath.tail)) tar.mem tar.stop tar.fuel tar.start).map _).bind _ = _
    cases lookup (strCompare · (strOf dPath.tail)) tar.mem tar.stop tar.fuel tar.start with
    | none => rfl
    | some found => cases found <;> rfl

/-- `open_dir` by what it finds. -/
theorem openDir_eq (h : ¬ IsRoot path) : s.openDir tar path = (s.findDir tar path).map fun found =>
    found.elim (-1, s) s.openHeader := by
  have hroot : ¬ strCompare (strOf [slash]) (strOf path) = 0 := h
  unfold openDir findDir
  rw [if_neg hroot]
  cases (pathSanitize s.cwd path).bind withSlash with
  | none => rfl
  | some dPath =>
    simp only [Option.bind_some]
    cases fileExists tar.mem tar.start tar.stop tar.fuel (strOf dPath.tail) with
    | none => rfl
    | some e =>
      simp only [Option.bind_some]
      split_ifs
      · refine congrFun (congrArg Option.map (funext fun found => ?_)) _
        cases found <;> rfl
      · rfl

theorem openDir_root (h : IsRoot path) : s.openDir tar path = some (25, s) := if_pos h

/-- A free descriptor that is taken with `g` and set up with `f` is opened. -/
theorem opened_modify {f g : Fd → Fd} (hlt : fd < maxFds) (h0 : (s.fdArray fd).alloted = 0)
    (h1 : (f (g (s.fdArray fd))).alloted = 1) (hrefers : Refers it (f (g (s.fdArray fd)))) :
    s.Opened (some (some it)) Refers (BitVec.ofNat 32 fd, (s.modify fd g).modify fd f) := by
  refine .inr ⟨it, fd, rfl, rfl, hlt, h0, ?_, ?_, fun i hi => ?_, rfl⟩
  · rwa [modify_fdArray_self, modify_fdArray_self]
  · rwa [modify_fdArray_self, modify_fdArray_self]
  · rw [modify_fdArray_of_ne hi, modify_fdArray_of_ne hi]

/-- A free descriptor is set up for a header, or there is none. -/
theorem openEntry_eq (s : Files) (m : Mem) (it : Word64) : s.openEntry m it = (0, s) ∧ ¬ s.HasFree ∨
    s.HasFree ∧ s.Opened (some (some it)) (RefersFile m) (s.openEntry m it) := by
  unfold openEntry
  rcases s.getFreeFd_cases (it + 512) with ⟨hnone, hfree⟩ | ⟨fd, s', hsome, hlt, h0, rfl⟩
  · rw [hnone]
    exact .inl ⟨rfl, hfree⟩
  · rw [hsome]
    exact .inr ⟨⟨fd, hlt, h0⟩, opened_modify hlt h0 rfl ⟨rfl, rfl⟩⟩

theorem openHeader_eq (s : Files) (it : Word64) : s.openHeader it = (0, s) ∧ ¬ s.HasFree ∨
    s.HasFree ∧ s.Opened (some (some it)) RefersDir (s.openHeader it) := by
  unfold openHeader
  rcases s.getFreeFd_cases it with ⟨hnone, hfree⟩ | ⟨fd, s', hsome, hlt, h0, rfl⟩
  · rw [hnone]
    exact .inl ⟨rfl, hfree⟩
  · rw [hsome]
    exact .inr ⟨⟨fd, hlt, h0⟩, opened_modify hlt h0 rfl ⟨rfl, rfl⟩⟩

/-- A descriptor that is returned with the descriptors as they were is not opened. -/
theorem not_opened {code : CInt} (hcode : code ≠ -1) : ¬ s.Opened found Refers (code, s) := by
  rintro (⟨-, hr⟩ | ⟨it, fd, -, -, -, h0, h1, -⟩)
  · exact hcode (congrArg Prod.fst hr)
  · rw [h0] at h1
    exact absurd h1 (by decide)

/-- What both calls do with what they have found: they open it if and only if there is a free descriptor. -/
theorem opened_found_iff {openFound : Word64 → CInt × Files}
    (hopen : ∀ it, openFound it = (0, s) ∧ ¬ s.HasFree ∨
      s.HasFree ∧ s.Opened (some (some it)) Refers (openFound it)) :
    (∃ r, (found.map fun found => found.elim (-1, s) openFound) = some r ∧ s.Opened found Refers r) ↔
      ∃ f, found = some f ∧ (f ≠ none → s.HasFree) := by
  cases found with
  | none => simp
  | some f =>
    rw [Option.map_some]
    cases f with
    | none => exact iff_of_true ⟨_, rfl, .inl ⟨rfl, rfl⟩⟩ ⟨_, rfl, fun h => (h rfl).elim⟩
    | some it =>
      rcases hopen it with ⟨hfull, hfree⟩ | ⟨hfree, hopened⟩
      · refine iff_of_false ?_ fun ⟨f, hf, h⟩ => hfree (h (Option.some.inj hf ▸ Option.some_ne_none it))
        rintro ⟨r, hr, hopened⟩
        rw [← Option.some.inj hr, Option.elim_some, hfull] at hopened
        exact not_opened (by decide) hopened
      · exact iff_of_true ⟨_, rfl, hopened⟩ ⟨_, rfl, fun _ => hfree⟩

/-- `open_s` has failed or opened an entry if and only if it comes to an end, with a free descriptor for
what it finds. -/
theorem opened_openS_iff : (∃ r, s.openS tar path = some r ∧
      s.Opened (s.findFile tar path) (RefersFile tar.mem) r) ↔
    ∃ f, s.findFile tar path = some f ∧ (f ≠ none → s.HasFree) := by
  rw [openS_eq]
  exact opened_found_iff fun it => s.openEntry_eq tar.mem it

/-- The same for `open_dir`, but for the root. -/
theorem opened_openDir_iff : (∃ r, s.openDir tar path = some r ∧
      s.Opened (s.findDir tar path) RefersDir r) ↔
    ¬ IsRoot path ∧ ∃ f, s.findDir tar path = some f ∧ (f ≠ none → s.HasFree) := by
  by_cases hroot : IsRoot path
  · refine iff_of_false ?_ fun h => h.1 hroot
    rintro ⟨r, hr, hopened⟩
    rw [openDir_root hroot] at hr
    rw [← Option.some.inj hr] at hopened
    exact not_opened (by decide) hopened
  · rw [openDir_eq hroot, and_iff_right hroot]
    exact opened_found_iff s.openHeader_eq

/-- `opendir` stays in `dir_array` if and only if `open_dir` finds a directory other than the root. -/
theorem opendir_isSome_iff {dirArray : ℕ → CInt} : (s.opendir tar dirArray path).isSome ↔
    ¬ IsRoot path ∧ ∃ it, s.findDir tar path = some (some it) := by
  unfold opendir
  by_cases hroot : IsRoot path
  · have hrange : ¬ (0 ≤ (25 : CInt).toInt ∧ (25 : CInt).toInt < dirArraySize) := by decide
    rw [openDir_root hroot, Option.bind_some, if_neg hrange]
    exact iff_of_false (by decide) fun h => h.1 hroot
  · rw [openDir_eq hroot, and_iff_right hroot]
    cases hfound : s.findDir tar path with
    | none => simp
    | some f =>
      rw [Option.map_some, Option.bind_some]
      cases f with
      | none => exact iff_of_false (by simp) (by simp)
      | some it =>
        refine iff_of_true ?_ ⟨it, rfl⟩
        have hrange : 0 ≤ (s.openHeader it).1.toInt ∧ (s.openHeader it).1.toInt < dirArraySize := by
          rcases s.openHeader_eq it with ⟨h, -⟩ | ⟨-, h⟩
          · rw [h]
            exact ⟨le_rfl, Int.natCast_pos.mpr (by decide)⟩
          · rcases h with ⟨h, -⟩ | ⟨it', fd, -, hr, hlt, -⟩
            · cases h
            · have htoInt : (BitVec.ofNat 32 fd).toInt = fd := by
                unfold maxFds at hlt
                interval_cases fd <;> rfl
              rw [hr, htoInt]
              exact ⟨Int.natCast_nonneg fd, by unfold maxFds at hlt; unfold dirArraySize; omega⟩
        rw [Option.elim_some, if_pos hrange]
        rfl

end Files

/-! ## Runs -/

/-- The calls of a task on files and directories. -/
inductive OpenOp
  /-- `open_s`. -/
  | openS (path : List Byte)
  /-- `open_dir`. -/
  | openDir (path : List Byte)
  /-- `read_s`. -/
  | readS (fd : ℕ) (numBytes : CInt)
  /-- `read_dir`. -/
  | readDir (fd : ℕ)
  /-- `close_s`. -/
  | closeS (fd : ℕ)
  /-- `close_dir`. -/
  | closeDir (fd : ℕ)

/-- The files of a task, with the numbers that it has got from the open calls and not closed since. -/
structure OpenSys where
  /-- The files. -/
  files : Files
  /-- The numbers. -/
  held : List ℕ

namespace OpenSys

variable (s : OpenSys)

/-- The numbers after an open call: -1 is none. -/
def hold (r : CInt × Files) : OpenSys := ⟨r.2, if r.1 = -1 then s.held else s.held ++ [r.1.toNat]⟩

/-- The numbers after a close. -/
def release (fd : ℕ) (r : CInt × Files) : OpenSys := ⟨r.2, s.held.filter (· ≠ fd)⟩

/-- One call. -/
def step (tar : Tar) (s : OpenSys) : OpenOp → Option OpenSys
  | .openS path => (s.files.openS tar path).map s.hold
  | .openDir path => (s.files.openDir tar path).map s.hold
  | .readS fd numBytes => some { s with files := (s.files.readS tar.mem fd numBytes).2.2 }
  | .readDir fd => (s.files.readDir tar fd fun _ => 0).map fun r => { s with files := r.2.2 }
  | .closeS fd => (s.files.closeS fd).map (s.release fd)
  | .closeDir fd => (s.files.closeDir fd).map (s.release fd)

/-- The call does not open the root, and there is a free descriptor for what it finds. -/
def Finds (tar : Tar) (s : OpenSys) : OpenOp → Prop
  | .openS path => ∃ f, s.files.findFile tar path = some f ∧ (f ≠ none → s.files.HasFree)
  | .openDir path =>
    ¬ Files.IsRoot path ∧ ∃ f, s.files.findDir tar path = some f ∧ (f ≠ none → s.files.HasFree)
  | _ => True

/-- The numbers are different, and their descriptors are in use. -/
structure InUse (s : OpenSys) : Prop where
  /-- No number is held twice. -/
  nodup : s.held.Nodup
  /-- The descriptors. -/
  alloted : ∀ fd ∈ s.held, (s.files.fdArray fd).alloted ≠ 0

variable {s} {s' : OpenSys} {tar : Tar} {op : OpenOp} {r : CInt × Files} {fd : ℕ}
  {Refers : Word64 → Fd → Prop} {found : Option (Option Word64)}

/-- A descriptor that was free is held once. -/
theorem InUse.hold (h : s.InUse) (hr : s.files.Opened found Refers r) : (s.hold r).InUse := by
  rcases hr with ⟨-, rfl⟩ | ⟨it, fd, -, hnum, hlt, h0, h1, -, hother, -⟩
  · rwa [OpenSys.hold, if_pos rfl]
  · have hfd : r.1 ≠ -1 ∧ r.1.toNat = fd := by
      rw [hnum]
      unfold maxFds at hlt
      interval_cases fd <;> exact ⟨by decide, rfl⟩
    have hnew : fd ∉ s.held := fun hmem => h.alloted fd hmem h0
    rw [OpenSys.hold, if_neg hfd.1, hfd.2]
    refine ⟨List.nodup_append.mpr ⟨h.nodup, List.nodup_singleton fd, ?_⟩, fun fd' hfd' => ?_⟩
    · intro a ha b hb
      rw [List.mem_singleton.mp hb]
      exact fun heq => hnew (heq ▸ ha)
    · rcases List.mem_append.mp hfd' with hmem | hmem
      · have hne : fd' ≠ fd := fun heq => hnew (heq ▸ hmem)
        dsimp only
        rw [hother fd' hne]
        exact h.alloted fd' hmem
      · dsimp only
        rw [List.mem_singleton.mp hmem, h1]
        decide

/-- A close leaves the other descriptors. -/
theorem InUse.release (h : s.InUse) (hother : ∀ i ≠ fd, r.2.fdArray i = s.files.fdArray i) :
    (s.release fd r).InUse := by
  refine ⟨h.nodup.filter _, fun fd' hfd' => ?_⟩
  obtain ⟨hmem, hne⟩ := List.mem_filter.mp hfd'
  have hne : fd' ≠ fd := by simpa using hne
  exact hother fd' hne ▸ h.alloted fd' hmem

/-- A call that does not open or close keeps every descriptor in use. -/
theorem InUse.congr {files : Files} (h : s.InUse)
    (heq : ∀ i, (files.fdArray i).alloted = (s.files.fdArray i).alloted) :
    InUse { s with files := files } :=
  ⟨h.nodup, fun fd hfd => heq fd ▸ h.alloted fd hfd⟩

/-- A descriptor of which no call changes whether it is in use. -/
theorem alloted_modify {files : Files} {f : Fd → Fd} (hf : ∀ x, (f x).alloted = x.alloted) (i : ℕ) :
    ((files.modify fd f).fdArray i).alloted = (files.fdArray i).alloted := by
  by_cases hi : i = fd
  · rw [hi, Files.modify_fdArray_self, hf]
  · rw [Files.modify_fdArray_of_ne hi]

theorem closeS_other {files : Files} (h : files.closeS fd = some r) :
    ∀ i ≠ fd, r.2.fdArray i = files.fdArray i := by
  unfold Files.closeS at h
  split_ifs at h
  intro i hi
  rw [← Option.some.inj h]
  dsimp only
  exact Files.modify_fdArray_of_ne hi

/-- Every call keeps the numbers different. -/
theorem InUse.step (h : s.InUse) (hfinds : Finds tar s op) (hs : s.step tar op = some s') : s'.InUse := by
  cases op with
  | openS path =>
    obtain ⟨r, hr, rfl⟩ := Option.map_eq_some_iff.mp hs
    obtain ⟨r', hr', hopened⟩ := Files.opened_openS_iff.mpr hfinds
    rw [hr] at hr'
    exact h.hold (Option.some.inj hr' ▸ hopened)
  | openDir path =>
    obtain ⟨r, hr, rfl⟩ := Option.map_eq_some_iff.mp hs
    obtain ⟨r', hr', hopened⟩ := Files.opened_openDir_iff.mpr hfinds
    rw [hr] at hr'
    exact h.hold (Option.some.inj hr' ▸ hopened)
  | readS fd n =>
    rw [← Option.some.inj hs]
    rcases Files.readS_cases s.files tar.mem fd n with hsame | ⟨-, hsame⟩
    · rw [hsame]
      exact h
    · rw [hsame]
      exact h.congr (alloted_modify fun x => x.read_alloted tar.mem n)
  | readDir fd =>
    obtain ⟨⟨code, buffer, files⟩, hr, rfl⟩ := Option.map_eq_some_iff.mp hs
    refine h.congr fun i => ?_
    unfold Files.readDir at hr
    split_ifs at hr
    · rw [← (Prod.mk.inj (Prod.mk.inj (Option.some.inj hr)).2).2]
    · rw [← (Prod.mk.inj (Prod.mk.inj (Option.some.inj hr)).2).2]
    · obtain ⟨found, -, hr⟩ := Option.map_eq_some_iff.mp hr
      cases found with
      | none => rw [← (Prod.mk.inj (Prod.mk.inj hr).2).2]
      | some it =>
        rw [← (Prod.mk.inj (Prod.mk.inj hr).2).2]
        exact alloted_modify (f := fun x => { x with lastMatchedHeader := it }) (fun _ => rfl) i
  | closeS fd =>
    obtain ⟨r, hr, rfl⟩ := Option.map_eq_some_iff.mp hs
    exact h.release (closeS_other hr)
  | closeDir fd =>
    obtain ⟨r, hr, rfl⟩ := Option.map_eq_some_iff.mp hs
    refine h.release ?_
    unfold Files.closeDir at hr
    split_ifs at hr
    · rw [← Option.some.inj hr]
      exact fun _ _ => rfl
    · exact closeS_other hr

end OpenSys

/-- What `open_s` and `open_dir` return is -1 or a descriptor that was free and is the entry's now, if and
only if they come to an end, with a free descriptor for what they find, and the path is not the root for
`open_dir`; and `opendir` stays in its array if and only if there is such a directory. In a run of calls
that all find a free descriptor, the numbers that are held are different. -/
theorem open_results_iff (tar : Tar) (s : Files) (path : List Byte) (dirArray : ℕ → CInt) :
    ((∃ r, s.openS tar path = some r ∧ s.Opened (s.findFile tar path) (Files.RefersFile tar.mem) r) ↔
      ∃ f, s.findFile tar path = some f ∧ (f ≠ none → s.HasFree)) ∧
    ((∃ r, s.openDir tar path = some r ∧ s.Opened (s.findDir tar path) Files.RefersDir r) ↔
      ¬ Files.IsRoot path ∧ ∃ f, s.findDir tar path = some f ∧ (f ≠ none → s.HasFree)) ∧
    ((s.opendir tar dirArray path).isSome ↔
      ¬ Files.IsRoot path ∧ ∃ it, s.findDir tar path = some (some it)) ∧
    ∀ (held : List ℕ) (ops : List OpenOp) (t : OpenSys), OpenSys.InUse ⟨s, held⟩ →
      Along (OpenSys.step tar) (OpenSys.Finds tar) ⟨s, held⟩ ops →
      Visits (OpenSys.step tar) ⟨s, held⟩ ops t → t.held.Nodup :=
  ⟨Files.opened_openS_iff, Files.opened_openDir_iff, Files.opendir_isSome_iff,
    fun _ _ _ huse halong hvisits => (hvisits.invariant halong (fun _ _ _ h hfinds hs => h.step hfinds hs) huse).nodup⟩

/-- A call of `open_s` that comes to an end, with a free descriptor. -/
theorem OpenSys.finds_openS {tar : Tar} {s : OpenSys} {path : List Byte} {r : CInt × Files}
    (hopen : s.files.openS tar path = some r) (hfree : s.files.HasFree) : s.Finds tar (.openS path) := by
  rw [Files.openS_eq] at hopen
  obtain ⟨found, hfound, -⟩ := Option.map_eq_some_iff.mp hopen
  exact ⟨found, hfound, fun _ => hfree⟩

/-- A call of `open_dir` that comes to an end, with a free descriptor. -/
theorem OpenSys.finds_openDir {tar : Tar} {s : OpenSys} {path : List Byte} {r : CInt × Files}
    (hroot : ¬ Files.IsRoot path) (hopen : s.files.openDir tar path = some r) (hfree : s.files.HasFree) :
    s.Finds tar (.openDir path) := by
  rw [Files.openDir_eq hroot] at hopen
  obtain ⟨found, hfound, -⟩ := Option.map_eq_some_iff.mp hopen
  exact ⟨hroot, found, hfound, fun _ => hfree⟩

/-- A new task opens the file `/d/a` and the directory `/d`, and closes the file. -/
theorem open_results_close : ∃ t, run (OpenSys.step (archiveTar sampleAB)) ⟨Files.fresh [47], [0, 1, 2]⟩
      [.openS [47, 100, 47, 97], .openDir [47, 100], .closeS 3] = some t ∧
    t.held = [0, 1, 2, 4] ∧ t.held.Nodup := by
  have hdir : DirOf (archiveTar sampleAB) sampleAB 1 (sampleStart, sampleDir) := openedDir_sampleAB.toDirOf
  have hstop : (archiveTar sampleAB).start.toNat + (entryBytes sampleAB).length ≤
      (archiveTar sampleAB).stop.toNat := by
    have hlength : (entryBytes sampleAB).length = 1536 := length_sampleFiles _
    rw [hlength, archiveTar, imageEnd, hlength]
    decide
  have hpath : pathSanitize (Files.fresh [47]).cwd [47, 100, 47, 97] = some [47, 100, 47, 97] := by decide
  obtain ⟨it, -, -, hfile⟩ := (Files.fresh [47]).openS_found (e := namedEntry [100, 47, 97] 48 (by decide))
    hdir.tarball.lies_entries hstop hpath (isString_strOf (by decide)) rfl
  have hopen : (Files.fresh [47]).openS (archiveTar sampleAB) [47, 100, 47, 97] =
      some (3, ((Files.fresh [47]).openEntry (archiveTar sampleAB).mem it).2) := hfile (by decide)
  generalize hs₁ : ((Files.fresh [47]).openEntry (archiveTar sampleAB).mem it).2 = s₁ at hopen
  have hroot : ¬ Files.IsRoot [47, 100] := fun heq =>
    absurd ((strCompare1_eq_zero (isString_strOf (by decide)) (isString_strOf (by decide)) (by decide)
      (by decide)).mp heq) (by decide)
  have hdirectory : s₁.openDir (archiveTar sampleAB) [47, 100] = some (4, (s₁.openHeader sampleStart).2) := by
    have hcwd : s₁.cwd = [47] := by
      rw [← hs₁]
      rfl
    rw [hdir.openDir_eq hroot (by rw [hcwd]; decide), ← hs₁]
    rfl
  have hclose : ((s₁.openHeader sampleStart).2.closeS 3).isSome := by
    rw [← hs₁]
    rfl
  obtain ⟨r, hr⟩ := Option.isSome_iff_exists.mp hclose
  have hrun : run (OpenSys.step (archiveTar sampleAB)) ⟨Files.fresh [47], [0, 1, 2]⟩
      [.openS [47, 100, 47, 97], .openDir [47, 100], .closeS 3] = some ⟨r.2, [0, 1, 2, 4]⟩ := by
    rw [run_cons, OpenSys.step, hopen, Option.map_some, Option.bind_some, run_cons, OpenSys.step, OpenSys.hold,
      hdirectory, Option.map_some, Option.bind_some, run_cons, OpenSys.step, OpenSys.hold, hr]
    rfl
  have hfinds : Along (OpenSys.step (archiveTar sampleAB)) (OpenSys.Finds (archiveTar sampleAB))
      ⟨Files.fresh [47], [0, 1, 2]⟩ [.openS [47, 100, 47, 97], .openDir [47, 100], .closeS 3] := by
    refine ⟨OpenSys.finds_openS hopen ⟨3, by decide, rfl⟩, fun t ht => ⟨?_, fun _ _ => ?_⟩⟩
    rotate_left
    · exact ⟨trivial, fun _ _ => trivial⟩
    rw [OpenSys.step, hopen] at ht
    obtain rfl := Option.some.inj ht
    exact OpenSys.finds_openDir hroot hdirectory ⟨4, by decide, by rw [← hs₁]; rfl⟩
  obtain ⟨-, -, -, hnodup⟩ := open_results_iff (archiveTar sampleAB) (Files.fresh [47]) [] fun _ => 0
  refine ⟨_, hrun, rfl, hnodup [0, 1, 2] _ _ ⟨by decide, fun fd hfd => ?_⟩ hfinds (visits_of_run hrun)⟩
  simp only [List.mem_cons, List.not_mem_nil, or_false] at hfd
  rcases hfd with rfl | rfl | rfl <;> decide

/-- The task has used up its descriptors. -/
def usedUp : Files := ⟨fun _ => ⟨1, 0, 0, 0, 0⟩, [47]⟩

/-- Out of descriptors, `open_s` returns 0 for the file `/a`, which is the number of a descriptor in use. For
the root, `open_dir` returns 25, and `opendir` leaves its array. -/
theorem open_returns_used : usedUp.openS sampleTar [47, 97] = some (0, usedUp) ∧
    (usedUp.fdArray 0).alloted = 1 ∧
    (¬ ∃ r, usedUp.openS sampleTar [47, 97] = some r ∧
      usedUp.Opened (usedUp.findFile sampleTar [47, 97]) (Files.RefersFile sampleTar.mem) r) ∧
    usedUp.openDir sampleTar [47] = some (25, usedUp) ∧
    ∀ dirArray, usedUp.opendir sampleTar dirArray [47] = none := by
  obtain ⟨it, -, hopen⟩ := usedUp.openS_sample [47, 97] (by decide)
  have hopen : usedUp.openS sampleTar [47, 97] = some (0, usedUp) := hopen
  have hroot : Files.IsRoot [47] :=
    (strCompare1_eq_zero (isString_strOf (s := [47]) (by decide)) (isString_strOf (by decide)) (by decide)
      (by decide)).mpr rfl
  refine ⟨hopen, rfl, ?_, Files.openDir_root hroot, fun dirArray => ?_⟩
  · rintro ⟨r, hr, hopened⟩
    rw [hopen] at hr
    rw [← Option.some.inj hr] at hopened
    exact Files.not_opened (by decide) hopened
  · rw [Files.opendir, Files.openDir_root hroot]
    rfl

end Nascent.Tarfs
