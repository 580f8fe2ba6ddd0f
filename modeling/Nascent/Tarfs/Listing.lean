import Nascent.Tarfs.Directory

/-!
# Listings

The calls of `read_dir` on a descriptor that `open_dir` has returned, for an archive in pre-order. What
they report is what a scan of the entries finds (`OpenedDir.readDirs_eq`): children of the directory, in
the order of the archive, and no child twice. The calls end where the walk through the zero blocks ends
(`listing_sound`).

A child is passed over where its name goes on from the name of the child that was reported last, which
may be a file: `bin/cat2` behind `bin/cat`. The listing is complete where no child's name goes on from the
name of the child before it (`listing_complete`).
-/

namespace Nascent.Tarfs

open Nascent.Bytes (Byte)
open Nascent.Memory Nascent.Strings Nascent.Forests

/-- The header of a directory: the name ends with `/`, the type is `5` and there is no link. -/
structure Entry.IsDirectory (e : Entry) : Prop where
  /-- The name. -/
  last : e.name.getLast? = some slash
  /-- The type. -/
  typeflag : e.info[20]? = some 53
  /-- The link. -/
  linkname : e.info[21]? = some 0

/-- The entries are a forest in pre-order. -/
def InPreorder (es : List Entry) : Prop := ∃ f : Forest Entry, f.entries = es ∧ Named Entry.name slash [] f

/-- A directory of an archive in pre-order. -/
structure DirOf (tar : Tar) (es : List Entry) (zeros : ℕ) (D : Word64 × Entry) : Prop where
  /-- The archive. -/
  tarball : Tarball tar.mem tar.start es zeros
  /-- `_binary_tarfs_end`. -/
  stop : tar.stop = imageEnd tar.start es zeros
  /-- A walk may visit all headers and zero blocks. -/
  fuel : es.length + zeros < tar.fuel
  /-- The entries are in pre-order. -/
  preorder : InPreorder es
  /-- The names are distinct. -/
  nodup : (es.map Entry.name).Nodup
  /-- The directory is one of the entries. -/
  mem : D ∈ located tar.start es
  /-- It is a directory. -/
  directory : D.2.IsDirectory

/-- The directory was opened by `open_dir`. -/
structure OpenedDir (tar : Tar) (es : List Entry) (zeros : ℕ) (D : Word64 × Entry) (s : Files) (fd : ℕ) :
    Prop extends DirOf tar es zeros D where
  /-- There was a path to it. -/
  opened : ∃ (path : List Byte) (s₀ : Files),
    (pathSanitize s₀.cwd path).bind withSlash = some (slash :: D.2.name) ∧
    s₀.openDir tar path = some (BitVec.ofNat 32 fd, s)
  /-- The descriptor is not 0. `open_dir` returns 0 where none is free, and after a `close_s(0)` also for a
  directory it has found. -/
  fd_pos : 0 < fd
  /-- The descriptor is one. -/
  fd_lt : fd < maxFds

/-- The name of an entry with its address. -/
abbrev nameOf (x : Word64 × Entry) : List Byte := x.2.name

/-- The children of a directory. -/
def children (tar : Tar) (es : List Entry) (D : Word64 × Entry) : List (Word64 × Entry) :=
  (located tar.start es).filter fun x => decide (IsChild slash D.2.name (nameOf x))

/-- What is reported of a child: its header, and the part of its path behind the directory. -/
def report (D x : Word64 × Entry) : Option (Word64 × Str) :=
  some (x.1, strOf (component slash D.2.name x.2.name))

/-- The calls of `read_dir` report children, in order and none twice, and then return 1. -/
def Sound (tar : Tar) (es : List Entry) (D : Word64 × Entry) (s : Files) (fd : ℕ) : Prop :=
  ∃ kept : List (Word64 × Entry), kept.Sublist (children tar es D) ∧ kept.Nodup ∧ ∀ n,
    s.readDirs tar fd n = some ((kept.map (report D) ++ List.replicate n none).take n)

/-- The calls of `read_dir` report every child before they return 1. -/
def Complete (tar : Tar) (es : List Entry) (D : Word64 × Entry) (s : Files) (fd : ℕ) : Prop :=
  ∀ x ∈ children tar es D, ∃ n rs, s.readDirs tar fd n = some rs ∧ none ∉ rs ∧ report D x ∈ rs

/-- No child's name goes on from the name of the child before it. -/
def NoPrefix (tar : Tar) (es : List Entry) (D : Word64 × Entry) : Prop :=
  ((children tar es D).map nameOf).IsChain fun a b => ¬ ProperPrefix a b

/-! ## Headers -/

section Headers

variable {m : Mem} {a start stop : Word64} {es pre post : List Entry} {e : Entry} {fuel zeros : ℕ}
  {compare : Str → CInt}

/-- The type in the header of a directory. -/
theorem Entry.IsDirectory.isString_typeflag (h : e.IsDirectory) (hlies : Lies m a e.bytes) :
    IsString (fun i => strAt m a (typeflagOffset + i)) [53] := by
  have hsplit : e.bytes = (e.front ++ octalDigits e.contents.length ++ [e.sizeEnd]) ++
      (e.info ++ (List.replicate 167 0 ++ (e.contents ++ List.replicate e.padding 0))) := by
    simp only [Entry.bytes, Entry.header, List.append_assoc, List.cons_append, List.nil_append]
  have hfront : (e.front ++ octalDigits e.contents.length ++ [e.sizeEnd]).length = 136 := by
    simp [e.length_front]
  have hget : ∀ i b, e.info[i]? = some b → strAt m a (136 + i) = b := by
    intro i b hb
    obtain ⟨hi, -⟩ := List.getElem?_eq_some_iff.mp hb
    have hbyte : e.bytes[136 + i]? = some b := by
      rw [hsplit, List.getElem?_append_right (by omega), hfront, Nat.add_sub_cancel_left,
        List.getElem?_append_left hi, hb]
    obtain ⟨hlt, hbyte⟩ := List.getElem?_eq_some_iff.mp hbyte
    rw [strAt, hlies.get hlt, hbyte]
  refine isString_iff.mpr ⟨fun j hj => ?_, by decide⟩
  have hj : j ≤ 1 := hj
  interval_cases j
  · exact hget 20 53 h.typeflag
  · exact hget 21 0 h.linkname

/-- A walk finds the first entry that matches. -/
theorem lookup_split (h : Lies m a (entryBytes (pre ++ e :: post)))
    (hstop : a.toNat + (entryBytes (pre ++ e :: post)).length ≤ stop.toNat)
    (hpre : ∀ x ∈ pre, ∀ it, Lies m it x.bytes → compare (strAt m it) ≠ 0)
    (he : ∀ it, Lies m it e.bytes → compare (strAt m it) = 0) (hfuel : pre.length < fuel) :
    lookup compare m stop fuel a = some (some (a + BitVec.ofNat 64 (entryBytes pre).length)) := by
  obtain ⟨k, rfl⟩ := Nat.exists_eq_add_of_lt hfuel
  rw [entryBytes_append, List.length_append] at hstop
  rw [entryBytes_append, lies_append, entryBytes_cons, lies_append] at h
  have hlt := stop.isLt
  have hlen := e.length_bytes
  rw [entryLength] at hlen
  have hbelow : a + BitVec.ofNat 64 (entryBytes pre).length < stop := by
    rw [entryBytes_cons, List.length_append] at hstop
    rw [BitVec.lt_def, toNat_add_ofNat (by omega)]
    omega
  rw [Nat.add_assoc, lookup_entries h.1 (by omega) hpre, lookup, if_pos hbelow, if_pos (he _ h.2.1)]

namespace Tarball

variable (h : Tarball m start es zeros)

include h

/-- The entries behind some of them. -/
theorem suffix (hes : es = pre ++ post) :
    Lies m (start + BitVec.ofNat 64 (entryBytes pre).length) (entryBytes post) ∧
      (start + BitVec.ofNat 64 (entryBytes pre).length).toNat + (entryBytes post).length + 512 * zeros =
        (imageEnd start es zeros).toNat := by
  have hend := h.end_lt
  have hlies := h.lies_entries
  rw [hes, entryBytes_append, lies_append] at hlies
  rw [hes, entryBytes_append, List.length_append] at hend
  refine ⟨hlies.2, ?_⟩
  rw [imageEnd, hes, entryBytes_append, List.length_append, toNat_add_ofNat (by omega),
    toNat_add_ofNat (by omega)]
  omega

/-- A walk that finds nothing ends, where the steps through the zero blocks do not wrap around. -/
theorem lookup_none (hends : Ends start es zeros) (hes : es = pre ++ post)
    (ha : a = start + BitVec.ofNat 64 (entryBytes pre).length)
    (hne : ∀ x ∈ post, ∀ it, Lies m it x.bytes → compare (strAt m it) ≠ 0)
    (hzero : ∀ it, Lies m it (List.replicate 512 0) → compare (strAt m it) ≠ 0)
    (hfuel : post.length + zeros < fuel) :
    lookup compare m (imageEnd start es zeros) fuel a = some none := by
  obtain ⟨hlies, hstop⟩ := h.suffix hes
  subst ha
  obtain ⟨k, rfl⟩ := Nat.exists_eq_add_of_lt hfuel
  rw [Nat.add_assoc, Nat.add_assoc, lookup_entries hlies (by omega) hne, add_ofNat_add]
  have hall : (entryBytes pre).length + (entryBytes post).length = (entryBytes es).length := by
    rw [hes, entryBytes_append, List.length_append]
  have hend := h.end_lt
  have hbehind : (start + BitVec.ofNat 64 (entryBytes es).length).toNat =
      start.toNat + (entryBytes es).length := toNat_add_ofNat (by omega)
  rw [hall]
  refine lookup_zeros hzero zeros h.lies_zeros ?_ ?_ (by omega)
  · rw [hbehind, imageEnd, toNat_add_ofNat (by omega)]
    omega
  · rw [hbehind]
    exact hends

/-- An entry with its address. -/
theorem lies_of_mem {x : Word64 × Entry} (hx : x ∈ located start es) : Lies m x.1 x.2.bytes := by
  obtain ⟨xs, ys, hsplit⟩ := List.append_of_mem hx
  obtain ⟨pre, post, hes, ha, -⟩ := exists_of_located_eq hsplit
  have hlies := (h.suffix hes).1
  rw [entryBytes_cons, lies_append, ← ha] at hlies
  exact hlies.1

end Tarball

end Headers

/-! ## Opening -/

/-- A descriptor of the directory `D`, of which `L` was reported last. -/
structure Files.Reading (s : Files) (fd : ℕ) (D L : Word64 × Entry) : Prop where
  /-- The descriptor is in use. -/
  alloted : (s.fdArray fd).alloted = 1
  /-- The directory. -/
  filePtr : (s.fdArray fd).filePtr = D.1
  /-- The last entry. -/
  lastMatchedHeader : (s.fdArray fd).lastMatchedHeader = L.1

/-- The names of entries are short. -/
theorem Entry.length_name_lt (e : Entry) : e.name.length < 2 ^ 64 := by
  have := e.length_name
  omega

/-- A descriptor is not the result of a failure. -/
theorem ofNat_fd_inj {i fd : ℕ} (hi : i < 2 ^ 32) (hfd : fd < maxFds)
    (heq : BitVec.ofNat 32 i = BitVec.ofNat 32 fd) : i = fd := by
  have htoNat := congrArg BitVec.toNat heq
  rw [maxFds] at hfd
  rw [BitVec.toNat_ofNat, BitVec.toNat_ofNat] at htoNat
  omega

/-- A descriptor that was set up on a header. -/
theorem Files.openHeader_reading {s s' : Files} {D : Word64 × Entry} {fd : ℕ} (hpos : 0 < fd)
    (hfd : fd < maxFds) (h : s.openHeader D.1 = (BitVec.ofNat 32 fd, s')) : s'.Reading fd D D := by
  rw [openHeader] at h
  cases hfree : s.getFreeFd D.1 with
  | none =>
    rw [hfree] at h
    have hzero : BitVec.ofNat 32 0 = BitVec.ofNat 32 fd := (Prod.mk.inj h).1
    exact absurd (ofNat_fd_inj (by decide) hfd hzero) hpos.ne
  | some r =>
    obtain ⟨i, hi, rfl⟩ := Option.map_eq_some_iff.mp hfree
    have hi : i < maxFds := List.mem_range.mp (List.mem_of_find?_eq_some hi)
    rw [hfree] at h
    obtain ⟨hcode, hs'⟩ := Prod.mk.inj h
    obtain rfl : i = fd := ofNat_fd_inj (hi.trans (by decide)) hfd hcode
    rw [← hs']
    exact ⟨by simp, by simp, by simp⟩

/-- `open_dir` finds the directory. -/
theorem DirOf.openDir_eq {tar : Tar} {es : List Entry} {zeros : ℕ} {D : Word64 × Entry}
    (h : DirOf tar es zeros D) {s : Files} {path : List Byte}
    (hroot : strCompare (strOf [slash]) (strOf path) ≠ 0)
    (hpath : (pathSanitize s.cwd path).bind withSlash = some (slash :: D.2.name)) :
    s.openDir tar path = some (s.openHeader D.1) := by
  obtain ⟨xs, ys, hsplit⟩ := List.append_of_mem h.mem
  obtain ⟨pre, post, hes, ha, -⟩ := exists_of_located_eq hsplit
  have hnodup := h.nodup
  have hfuel := h.fuel
  rw [hes, List.map_append, List.map_cons, List.nodup_append] at hnodup
  rw [hes, List.length_append] at hfuel
  have hname := isString_strOf D.2.zero_notMem_name
  have hother : ∀ e ∈ pre, ∀ it, Lies tar.mem it e.bytes →
      strCompare1 (strAt tar.mem it) (strOf D.2.name) ≠ 0 := by
    intro e he it hit hcmp
    have heq := (strCompare1_eq_zero (Entry.isString_name hit) hname e.length_name_lt
      D.2.length_name_lt).mp hcmp
    exact hnodup.2.2 _ (List.mem_map_of_mem he) _ (List.mem_cons_self ..) heq
  have hself : ∀ it, Lies tar.mem it D.2.bytes → strCompare1 (strAt tar.mem it) (strOf D.2.name) = 0 :=
    fun it hit => (strCompare1_eq_zero (Entry.isString_name hit) hname D.2.length_name_lt
      D.2.length_name_lt).mpr rfl
  have htype : ∀ it, Lies tar.mem it D.2.bytes →
      strCompare (fun i => strAt tar.mem it (typeflagOffset + i)) (strOf [53]) = 0 :=
    fun it hit => (strCompare1_eq_zero (h.directory.isString_typeflag hit) (isString_strOf (by decide))
      (by decide) (by decide)).mpr rfl
  have hbytes := h.tarball.lies_entries
  obtain ⟨-, hstop⟩ := h.tarball.suffix (List.nil_append es).symm
  rw [← h.stop, entryBytes, List.flatMap_nil, List.length_nil, BitVec.add_zero, hes] at hstop
  rw [hes] at hbytes
  -- Both walks find its header.
  have hfound : ∀ compare : Str → CInt, (∀ e ∈ pre, ∀ it, Lies tar.mem it e.bytes →
      compare (strAt tar.mem it) ≠ 0) → (∀ it, Lies tar.mem it D.2.bytes → compare (strAt tar.mem it) = 0) →
      lookup compare tar.mem tar.stop tar.fuel tar.start = some (some D.1) := by
    intro compare hne heq
    rw [lookup_split hbytes (by omega) hne heq (show pre.length < tar.fuel by omega), ha]
  have hexists := hfound (strCompare1 · (strOf D.2.name)) hother hself
  have hdir := hfound (compareDir (strOf D.2.name))
    (fun e he it hit hcmp => hother e he it hit (ite_eq_zero.mp hcmp).1)
    (fun it hit => ite_eq_zero.mpr ⟨hself it hit, htype it hit⟩)
  rw [Files.openDir, if_neg hroot, hpath, Option.bind_some, List.tail_cons]
  dsimp only
  rw [fileExists, hexists, Option.map_some, Option.bind_some, if_pos rfl, hdir, Option.map_some]

/-- The descriptor that `open_dir` returns. -/
theorem OpenedDir.reading {tar : Tar} {es : List Entry} {zeros fd : ℕ} {D : Word64 × Entry} {s : Files}
    (h : OpenedDir tar es zeros D s fd) : s.Reading fd D D := by
  obtain ⟨path, s₀, hpath, hopen⟩ := h.opened
  by_cases hroot : strCompare (strOf [slash]) (strOf path) = 0
  · rw [Files.openDir, if_pos hroot] at hopen
    have hcode : BitVec.ofNat 32 25 = BitVec.ofNat 32 fd := (Prod.mk.inj (Option.some.inj hopen)).1
    have hfd := h.fd_lt
    rw [← ofNat_fd_inj (by decide) hfd hcode] at hfd
    exact absurd hfd (by decide)
  · rw [h.toDirOf.openDir_eq hroot hpath] at hopen
    exact Files.openHeader_reading h.fd_pos h.fd_lt (Option.some.inj hopen)

/-! ## One call -/

namespace OpenedDir

variable {tar : Tar} {es : List Entry} {zeros fd : ℕ} {D L x : Word64 × Entry} {s s' : Files}
  {xs ys kept : List (Word64 × Entry)} (h : OpenedDir tar es zeros D s' fd)

include h

/-- The names that `read_dir` compares. -/
theorem compareNext_iff (hL : L ∈ located tar.start es) {it : Word64} {e : Entry}
    (he : Lies tar.mem it e.bytes) :
    compareNext (strAt tar.mem D.1) (strAt tar.mem L.1) (strAt tar.mem it) = 0 ↔
      Matches D.2.name L.2.name e.name := by
  exact compareNext_eq_zero (Entry.isString_name (h.tarball.lies_of_mem h.mem))
    (Entry.isString_name (h.tarball.lies_of_mem hL)) (Entry.isString_name he) D.2.length_name_lt
    L.2.length_name_lt e.length_name_lt

/-- A zero block is not reported. -/
theorem compareNext_zero (hL : L ∈ located tar.start es) {it : Word64}
    (hit : Lies tar.mem it (List.replicate 512 0)) :
    compareNext (strAt tar.mem D.1) (strAt tar.mem L.1) (strAt tar.mem it) ≠ 0 := by
  intro hcmp
  have hmatch := (compareNext_eq_zero (Entry.isString_name (h.tarball.lies_of_mem h.mem))
    (Entry.isString_name (h.tarball.lies_of_mem hL)) (isString_zero hit) D.2.length_name_lt
    L.2.length_name_lt (by decide)).mp hcmp
  exact absurd hmatch.1.2 (Nat.not_lt_zero _)

/-- `read_dir` on the descriptor. -/
theorem readDir_eq (hr : s.Reading fd D L) : s.readDir tar fd (fun _ => 0) =
    (lookup (compareNext (strAt tar.mem D.1) (strAt tar.mem L.1)) tar.mem tar.stop tar.fuel L.1).map fun
      | none => (1, fun _ => 0, s)
      | some it => (0, stringSub (strAt tar.mem it) (strAt tar.mem D.1) (fun _ => 0) slash,
          s.modify fd fun x => { x with lastMatchedHeader := it }) := by
  have hfd := h.fd_lt
  have hroot : fd ≠ 25 := by
    rw [maxFds] at hfd
    omega
  have hvalid : s.fileDesValidator fd = 0 := Files.fileDesValidator_eq_zero.mpr ⟨hfd, hr.alloted⟩
  rewrite [Files.readDir, if_neg hroot, hvalid, if_neg (by decide), ← hr.filePtr, ← hr.lastMatchedHeader]
  rfl

/-- A call where the scan has found a child reports it. -/
theorem readDir_cons (hL : located tar.start es = xs ++ L :: ys) (hr : s.Reading fd D L)
    (hscan : scan nameOf D.2.name L.2.name ys = x :: kept) :
    ∃ t zs ws, s.readDir tar fd (fun _ => 0) =
        some (0, strOf (component slash D.2.name x.2.name), t) ∧ t.Reading fd D x ∧
      located tar.start es = zs ++ x :: ws ∧
      scan nameOf D.2.name x.2.name ws = kept := by
  have hmem : L ∈ located tar.start es := by rw [hL]; simp
  obtain ⟨pre, post, hes, ha, -, hys⟩ := exists_of_located_eq hL
  obtain ⟨us, vs, rfl, hus, hx, hvs⟩ := scan_eq_cons hscan
  obtain ⟨pre', post', hpost, hxa, hpre', -⟩ := exists_of_located_eq hys
  have hsplit : located tar.start es = (xs ++ L :: us) ++ x :: vs := by
    rw [hL, List.append_assoc, List.cons_append]
  have hlies := h.tarball.lies_of_mem (x := x) (by rw [hsplit]; simp)
  -- The walk passes over the last entry and those that do not match.
  have hskip : ∀ e ∈ L.2 :: pre', ∀ it, Lies tar.mem it e.bytes →
      compareNext (strAt tar.mem D.1) (strAt tar.mem L.1) (strAt tar.mem it) ≠ 0 := by
    intro e he it hit hcmp
    have hmatch := (h.compareNext_iff hmem hit).mp hcmp
    rcases List.mem_cons.mp he with rfl | he
    · exact hmatch.2.1 rfl
    · have hmap : pre' = us.map Prod.snd := by rw [← hpre', map_snd_located]
      obtain ⟨y, hy, rfl⟩ := List.mem_map.mp (hmap ▸ he)
      exact hus y hy hmatch
  have hfound : lookup (compareNext (strAt tar.mem D.1) (strAt tar.mem L.1)) tar.mem tar.stop tar.fuel
      L.1 = some (some x.1) := by
    obtain ⟨hbytes, hstop⟩ := h.tarball.suffix hes
    have hfuel := h.fuel
    rw [hes, hpost] at hfuel
    simp only [List.length_append, List.length_cons] at hfuel
    rw [hpost, ← List.cons_append, ← ha] at hbytes hstop
    rw [← h.stop] at hstop
    refine (lookup_split hbytes ?_ hskip ?_ ?_).trans ?_
    · omega
    · exact fun it hit => (h.compareNext_iff hmem hit).mpr hx
    · rw [List.length_cons]
      omega
    · rw [hxa, entryBytes_cons, List.length_append, add_ofNat_add]
  have hname := Entry.isString_name hlies
  have hsub : stringSub (strAt tar.mem x.1) (strAt tar.mem D.1) (fun _ => 0) slash =
      strOf (component slash D.2.name x.2.name) :=
    stringSub_eq hname (Entry.isString_name (h.tarball.lies_of_mem h.mem)) hx.1.2.le
      x.2.length_name_lt
  refine ⟨s.modify fd fun y => { y with lastMatchedHeader := x.1 }, xs ++ L :: us, vs, ?_, ?_, hsplit, hvs⟩
  · rw [h.readDir_eq hr, hfound, Option.map_some, ← hsub]
  · have hself : (s.modify fd fun y => { y with lastMatchedHeader := x.1 }).fdArray fd =
        { s.fdArray fd with lastMatchedHeader := x.1 } := Files.modify_fdArray_self
    exact ⟨hself ▸ hr.alloted, hself ▸ hr.filePtr, by rw [hself]⟩

/-- A call where the scan has found nothing more returns 1. -/
theorem readDir_nil (hends : Ends tar.start es zeros) (hL : located tar.start es = xs ++ L :: ys)
    (hr : s.Reading fd D L) (hscan : scan nameOf D.2.name L.2.name ys = []) :
    s.readDir tar fd (fun _ => 0) = some (1, fun _ => 0, s) := by
  have hmem : L ∈ located tar.start es := by rw [hL]; simp
  obtain ⟨pre, post, hes, ha, -, hys⟩ := exists_of_located_eq hL
  have hskip : ∀ e ∈ L.2 :: post, ∀ it, Lies tar.mem it e.bytes →
      compareNext (strAt tar.mem D.1) (strAt tar.mem L.1) (strAt tar.mem it) ≠ 0 := by
    intro e he it hit hcmp
    have hmatch := (h.compareNext_iff hmem hit).mp hcmp
    rcases List.mem_cons.mp he with rfl | he
    · exact hmatch.2.1 rfl
    · have hmap : post = ys.map Prod.snd := by rw [← hys, map_snd_located]
      obtain ⟨y, hy, rfl⟩ := List.mem_map.mp (hmap ▸ he)
      exact scan_eq_nil hscan y hy hmatch
  have hfuel := h.fuel
  rw [hes, List.length_append] at hfuel
  have hnone : lookup (compareNext (strAt tar.mem D.1) (strAt tar.mem L.1)) tar.mem tar.stop tar.fuel
      L.1 = some none := by
    rw [h.stop]
    exact h.tarball.lookup_none hends hes ha hskip (fun it hit => h.compareNext_zero hmem hit) (by omega)
  rw [h.readDir_eq hr, hnone, Option.map_some]

/-! ## All calls -/

/-- The names are distinct. -/
theorem nodup_located : ((located tar.start es).map nameOf).Nodup := by
  have hmap : ((located tar.start es).map Prod.snd).map Entry.name = es.map Entry.name := by
    rw [map_snd_located]
  rw [List.map_map] at hmap
  exact hmap ▸ h.nodup

/-- The forest below the directory: its roots are the children, and what stands behind it in the archive is
scanned as the children are. -/
theorem exists_forest : ∃ xs ys, located tar.start es = xs ++ D :: ys ∧ ∃ sub : Forest (Word64 × Entry),
    Named nameOf slash D.2.name sub ∧ children tar es D = sub.roots ∧
    ∀ L, scan nameOf D.2.name L ys = scan nameOf D.2.name L sub.roots := by
  obtain ⟨f, hf, hnamed⟩ := h.preorder
  have hmap : (located tar.start es).map Prod.snd = f.entries := map_snd_located.trans hf.symm
  obtain ⟨f', hf', hnamed'⟩ := hnamed.lift hmap
  have hnodup : (f'.entries.map nameOf).Nodup := by
    rw [hf']
    exact h.nodup_located
  obtain ⟨pre, sub, post, hsplit, hsub, hnot⟩ :=
    hnamed'.split hnodup (hf' ▸ h.mem) h.directory.last
  rw [hf'] at hsplit
  have hnone : ∀ zs : List (Word64 × Entry), (∀ y ∈ zs, ¬ nameOf D <+: nameOf y) →
      zs.filter (fun x => decide (IsChild slash D.2.name (nameOf x))) = [] := fun zs hzs =>
    List.filter_eq_nil_iff.mpr fun y hy hc => hzs y hy (of_decide_eq_true hc).properPrefix.1
  have hself : ¬ IsChild slash D.2.name (nameOf D) := fun hc => hc.properPrefix.ne rfl
  refine ⟨pre, sub.entries ++ post, hsplit, sub, hsub, ?_, fun L => ?_⟩
  · rw [children, hsplit, List.filter_append, List.filter_cons, if_neg (by simpa using hself),
      List.filter_append, hsub.filter_isChild, hnone pre fun y hy => hnot y (List.mem_append_left _ hy),
      hnone post fun y hy => hnot y (List.mem_append_right _ hy), List.nil_append, List.append_nil]
  · exact hsub.scan_entries fun e he hpre => hnot e (List.mem_append_right _ he) hpre.1

/-- The scan of what stands behind the directory is that of its children. -/
theorem scan_eq : ∃ xs ys, located tar.start es = xs ++ D :: ys ∧
    scan nameOf D.2.name D.2.name ys =
      scan nameOf D.2.name D.2.name (children tar es D) := by
  obtain ⟨xs, ys, hsplit, sub, -, hroots, hscan⟩ := h.exists_forest
  exact ⟨xs, ys, hsplit, by rw [hscan, hroots]⟩

/-- The calls report what the scan finds, one after the other. -/
theorem readDirs_from (n : ℕ) (hL : located tar.start es = xs ++ L :: ys) (hr : s.Reading fd D L)
    (hscan : scan nameOf D.2.name L.2.name ys = kept)
    (hn : Ends tar.start es zeros ∨ n ≤ kept.length) :
    s.readDirs tar fd n = some ((kept.map (report D) ++ List.replicate n none).take n) := by
  induction n generalizing s L xs ys kept with
  | zero => rw [Files.readDirs, List.take_zero]
  | succ n ih =>
    cases kept with
    | nil =>
      have hends := hn.resolve_right (Nat.not_succ_le_zero n)
      rw [Files.readDirs, h.readDir_nil hends hL hr hscan, Option.bind_some]
      dsimp only
      rw [ih hL hr hscan (.inl hends), Option.map_some, if_neg (by decide)]
      simp [List.replicate_succ]
    | cons x kept =>
      obtain ⟨t, zs, ws, hcall, ht, hx, hkept⟩ := h.readDir_cons hL hr hscan
      have hn' := hn.imp_right fun hn => Nat.le_of_succ_le_succ hn
      have htake : (kept.map (report D) ++ List.replicate (n + 1) none).take n =
          (kept.map (report D) ++ List.replicate n none).take n := by
        rw [List.take_append, List.take_append, List.take_replicate, List.take_replicate,
          min_eq_left (by omega), min_eq_left (by omega)]
      rw [Files.readDirs, hcall, Option.bind_some]
      dsimp only
      rw [ih hx ht hkept hn', Option.map_some, if_pos rfl, ht.lastMatchedHeader, List.map_cons,
        List.cons_append, List.take_succ_cons, htake]
      rfl

/-- What the calls report: the children that a scan of the children finds. -/
theorem readDirs_eq (n : ℕ) (hn : Ends tar.start es zeros ∨
      n ≤ (scan nameOf D.2.name D.2.name (children tar es D)).length) :
    s'.readDirs tar fd n = some (((scan nameOf D.2.name D.2.name
      (children tar es D)).map (report D) ++ List.replicate n none).take n) := by
  obtain ⟨xs, ys, hsplit, hscan⟩ := h.scan_eq
  exact h.readDirs_from n hsplit h.reading hscan hn

/-- The children are distinct. -/
theorem nodup_children : (children tar es D).Nodup := h.nodup_located.of_map.filter _

/-- The scan finds all children where no name goes on from the one before it. -/
theorem scan_children_iff : scan nameOf D.2.name D.2.name (children tar es D) = children tar es D ↔
    NoPrefix tar es D := by
  refine scan_eq_self_iff (fun x hx => ?_) ?_
  · exact (of_decide_eq_true (List.mem_filter.mp hx).2).properPrefix
  · exact h.nodup_located.sublist (List.filter_sublist.map nameOf)

/-- An entry is known by its address. -/
theorem eq_of_fst_eq {y : Word64 × Entry} (hx : x ∈ located tar.start es)
    (hy : y ∈ located tar.start es) (heq : x.1 = y.1) : x = y := by
  have hsx := Entry.isString_name (h.tarball.lies_of_mem hx)
  have hsy := Entry.isString_name (h.tarball.lies_of_mem hy)
  rw [← heq] at hsy
  have hself := (strCompare1_eq_zero hsx hsx x.2.length_name_lt x.2.length_name_lt).mpr rfl
  have hname := (strCompare1_eq_zero hsx hsy x.2.length_name_lt y.2.length_name_lt).mp hself
  exact List.inj_on_of_nodup_map h.nodup_located hx hy hname

/-- All children are reported where no name goes on from the one before it. -/
theorem complete_of_noPrefix (hno : NoPrefix tar es D) : Complete tar es D s' fd := by
  intro x hx
  have hscan := h.scan_children_iff.mpr hno
  have hread := h.readDirs_eq (children tar es D).length (.inr (by rw [hscan]))
  have htake : ((children tar es D).map (report D) ++
      List.replicate (children tar es D).length none).take (children tar es D).length =
      (children tar es D).map (report D) := by
    rw [← List.length_map (report D), List.take_left]
  rw [hscan, htake] at hread
  refine ⟨_, _, hread, fun hnone => ?_, List.mem_map_of_mem hx⟩
  obtain ⟨y, -, hy⟩ := List.mem_map.mp hnone
  cases hy

/-- A name that goes on from the one before it is not reported. -/
theorem noPrefix_of_complete (hends : Ends tar.start es zeros) (hall : Complete tar es D s' fd) :
    NoPrefix tar es D := by
  refine h.scan_children_iff.mp ?_
  have hsub : (scan nameOf D.2.name D.2.name (children tar es D)).Sublist (children tar es D) :=
    scan_sublist
  refine hsub.eq_of_length_le (List.subperm_of_subset h.nodup_children fun x hx => ?_).length_le
  -- What is reported of a child is not reported of another.
  obtain ⟨n, rs, hrs, -, hx'⟩ := hall x hx
  rw [h.readDirs_eq n (.inl hends)] at hrs
  rw [← Option.some.inj hrs] at hx'
  rcases List.mem_append.mp (List.mem_of_mem_take hx') with hx' | hx'
  · obtain ⟨y, hy, hreport⟩ := List.mem_map.mp hx'
    have hfst : y.1 = x.1 := by
      rw [report, report, Option.some.injEq] at hreport
      exact (Prod.mk.inj hreport).1
    have hmem : ∀ z ∈ children tar es D, z ∈ located tar.start es := fun z hz => (List.mem_filter.mp hz).1
    rw [← h.eq_of_fst_eq (hmem y (hsub.subset hy)) (hmem x hx) hfst]
    exact hy
  · cases List.eq_of_mem_replicate hx'

end OpenedDir

/-- The calls of `read_dir` report children of the directory in the order of the archive, none twice, and
then return 1 for ever, where the steps through the zero blocks do not wrap around. -/
theorem listing_sound {tar : Tar} {es : List Entry} {zeros fd : ℕ} {D : Word64 × Entry} {s : Files}
    (h : OpenedDir tar es zeros D s fd) (hends : Ends tar.start es zeros) : Sound tar es D s fd :=
  ⟨_, scan_sublist, h.nodup_children.sublist scan_sublist, fun n => h.readDirs_eq n (.inl hends)⟩

/-- The calls of `read_dir` report every child of the directory where no child's name goes on from the name
of the child before it, and only there if the steps through the zero blocks do not wrap around. -/
theorem listing_complete {tar : Tar} {es : List Entry} {zeros fd : ℕ} {D : Word64 × Entry} {s : Files}
    (h : OpenedDir tar es zeros D s fd) :
    (NoPrefix tar es D → Complete tar es D s fd) ∧
      (Ends tar.start es zeros → Complete tar es D s fd → NoPrefix tar es D) :=
  ⟨h.complete_of_noPrefix, h.noPrefix_of_complete⟩

/-! ## A directory with two files -/

theorem length_typeflag (typeflag : Byte) :
    (List.replicate 20 48 ++ typeflag :: List.replicate 188 0).length = 209 := by
  rw [List.length_append, List.length_cons, List.length_replicate, List.length_replicate]

theorem length_owner_digits : (List.replicate 24 (48 : Byte)).length = 24 := List.length_replicate

theorem length_no_contents : ([] : List Byte).length < 2 ^ 31 - 1024 := by
  decide

/-- An entry with a name and a type, and no contents. -/
def namedEntry (name : List Byte) (typeflag : Byte)
    (h : name ≠ [] ∧ (0 : Byte) ∉ name ∧ name.length ≤ 99) : Entry where
  name := name
  owner := List.replicate 24 48
  sizeEnd := 0
  info := List.replicate 20 48 ++ typeflag :: List.replicate 188 0
  contents := []
  name_ne_nil := h.1
  zero_notMem_name := h.2.1
  length_name := h.2.2
  length_owner := length_owner_digits
  length_info := length_typeflag typeflag
  length_contents := length_no_contents

/-- The directory `d/`. -/
def sampleDir : Entry := namedEntry [100, 47] 53 (by decide)

/-- The directory, with a file `d/a` and another one. -/
def sampleFiles (name : List Byte) (h : name ≠ [] ∧ (0 : Byte) ∉ name ∧ name.length ≤ 99) : List Entry :=
  [sampleDir, namedEntry [100, 47, 97] 48 (by decide), namedEntry name 48 h]

/-- The archive of some entries and a block of zeros. -/
def archiveTar (es : List Entry) : Tar where
  mem := place sampleStart (entryBytes es ++ List.replicate (512 * 1) 0)
  start := sampleStart
  stop := imageEnd sampleStart es 1
  fuel := es.length + 2

/-- What lies in a memory as an archive. -/
theorem tarball_of_lies {m : Mem} {es : List Entry}
    (h : Lies m sampleStart (entryBytes es ++ List.replicate (512 * 1) 0))
    (hlen : (entryBytes es).length < 2 ^ 30) : Tarball m sampleStart es 1 := by
  have hstart : sampleStart.toNat = 0xffffffff80700000 := rfl
  rw [lies_append] at h
  exact ⟨h.1, h.2, by omega⟩

theorem length_sampleFiles {name : List Byte} (h : name ≠ [] ∧ (0 : Byte) ∉ name ∧ name.length ≤ 99) :
    (entryBytes (sampleFiles name h)).length = 1536 := by
  simp [sampleFiles, entryBytes, Entry.length_bytes, namedEntry, sampleDir, entryLength]

theorem isDirectory_sampleDir : sampleDir.IsDirectory := ⟨rfl, rfl, rfl⟩

/-- The directory of the archive. -/
theorem dirOf_sample {c : List Byte} (hc : IsComponent slash c)
    (h : [100, 47] ++ c ≠ [] ∧ (0 : Byte) ∉ [100, 47] ++ c ∧ ([100, 47] ++ c).length ≤ 99)
    (hne : c ≠ [97]) :
    DirOf (archiveTar (sampleFiles ([100, 47] ++ c) h)) (sampleFiles ([100, 47] ++ c) h) 1
      (sampleStart, sampleDir) where
  tarball := by
    refine tarball_of_lies (lies_place ?_) (by rw [length_sampleFiles]; decide)
    rw [List.length_append, List.length_replicate, length_sampleFiles]
    decide
  stop := rfl
  fuel := Nat.lt_succ_self _
  preorder := by
    refine ⟨.dir sampleDir (.file _ (.file _ .nil)) .nil, rfl, ⟨[100], ⟨by decide, by decide⟩, rfl⟩, ?_,
      trivial⟩
    exact ⟨⟨[97], ⟨by decide, by decide⟩, rfl⟩, ⟨c, hc, rfl⟩, trivial⟩
  nodup := by
    change [[100, 47], [100, 47, 97], [100, 47] ++ c].Nodup
    simp [hc.1]
    exact Ne.symm hne
  mem := List.mem_cons_self ..
  directory := isDirectory_sampleDir

/-- The path `/d` is that of the directory. -/
theorem openedDir_of_dirOf {tar : Tar} {es : List Entry} {zeros : ℕ} {a : Word64}
    (h : DirOf tar es zeros (a, sampleDir)) :
    OpenedDir tar es zeros (a, sampleDir) ((Files.fresh [47]).openHeader a).2 3 where
  toDirOf := h
  opened := by
    have hpath : (pathSanitize (Files.fresh [47]).cwd [47, 100]).bind withSlash =
        some (slash :: sampleDir.name) := by decide
    have hroot : strCompare (strOf [slash]) (strOf [47, 100]) ≠ 0 := fun heq =>
      absurd ((strCompare1_eq_zero (isString_strOf (by decide)) (isString_strOf (by decide)) (by decide)
        (by decide)).mp heq) (by decide)
    refine ⟨[47, 100], Files.fresh [47], hpath, ?_⟩
    rw [h.openDir_eq hroot hpath]
    rfl
  fd_pos := by decide
  fd_lt := by decide

/-- The archive is small. -/
theorem ends_sampleFiles {name : List Byte} (h : name ≠ [] ∧ (0 : Byte) ∉ name ∧ name.length ≤ 99) :
    Ends sampleStart (sampleFiles name h) 1 := by
  rw [Ends, length_sampleFiles]
  decide

/-- The files `d/a` and `d/b`. -/
def sampleAB : List Entry := sampleFiles [100, 47, 98] (by decide)

/-- The files `d/a` and `d/ab`. -/
def sampleAAB : List Entry := sampleFiles [100, 47, 97, 98] (by decide)

/-- The descriptor of the directory. -/
def sampleFd : Files := ((Files.fresh [47]).openHeader sampleStart).2

theorem openedDir_sampleAB : OpenedDir (archiveTar sampleAB) sampleAB 1 (sampleStart, sampleDir) sampleFd 3 :=
  openedDir_of_dirOf (dirOf_sample (c := [98]) ⟨by decide, by decide⟩ (by decide) (by decide))

theorem openedDir_sampleAAB :
    OpenedDir (archiveTar sampleAAB) sampleAAB 1 (sampleStart, sampleDir) sampleFd 3 :=
  openedDir_of_dirOf (dirOf_sample (c := [97, 98]) ⟨by decide, by decide⟩ (by decide) (by decide))

/-- The listing of `d/a` and `d/b` is sound. -/
theorem listing_sound_ab :
    OpenedDir (archiveTar sampleAB) sampleAB 1 (sampleStart, sampleDir) sampleFd 3 ∧
      Sound (archiveTar sampleAB) sampleAB (sampleStart, sampleDir) sampleFd 3 :=
  ⟨openedDir_sampleAB, listing_sound openedDir_sampleAB (ends_sampleFiles _)⟩

/-- The listing of `d/a` and `d/b` is complete. -/
theorem listing_complete_ab :
    NoPrefix (archiveTar sampleAB) sampleAB (sampleStart, sampleDir) ∧
      Complete (archiveTar sampleAB) sampleAB (sampleStart, sampleDir) sampleFd 3 := by
  have hchildren : (children (archiveTar sampleAB) sampleAB (sampleStart, sampleDir)).map nameOf =
      [[100, 47, 97], [100, 47, 98]] := rfl
  have hno : NoPrefix (archiveTar sampleAB) sampleAB (sampleStart, sampleDir) := by
    rw [NoPrefix, hchildren]
    decide
  exact ⟨hno, (listing_complete openedDir_sampleAB).1 hno⟩

/-- The file `d/ab` behind `d/a` is not reported. -/
theorem file_not_listed : ¬ ∀ (tar : Tar) (es : List Entry) (zeros : ℕ) (D : Word64 × Entry) (s : Files)
    (fd : ℕ), OpenedDir tar es zeros D s fd → Complete tar es D s fd := by
  intro hall
  have hno := openedDir_sampleAAB.noPrefix_of_complete (ends_sampleFiles _)
    (hall _ _ _ _ _ _ openedDir_sampleAAB)
  have hchildren : (children (archiveTar sampleAAB) sampleAAB (sampleStart, sampleDir)).map nameOf =
      [[100, 47, 97], [100, 47, 97, 98]] := rfl
  rw [NoPrefix, hchildren] at hno
  revert hno
  decide

/-! ## A large archive -/

/-- The directory, and a file of 900 MiB. -/
def hugeFiles : List Entry := [sampleDir, sampleEntry 943718400 (by decide)]

theorem length_hugeFiles : (entryBytes hugeFiles).length = 943719424 := by
  rw [hugeFiles, entryBytes_cons, List.length_append, length_sample, Entry.length_bytes]
  rfl

/-- The address where the walk goes on behind the zero block. -/
def strayStart : Word64 := 30710272

/-- The memory with the large archive, and a stray header there. -/
def hugeMem (stray : Entry) : Mem := fun x =>
  if x.toNat < 2 ^ 32 then place strayStart stray.bytes x
  else place sampleStart (entryBytes hugeFiles ++ List.replicate (512 * 1) 0) x

/-- The large archive. -/
def hugeTar (stray : Entry) : Tar := ⟨hugeMem stray, sampleStart, imageEnd sampleStart hugeFiles 1, 4⟩

section Huge

variable {stray : Entry} {compare : Str → CInt}

theorem lies_huge :
    Lies (hugeMem stray) sampleStart (entryBytes hugeFiles ++ List.replicate (512 * 1) 0) := by
  have hlen : (entryBytes hugeFiles ++ List.replicate (512 * 1) (0 : Byte)).length = 943719936 := by
    rw [List.length_append, List.length_replicate, length_hugeFiles]
  refine lies_of_get fun i hi => ?_
  have hstart : sampleStart.toNat = 0xffffffff80700000 := rfl
  have hfar : ¬ (sampleStart + BitVec.ofNat 64 i).toNat < 2 ^ 32 := by
    rw [toNat_add_ofNat (by omega)]
    omega
  rw [hugeMem, if_neg hfar]
  exact (lies_place (by omega)).get hi

theorem lies_stray : Lies (hugeMem stray) strayStart stray.bytes := by
  have hlen : stray.bytes.length < 2 ^ 31 := by
    have hcontents := stray.length_contents
    rw [Entry.length_bytes, entryLength]
    omega
  refine lies_of_get fun i hi => ?_
  have hstart : strayStart.toNat = 30710272 := rfl
  have hnear : (strayStart + BitVec.ofNat 64 i).toNat < 2 ^ 32 := by
    rw [toNat_add_ofNat (by omega)]
    omega
  rw [hugeMem, if_pos hnear]
  exact (lies_place (by omega)).get hi

theorem tarball_huge : Tarball (hugeMem stray) sampleStart hugeFiles 1 :=
  tarball_of_lies lies_huge (by rw [length_hugeFiles]; decide)

/-- A walk that passes over the entries and the zero block finds the stray header. -/
theorem lookup_stray
    (hne : ∀ e ∈ hugeFiles, ∀ it, Lies (hugeMem stray) it e.bytes → compare (strAt (hugeMem stray) it) ≠ 0)
    (hzero : ∀ it, Lies (hugeMem stray) it (List.replicate 512 0) → compare (strAt (hugeMem stray) it) ≠ 0)
    (hstray : compare (strAt (hugeMem stray) strayStart) = 0) :
    lookup compare (hugeMem stray) (hugeTar stray).stop (hugeTar stray).fuel sampleStart =
      some (some strayStart) := by
  have hstop : (hugeTar stray).stop.toNat = 0xffffffff80700000 + 943719936 := by
    rw [hugeTar, imageEnd, length_hugeFiles]
    rfl
  have hzeros : Lies (hugeMem stray) (sampleStart + BitVec.ofNat 64 (entryBytes hugeFiles).length)
      (List.replicate 512 0) := (lies_append.mp lies_huge).2
  have hnext : sampleStart + BitVec.ofNat 64 (entryBytes hugeFiles).length + 1227134464 = strayStart := by
    rw [length_hugeFiles]
    rfl
  have hbehind : sampleStart + BitVec.ofNat 64 (entryBytes hugeFiles).length < (hugeTar stray).stop := by
    rw [BitVec.lt_def, hstop, length_hugeFiles]
    decide
  have hbelow : strayStart < (hugeTar stray).stop := by
    rw [BitVec.lt_def, hstop]
    decide
  have hend : sampleStart.toNat + (entryBytes hugeFiles).length ≤ (hugeTar stray).stop.toNat := by
    rw [hstop, length_hugeFiles]
    decide
  have hfuel : (hugeTar stray).fuel = hugeFiles.length + 2 := rfl
  rw [hfuel, lookup_entries (lies_append.mp lies_huge).1 hend hne, lookup, if_pos hbehind,
    if_neg (hzero _ hzeros), getNextTarHeader_zero hzeros, hnext, lookup, if_pos hbelow, if_pos hstray]

end Huge

/-- The stray header of a file `d/x`. -/
def strayEntry : Entry := namedEntry [100, 47, 120] 48 (by decide)

theorem dirOf_huge : DirOf (hugeTar strayEntry) hugeFiles 1 (sampleStart, sampleDir) where
  tarball := tarball_huge
  stop := rfl
  fuel := by decide
  preorder := ⟨.dir sampleDir .nil (.file _ .nil), rfl, ⟨[100], ⟨by decide, by decide⟩, rfl⟩, trivial,
    ⟨[97], ⟨by decide, by decide⟩, rfl⟩, trivial⟩
  nodup := by
    have hnames : hugeFiles.map Entry.name = [[100, 47], [97]] := rfl
    rw [hnames]
    decide
  mem := List.mem_cons_self ..
  directory := isDirectory_sampleDir

/-- The stray header is reported. -/
theorem stray_listed : ¬ ∀ (tar : Tar) (es : List Entry) (zeros : ℕ) (D : Word64 × Entry) (s : Files)
    (fd : ℕ), OpenedDir tar es zeros D s fd → Sound tar es D s fd := by
  intro hall
  have h : OpenedDir (hugeTar strayEntry) hugeFiles 1 (sampleStart, sampleDir) sampleFd 3 := openedDir_of_dirOf dirOf_huge
  obtain ⟨kept, hsub, -, hread⟩ := hall _ _ _ _ _ _ h
  -- There are no children.
  have hnil : children (hugeTar strayEntry) hugeFiles (sampleStart, sampleDir) = [] := by
    refine List.filter_eq_nil_iff.mpr fun x hx => ?_
    have hx : x.2 ∈ hugeFiles := by
      have hmap : (located sampleStart hugeFiles).map Prod.snd = hugeFiles := map_snd_located
      exact hmap ▸ List.mem_map_of_mem hx
    have hname : nameOf x = [100, 47] ∨ nameOf x = [97] := by
      rcases List.mem_cons.mp hx with hx | hx
      · exact .inl (by rw [nameOf, hx]; rfl)
      · exact .inr (by rw [nameOf, List.mem_singleton.mp hx]; rfl)
    rcases hname with hname | hname <;> rw [hname] <;> decide
  obtain rfl : kept = [] := List.sublist_nil.mp (hnil ▸ hsub)
  have hmem : (sampleStart, sampleDir) ∈ located (hugeTar strayEntry).start hugeFiles := List.mem_cons_self ..
  have hne : ∀ e ∈ hugeFiles, ∀ it, Lies (hugeMem strayEntry) it e.bytes →
      compareNext (strAt (hugeMem strayEntry) sampleStart) (strAt (hugeMem strayEntry) sampleStart) (strAt (hugeMem strayEntry) it) ≠ 0 := by
    intro e he it hit hcmp
    have hmatch : Matches [100, 47] [100, 47] e.name := (h.compareNext_iff hmem hit).mp hcmp
    rcases List.mem_cons.mp he with rfl | he
    · exact hmatch.2.1 rfl
    · rw [List.mem_singleton.mp he] at hmatch
      exact absurd hmatch.1.2 (by decide)
  have hcmp : compareNext (strAt (hugeMem strayEntry) sampleStart) (strAt (hugeMem strayEntry) sampleStart)
      (strAt (hugeMem strayEntry) strayStart) = 0 := (h.compareNext_iff hmem lies_stray).mpr (by decide)
  have hfound := lookup_stray hne (fun it hit => h.compareNext_zero hmem hit) hcmp
  obtain ⟨buffer, t, hcall⟩ : ∃ buffer t, sampleFd.readDir (hugeTar strayEntry) 3 (fun _ => 0) = some (0, buffer, t) :=
    ⟨_, _, (h.readDir_eq h.reading).trans (congrArg (Option.map _) hfound)⟩
  have hfirst := hread 1
  rw [Files.readDirs, hcall, Option.bind_some] at hfirst
  dsimp only at hfirst
  rw [Files.readDirs, Option.map_some, if_pos rfl] at hfirst
  cases (List.cons.inj (Option.some.inj hfirst)).1


end Nascent.Tarfs
