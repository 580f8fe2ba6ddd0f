import Nascent.Tarfs.Files
import Nascent.Lib.Forest

/-!
# Directories

`open_dir` and `read_dir` of `src/sys/tarfs.c`, with `is_sub_string` and `string_sub` of
`src/sys/strings.c`. A descriptor of a directory has the header of the directory and the header of the
entry that was reported last. `read_dir` goes on from there to the next name that goes on from the name of
the directory, but not from the name that was reported last.

A walk from a header on is a search of the entries with their addresses (`lookup_located`). Behind the
entries it goes from zero block to zero block, 1227134464 bytes each time, and ends where these steps do
not wrap around (`Archive.lookup_zeros`).
-/

namespace Nascent.Tarfs

open Nascent.Bytes (Byte)
open Nascent.Memory Nascent.Strings Nascent.Forests

/-! ## Strings -/

/-- `is_sub_string`: 0 where the second string goes on from the first. Its loop is that of
`str_compare1`. -/
def isSubString (s1 s2 : Str) : CInt :=
  if len s1 ≥ len s2 then 1 else strCompareLoop s1 s2 (2 ^ 64) 0

/-- The loop of `string_sub`, from the byte `i` of the string and the byte `j` of the buffer on. -/
def stringSubLoop (mainStr : Str) (delimiter : Byte) : ℕ → ℕ → ℕ → Str → Str
  | 0, _, _, buffer => buffer
  | fuel + 1, i, j, buffer =>
    if mainStr i = 0 then buffer
    else if mainStr i = delimiter then buffer
    else stringSubLoop mainStr delimiter fuel (i + 1) (j + 1) (Function.update buffer j (mainStr i))

/-- `string_sub`: the buffer with what a string has behind the length of another, up to a delimiter. -/
def stringSub (mainStr sub buffer : Str) (delimiter : Byte) : Str :=
  stringSubLoop mainStr delimiter (2 ^ 64) (len sub) 0 buffer

/-! ## Calls -/

/-- The lines of `open_dir` and `set_cwd` that put a `/` behind a path, or nothing where they leave the
buffer. The second `len` already counts the `/`. -/
def withSlash (buff : List Byte) : Option (List Byte) :=
  buff.getLast?.bind fun c =>
    if c = slash then some buff
    else if buff.length + 2 < pathSize then some (buff ++ [slash]) else none

/-- The offset of the type in a header. -/
def typeflagOffset : ℕ := 156

/-- The test of `open_dir`: 0 for the header of a directory with the name. -/
def compareDir (dPath header : Str) : CInt :=
  if strCompare header dPath = 0 ∧ strCompare (fun i => header (typeflagOffset + i)) (strOf [53]) = 0
  then 0 else 1

/-- The test of `read_dir`: 0 for the header to report. -/
def compareNext (dirName lastMatchedName name : Str) : CInt :=
  if isSubString dirName name = 0 ∧ strCompare1 lastMatchedName name ≠ 0 ∧
    (strCompare1 dirName lastMatchedName = 0 ∨ isSubString lastMatchedName name ≠ 0)
  then 0 else 1

namespace Files

variable (s : Files)

/-- The part of `open_dir` that has found a header: out of descriptors, it returns 0. -/
def openHeader (it : Word64) : CInt × Files :=
  match s.getFreeFd it with
  | none => (0, s)
  | some (fd, s) => (BitVec.ofNat 32 fd, s.modify fd fun x => { x with lastMatchedHeader := it })

/-- `open_dir`: what it returns and the files after it, or nothing where the path leaves its buffer or
the walk does not end. -/
def openDir (tar : Tar) (dPath1 : List Byte) : Option (CInt × Files) :=
  if strCompare (strOf [slash]) (strOf dPath1) = 0 then some (25, s)
  else ((pathSanitize s.cwd dPath1).bind withSlash).bind fun dPath2 =>
    let dPath := strOf dPath2.tail
    (fileExists tar.mem tar.start tar.stop tar.fuel dPath).bind fun exists? =>
      if exists? = 1 then
        (lookup (compareDir dPath) tar.mem tar.stop tar.fuel tar.start).map fun
          | none => (-1, s)
          | some it => s.openHeader it
      else some (-1, s)

/-- `read_dir`: what it returns, the buffer and the files after it, or nothing where the walk does not
end. -/
def readDir (tar : Tar) (fd : ℕ) (buffer : Str) : Option (CInt × Str × Files) :=
  if fd = 25 then some (1, buffer, s)
  else if s.fileDesValidator fd = 1 then some (1, buffer, s)
  else
    let x := s.fdArray fd
    let dirName := strAt tar.mem x.filePtr
    let lastMatchedName := strAt tar.mem x.lastMatchedHeader
    (lookup (compareNext dirName lastMatchedName) tar.mem tar.stop tar.fuel x.lastMatchedHeader).map fun
      | none => (1, buffer, s)
      | some it => (0, stringSub (strAt tar.mem it) dirName buffer slash,
          s.modify fd fun x => { x with lastMatchedHeader := it })

/-- Calls of `read_dir` one after the other, each with a zeroed buffer: for each of them the header that
it has reported and the buffer, or nothing where it has returned 1. -/
def readDirs (tar : Tar) (fd : ℕ) : ℕ → Files → Option (List (Option (Word64 × Str)))
  | 0, _ => some []
  | n + 1, s => (s.readDir tar fd fun _ => 0).bind fun (code, buffer, s) =>
      (readDirs tar fd n s).map fun rs =>
        (if code = 0 then some ((s.fdArray fd).lastMatchedHeader, buffer) else none) :: rs

end Files

/-! ## What the tests compare -/

section Strings

variable {p q r : Str} {s t u : List Byte}

/-- The loop of `str_compare1` tells whether what is left of a string is a prefix. -/
theorem strCompareLoop_prefix (hs : IsString p s) (ht : IsString q t) (hlen : s.length ≤ t.length) :
    ∀ (fuel i : ℕ), i ≤ s.length → s.length < i + fuel →
    strCompareLoop p q fuel i = if s.drop i <+: t.drop i then 0 else 1
  | 0, i, hi, hfuel => by omega
  | fuel + 1, i, hi, hfuel => by
    rw [strCompareLoop]
    rcases hi.lt_or_eq with hlt | rfl
    · have hlt' : i < t.length := hlt.trans_le hlen
      rw [if_neg (hs.get_ne hlt), hs.get i hlt, ht.get i hlt', List.drop_eq_getElem_cons hlt,
        List.drop_eq_getElem_cons hlt', strCompareLoop_prefix hs ht hlen fuel (i + 1) hlt (by omega)]
      by_cases heq : s[i] = t[i]
      · rw [if_neg (not_not_intro heq), heq]
        simp only [List.cons_prefix_cons, true_and]
      · rw [if_pos heq, if_neg fun h => heq (List.cons_prefix_cons.mp h).1]
    · rw [if_pos hs.get_end, List.drop_length, if_pos List.nil_prefix]

/-- `is_sub_string` is 0 where the second string goes on from the first. -/
theorem isSubString_eq_zero (hs : IsString p s) (ht : IsString q t) (hsl : s.length < 2 ^ 64)
    (htl : t.length < 2 ^ 64) : isSubString p q = 0 ↔ ProperPrefix s t := by
  rw [isSubString, len_eq hs hsl, len_eq ht htl, ProperPrefix]
  by_cases hlen : s.length ≥ t.length
  · rw [if_pos hlen]
    exact iff_of_false (by decide) fun h => Nat.not_le.mpr h.2 hlen
  · rw [if_neg hlen, strCompareLoop_prefix hs ht (by omega) _ 0 (Nat.zero_le _) (by simpa using hsl),
      List.drop_zero, List.drop_zero]
    have hlt : s.length < t.length := Nat.not_le.mp hlen
    split_ifs with h <;> simp [h, hlt]

/-- The loop of `string_sub` copies up to the delimiter. -/
theorem stringSubLoop_eq (delimiter : Byte) (hs : IsString p s) : ∀ (fuel i : ℕ) (c : List Byte),
    i ≤ s.length → s.length < i + fuel →
    stringSubLoop p delimiter fuel i c.length (strOf c) =
      strOf (c ++ (s.drop i).takeWhile fun x => decide (x ≠ delimiter))
  | 0, i, c, hi, hfuel => by omega
  | fuel + 1, i, c, hi, hfuel => by
    rw [stringSubLoop]
    rcases hi.lt_or_eq with hlt | rfl
    · rw [if_neg (hs.get_ne hlt), hs.get i hlt, List.drop_eq_getElem_cons hlt, List.takeWhile_cons]
      by_cases hd : s[i] = delimiter
      · rw [if_pos hd, if_neg (by simpa using hd), List.append_nil]
      · have hnext := stringSubLoop_eq delimiter hs fuel (i + 1) (c ++ [s[i]]) hlt (by omega)
        rw [List.length_append, List.length_singleton] at hnext
        rw [if_neg hd, if_pos (by simpa using hd), update_strOf, hnext, List.append_assoc,
          List.singleton_append]
    · rw [if_pos hs.get_end, List.drop_length, List.takeWhile_nil, List.append_nil]

/-- `string_sub` gives the part of a path behind the name of a directory. -/
theorem stringSub_eq {delimiter : Byte} (hs : IsString p s) (ht : IsString q t) (hlen : t.length ≤ s.length)
    (hsl : s.length < 2 ^ 64) :
    stringSub p q (fun _ => 0) delimiter = strOf (component delimiter t s) := by
  have hloop := stringSubLoop_eq delimiter hs (2 ^ 64) t.length [] hlen (by omega)
  rw [stringSub, len_eq ht (by omega)]
  exact hloop

/-- A test as an integer. -/
theorem ite_eq_zero {P : Prop} [Decidable P] : (if P then (0 : CInt) else 1) = 0 ↔ P := by
  split_ifs with h
  · exact iff_of_true rfl h
  · exact iff_of_false (by decide) h

/-- The test of `read_dir` is that of a scan. -/
theorem compareNext_eq_zero (hs : IsString p s) (ht : IsString q t) (hu : IsString r u)
    (hsl : s.length < 2 ^ 64) (htl : t.length < 2 ^ 64) (hul : u.length < 2 ^ 64) :
    compareNext p q r = 0 ↔ Matches s t u := by
  rw [compareNext, ite_eq_zero, Matches, isSubString_eq_zero hs hu hsl hul, ne_eq, ne_eq,
    isSubString_eq_zero ht hu htl hul, strCompare1_eq_zero ht hu htl hul,
    strCompare1_eq_zero hs ht hsl htl]

end Strings

/-! ## Walks -/

/-- The entries with the addresses of their headers. -/
def located : Word64 → List Entry → List (Word64 × Entry)
  | _, [] => []
  | a, e :: es => (a, e) :: located (a + BitVec.ofNat 64 e.bytes.length) es

section Walk

variable {m : Mem} {a b start stop : Word64} {es pre post : List Entry} {e x : Entry} {fuel zeros : ℕ}
  {compare : Str → CInt}

@[simp] theorem map_snd_located : ∀ {a : Word64} {es : List Entry}, (located a es).map Prod.snd = es
  | _, [] => rfl
  | _, e :: es => by rw [located, List.map_cons, map_snd_located]

/-- The entries behind others. -/
theorem located_append : ∀ {a : Word64} {es es' : List Entry}, located a (es ++ es') =
    located a es ++ located (a + BitVec.ofNat 64 (entryBytes es).length) es'
  | a, [], es' => by simp [located, entryBytes]
  | a, e :: es, es' => by
    rw [List.cons_append, located, located_append, located, List.cons_append, add_ofNat_add,
      entryBytes_cons, List.length_append]

/-- A part of the list is a part of the archive. -/
theorem exists_of_located_eq {xs ys : List (Word64 × Entry)} (h : located start es = xs ++ (a, e) :: ys) :
    ∃ pre post, es = pre ++ e :: post ∧ a = start + BitVec.ofNat 64 (entryBytes pre).length ∧
      located start pre = xs ∧ located (a + BitVec.ofNat 64 e.bytes.length) post = ys := by
  have hes : es = xs.map Prod.snd ++ e :: ys.map Prod.snd := by
    have hmap : (located start es).map Prod.snd = es := map_snd_located
    rw [← hmap, h, List.map_append, List.map_cons]
  have hlen : (located start (xs.map Prod.snd)).length = xs.length := by
    rw [← List.length_map Prod.snd, map_snd_located, List.length_map]
  rw [hes, located_append, located] at h
  obtain ⟨hpre, hpost⟩ := List.append_inj h hlen
  obtain ⟨hhead, hrest⟩ := List.cons.inj hpost
  have ha : start + BitVec.ofNat 64 (entryBytes (xs.map Prod.snd)).length = a := congrArg Prod.fst hhead
  rw [ha] at hrest
  exact ⟨_, _, hes, ha.symm, hpre, hrest⟩

/-- An archive: the memory holds the entries and then blocks of zeros from `start` on, and ends within the
address space. -/
structure Tarball (m : Mem) (start : Word64) (es : List Entry) (zeros : ℕ) : Prop where
  /-- The entries. -/
  lies_entries : Lies m start (entryBytes es)
  /-- The blocks of zeros. -/
  lies_zeros : Lies m (start + BitVec.ofNat 64 (entryBytes es).length)
    (List.replicate (512 * zeros) 0)
  /-- The archive ends within the address space. -/
  end_lt : start.toNat + (entryBytes es).length + 512 * zeros < 2 ^ 64

/-- The steps of 1227134464 bytes through the zero blocks do not wrap around. -/
def Ends (start : Word64) (es : List Entry) (zeros : ℕ) : Prop :=
  start.toNat + (entryBytes es).length + (zeros + 2396746) / 2396747 * 1227134464 < 2 ^ 64

/-- The zeros behind some of them. -/
theorem lies_replicate_drop {n k : ℕ} (h : Lies m a (List.replicate n 0)) (hk : k ≤ n) :
    Lies m (a + BitVec.ofNat 64 k) (List.replicate (n - k) 0) := by
  have hsplit : List.replicate n (0 : Byte) = List.replicate k 0 ++ List.replicate (n - k) 0 := by
    rw [List.replicate_append_replicate, Nat.add_sub_cancel' hk]
  rw [hsplit, lies_append, List.length_replicate] at h
  exact h.2

/-- A walk that passes over the zero blocks ends. -/
theorem lookup_zeros (hcmp : ∀ it, Lies m it (List.replicate 512 0) → compare (strAt m it) ≠ 0) :
    ∀ (zeros : ℕ) {a : Word64} {fuel : ℕ}, Lies m a (List.replicate (512 * zeros) 0) →
    a.toNat + 512 * zeros = stop.toNat →
    a.toNat + (zeros + 2396746) / 2396747 * 1227134464 < 2 ^ 64 → zeros < fuel →
    lookup compare m stop fuel a = some none := by
  intro zeros
  induction zeros using Nat.strongRecOn with
  | ind zeros ih =>
    intro a fuel hlies hstop hends hfuel
    obtain ⟨fuel, rfl⟩ := Nat.exists_eq_add_of_lt hfuel
    rw [lookup]
    by_cases h0 : zeros = 0
    · have hnot : ¬ a < stop := by
        rw [BitVec.lt_def]
        omega
      rw [if_neg hnot]
    · have hlt : a < stop := by
        rw [BitVec.lt_def]
        omega
      have hblock : Lies m a (List.replicate 512 0) := by
        rw [show 512 * zeros = 512 + 512 * (zeros - 1) by omega, ← List.replicate_append_replicate,
          lies_append] at hlies
        exact hlies.1
      have hnext : (a + 1227134464).toNat = a.toNat + 1227134464 := by
        rw [BitVec.toNat_add, show (1227134464 : Word64).toNat = 1227134464 from rfl]
        omega
      rw [if_pos hlt, if_neg (hcmp a hblock), getNextTarHeader_zero hblock]
      by_cases hmore : 2396747 ≤ zeros
      · -- There is another zero block.
        obtain ⟨z, hz⟩ := Nat.exists_eq_add_of_le hmore
        obtain ⟨k, hk⟩ : ∃ k, k = 1227134464 := ⟨_, rfl⟩
        have hstep : (1227134464 : Word64) = BitVec.ofNat 64 k := by
          rw [hk]
          rfl
        have hrest : 512 * z = 512 * zeros - k := by omega
        refine ih z (by omega) ?_ (by omega) (by omega) (by omega)
        rw [hstep, hrest]
        exact lies_replicate_drop hlies (by omega)
      · have hnot : ¬ a + 1227134464 < stop := by
          rw [BitVec.lt_def, hnext]
          omega
        obtain ⟨k, hk⟩ : ∃ k, zeros + fuel = k + 1 := ⟨zeros + fuel - 1, by omega⟩
        rw [hk, lookup, if_neg hnot]

end Walk

end Nascent.Tarfs
