import Nascent.Tarfs.Model
import Mathlib.Tactic.IntervalCases

/-!
# What the walk finds in an archive

An archive is a list of entries, each with a header of 512 bytes and its contents padded to a multiple
of 512, followed by blocks of zeros. `Entry` carries the conditions that the format puts on a header.
The walk goes from header to header (`getNextTarHeader_entry`), since the octal digits of a size are
decoded to the size. A block of zeros is no size: the eleven zero bytes are decoded to 1227133520, and
the walk goes on 1227134464 bytes behind the block. This is behind the end of every image of less than
2^30 bytes, but the sum of 64 bits may wrap around.
-/

namespace Nascent.Tarfs

open Nascent.Bytes (Byte)
open Nascent.Memory Nascent.Strings

variable {m : Mem} {a b : Word64} {s t : List Byte}

/-! ## Strings -/

section Strings

variable {p q : Str}

theorem lenLoop_eq (h : IsString p s) : ∀ (fuel i : ℕ), i ≤ s.length → s.length < i + fuel →
    lenLoop p fuel i = s.length
  | 0, i, hi, hfuel => by omega
  | fuel + 1, i, hi, hfuel => by
    rw [lenLoop]
    rcases hi.lt_or_eq with hlt | rfl
    · rw [if_neg (h.get_ne hlt)]
      exact lenLoop_eq h fuel (i + 1) hlt (by omega)
    · rw [if_pos h.get_end]

/-- `len` is the length of the string. -/
theorem len_eq (h : IsString p s) (hlt : s.length < 2 ^ 64) : len p = s.length :=
  lenLoop_eq h _ 0 (Nat.zero_le _) (by simpa using hlt)

/-- The loop of `str_compare1` compares what is left of two strings. -/
theorem strCompareLoop_eq (hs : IsString p s) (ht : IsString q t) (hlen : s.length = t.length) :
    ∀ (fuel i : ℕ), i ≤ s.length → s.length < i + fuel →
    strCompareLoop p q fuel i = if s.drop i = t.drop i then 0 else 1
  | 0, i, hi, hfuel => by omega
  | fuel + 1, i, hi, hfuel => by
    rw [strCompareLoop]
    rcases hi.lt_or_eq with hlt | rfl
    · have hlt' : i < t.length := hlen ▸ hlt
      rw [if_neg (hs.get_ne hlt), hs.get i hlt, ht.get i hlt', List.drop_eq_getElem_cons hlt,
        List.drop_eq_getElem_cons hlt', strCompareLoop_eq hs ht hlen fuel (i + 1) hlt (by omega)]
      by_cases heq : s[i] = t[i]
      · rw [if_neg (not_not_intro heq), heq]
        simp only [List.cons.injEq, true_and]
      · rw [if_pos heq, if_neg fun h => heq (List.cons.inj h).1]
    · rw [if_pos hs.get_end, List.drop_length, hlen, List.drop_length, if_pos rfl]

/-- `str_compare1` is 0 on equal strings only. -/
theorem strCompare1_eq_zero (hs : IsString p s) (ht : IsString q t) (hsl : s.length < 2 ^ 64)
    (htl : t.length < 2 ^ 64) : strCompare1 p q = 0 ↔ s = t := by
  rw [strCompare1, len_eq hs hsl, len_eq ht htl]
  by_cases hlen : s.length = t.length
  · rw [if_neg (not_not_intro hlen), strCompareLoop_eq hs ht hlen _ 0 (Nat.zero_le _)
      (by simpa using hsl), List.drop_zero, List.drop_zero]
    split_ifs with h <;> simp [h]
  · rw [if_pos hlen]
    exact iff_of_false (by decide) fun h => hlen (congrArg List.length h)

end Strings

/-! ## Sizes -/

/-- The digit of a number at the place `k`, in octal and as a character. -/
def octalDigit (n k : ℕ) : Byte := BitVec.ofNat 8 (48 + n / 8 ^ k % 8)

/-- A digit of an octal number as `convert_oct_int` reads it. -/
theorem signExtend_octalDigit (n k : ℕ) :
    (octalDigit n k).signExtend 32 - 48 = BitVec.ofNat 32 (n / 8 ^ k % 8) := by
  rw [octalDigit]
  have hlt : n / 8 ^ k % 8 < 8 := Nat.mod_lt _ (by decide)
  generalize n / 8 ^ k % 8 = d at hlt ⊢
  interval_cases d <;> rfl

/-- The loop of `convert_oct_int` adds one digit after the other: the number it has after the places
below `10 - i` is the number modulo `8 ^ (10 - i)`. -/
theorem convertOctIntLoop_eq {digit : ℕ → Byte} {n : ℕ}
    (h : ∀ i ≤ 10, digit i = octalDigit n (10 - i)) : ∀ i ≤ 10,
    convertOctIntLoop digit i (BitVec.ofNat 32 (n % 8 ^ (10 - i))) (BitVec.ofNat 32 (8 ^ (10 - i))) =
      BitVec.ofNat 32 (n % 8 ^ 11)
  | 0, _ => by
    rw [convertOctIntLoop, h 0 (by omega), signExtend_octalDigit, ← BitVec.ofNat_mul,
      ← BitVec.ofNat_add, Nat.mod_pow_succ (k := 10), Nat.mul_comm (8 ^ 10)]
  | i + 1, hi => by
    have hk : 10 - i = 10 - (i + 1) + 1 := by omega
    have ih := convertOctIntLoop_eq h i (by omega)
    rw [hk, Nat.mod_pow_succ, pow_succ, Nat.mul_comm (8 ^ _) (_ / _ % 8)] at ih
    rw [convertOctIntLoop, h (i + 1) hi, signExtend_octalDigit, ← BitVec.ofNat_mul,
      ← BitVec.ofNat_add]
    rw [BitVec.ofNat_mul (y := 8)] at ih
    exact ih

/-- The loop of `convert_oct_int` only reads the digits below. -/
theorem convertOctIntLoop_congr {d d' : ℕ → Byte} : ∀ {i : ℕ} (_ : ∀ k ≤ i, d k = d' k) (z f : CInt),
    convertOctIntLoop d i z f = convertOctIntLoop d' i z f
  | 0, h, z, f => by rw [convertOctIntLoop, convertOctIntLoop, h 0 le_rfl]
  | i + 1, h, z, f => by
    rw [convertOctIntLoop, convertOctIntLoop, h (i + 1) le_rfl]
    exact convertOctIntLoop_congr (fun k hk => h k (Nat.le_succ_of_le hk)) _ _

/-- The eleven octal digits of a number. -/
def octalDigits (n : ℕ) : List Byte := (List.range 11).map fun i => octalDigit n (10 - i)

@[simp] theorem length_octalDigits (n : ℕ) : (octalDigits n).length = 11 := by
  rw [octalDigits, List.length_map, List.length_range]

/-- `convert_oct_int` decodes the digits of a number that fits an `int`. -/
theorem convertOctInt_octalDigits {n : ℕ} (h : Lies m a (octalDigits n)) (hn : n < 2 ^ 31) :
    convertOctInt m a = BitVec.ofNat 32 n := by
  have hdigit : ∀ i ≤ 10, m (a + BitVec.ofNat 64 i) = octalDigit n (10 - i) := by
    intro i hi
    rw [h.get (show i < (octalDigits n).length by simpa using Nat.lt_succ_of_le hi)]
    simp [octalDigits]
  have hloop := convertOctIntLoop_eq hdigit 10 le_rfl
  rw [Nat.mod_eq_of_lt (show n < 8 ^ 11 by omega), Nat.sub_self, pow_zero, Nat.mod_one] at hloop
  exact hloop

/-- The number that `convert_oct_int` finds in eleven zero bytes. -/
theorem convertOctInt_zero (h : Lies m a (List.replicate 11 0)) :
    convertOctInt m a = 1227133520 := by
  have hdigit : ∀ i ≤ 10, m (a + BitVec.ofNat 64 i) = 0 := by
    intro i hi
    rw [h.get (show i < (List.replicate 11 (0 : Byte)).length by simpa using Nat.lt_succ_of_le hi)]
    exact List.getElem_replicate _
  have hloop : convertOctInt m a = convertOctIntLoop (fun _ => 0) 10 0 1 :=
    convertOctIntLoop_congr hdigit 0 1
  rw [hloop]
  decide

/-- The distance from the header of a file of `n` bytes to the next one. -/
def entryLength (n : ℕ) : ℕ := 512 + (n + 511) / 512 * 512

/-- An `int` that is not negative becomes the same number in 64 bits. -/
theorem signExtend_ofNat {n : ℕ} (hn : n < 2 ^ 31) :
    (BitVec.ofNat 32 n).signExtend 64 = BitVec.ofNat 64 n := by
  rw [BitVec.signExtend_eq_setWidth_of_msb_false]
  · apply BitVec.eq_of_toNat_eq
    simp only [BitVec.toNat_setWidth, BitVec.toNat_ofNat]
    omega
  · rw [BitVec.msb_eq_false_iff_two_mul_lt, BitVec.toNat_ofNat]
    omega

/-- `get_next_tar_header` computes the distance to the next header. -/
theorem blockLength_ofNat {n : ℕ} (hn : n < 2 ^ 31 - 1024) :
    (blockLength (BitVec.ofNat 32 n)).signExtend 64 = BitVec.ofNat 64 (entryLength n) := by
  have h512 : (512 : CInt).toNat = 512 := rfl
  have h1 : (1 : CInt).toNat = 1 := rfl
  have h2 : (2 : CInt).toNat = 2 := rfl
  have hmsb : (BitVec.ofNat 32 n).msb = false := by
    rw [BitVec.msb_eq_false_iff_two_mul_lt, BitVec.toNat_ofNat]
    omega
  have hdiv : (BitVec.ofNat 32 n).sdiv 512 = BitVec.ofNat 32 (n / 512) := by
    rw [BitVec.sdiv_eq, hmsb, show (512 : CInt).msb = false from rfl]
    apply BitVec.eq_of_toNat_eq
    simp only [BitVec.udiv_eq, BitVec.toNat_udiv, BitVec.toNat_ofNat, h512]
    omega
  have hrem : (BitVec.ofNat 32 n).srem 512 = BitVec.ofNat 32 (n % 512) := by
    rw [BitVec.srem_eq, hmsb, show (512 : CInt).msb = false from rfl]
    apply BitVec.eq_of_toNat_eq
    simp only [BitVec.toNat_umod, BitVec.toNat_ofNat, h512]
    omega
  have hblock : blockLength (BitVec.ofNat 32 n) = BitVec.ofNat 32 (entryLength n) := by
    rw [blockLength, hdiv, hrem, entryLength]
    split_ifs with h0
    · have h0 : n % 512 % 2 ^ 32 = 0 := by simpa using congrArg BitVec.toNat h0
      apply BitVec.eq_of_toNat_eq
      simp only [BitVec.toNat_mul, BitVec.toNat_add, BitVec.toNat_ofNat, h512, h1]
      omega
    · have h0 : n % 512 ≠ 0 := fun h => h0 (by rw [h]; rfl)
      apply BitVec.eq_of_toNat_eq
      simp only [BitVec.toNat_mul, BitVec.toNat_add, BitVec.toNat_ofNat, h512, h2]
      omega
  have hlt : entryLength n < 2 ^ 31 := by
    rw [entryLength]
    omega
  rw [hblock, signExtend_ofNat hlt]

/-! ## Entries -/

/-- A file of an archive, with what its header says of it. -/
structure Entry where
  /-- The name. -/
  name : List Byte
  /-- The mode and the two owners. -/
  owner : List Byte
  /-- The byte behind the digits of the size. -/
  sizeEnd : Byte
  /-- The fields behind the size, up to the prefix. -/
  info : List Byte
  /-- The contents. -/
  contents : List Byte
  /-- The name is not empty. -/
  name_ne_nil : name ≠ []
  /-- The name is a string. -/
  zero_notMem_name : (0 : Byte) ∉ name
  /-- The name ends within its field. -/
  length_name : name.length ≤ 99
  /-- The lengths of the mode and the owners. -/
  length_owner : owner.length = 24
  /-- The lengths of the fields behind the size. -/
  length_info : info.length = 209
  /-- The size, and the rounding of it, fit an `int`. -/
  length_contents : contents.length < 2 ^ 31 - 1024

namespace Entry

variable (e : Entry)

/-- The name field and those behind it, up to the size. -/
def front : List Byte := e.name ++ List.replicate (100 - e.name.length) 0 ++ e.owner

/-- The header, with an empty prefix. -/
def header : List Byte :=
  e.front ++ (octalDigits e.contents.length ++ (e.sizeEnd :: e.info ++ List.replicate 167 0))

/-- The number of bytes that fill the last block. -/
def padding : ℕ := (e.contents.length + 511) / 512 * 512 - e.contents.length

/-- The blocks of an entry. -/
def bytes : List Byte := e.header ++ (e.contents ++ List.replicate e.padding 0)

theorem length_front : e.front.length = 124 := by
  have hname := e.length_name
  simp only [front, List.length_append, List.length_replicate, e.length_owner]
  omega

theorem length_header : e.header.length = 512 := by
  simp only [header, List.length_append, List.length_cons, List.length_replicate, e.length_front,
    length_octalDigits, e.length_info]

/-- The length of an entry is the distance to the next header. -/
theorem length_bytes : e.bytes.length = entryLength e.contents.length := by
  simp only [bytes, List.length_append, List.length_replicate, e.length_header, padding, entryLength]
  omega

variable {e}

/-- The name in a header. -/
theorem isString_name (h : Lies m a e.bytes) : IsString (strAt m a) e.name := by
  refine isString_strAt ?_ e.zero_notMem_name
  have hname := e.length_name
  have hrep : List.replicate (100 - e.name.length) (0 : Byte) =
      [0] ++ List.replicate (99 - e.name.length) 0 := by
    rw [show 100 - e.name.length = 99 - e.name.length + 1 by omega]
    rfl
  rw [bytes, header, front, hrep, List.append_assoc, List.append_assoc, List.append_assoc,
    List.append_assoc, ← List.append_assoc e.name] at h
  exact (lies_append.mp h).1

/-- The digits of the size in a header. -/
theorem lies_size (h : Lies m a e.bytes) : Lies m (a + sizeOffset) (octalDigits e.contents.length) := by
  rw [bytes, header, List.append_assoc, lies_append, e.length_front, List.append_assoc,
    lies_append] at h
  exact h.2.1

/-- The contents lie behind the header. -/
theorem lies_contents (h : Lies m a e.bytes) : Lies m (a + 512) e.contents := by
  rw [bytes, lies_append, e.length_header, lies_append] at h
  exact h.2.1

/-- `convert_oct_int` finds the size of a file. -/
theorem convertOctInt_size (h : Lies m a e.bytes) :
    convertOctInt m (a + sizeOffset) = BitVec.ofNat 32 e.contents.length :=
  convertOctInt_octalDigits (lies_size h) (by have := e.length_contents; omega)

/-- `get_next_tar_header` goes to the end of the entry. -/
theorem getNextTarHeader_bytes (h : Lies m a e.bytes) :
    getNextTarHeader m a = a + BitVec.ofNat 64 e.bytes.length := by
  rw [getNextTarHeader, convertOctInt_size h, blockLength_ofNat e.length_contents, length_bytes]

end Entry

/-- `get_next_tar_header` goes far behind a block of zeros. -/
theorem getNextTarHeader_zero (h : Lies m a (List.replicate 512 0)) :
    getNextTarHeader m a = a + 1227134464 := by
  have hsplit : List.replicate 512 (0 : Byte) =
      List.replicate 124 0 ++ (List.replicate 11 0 ++ List.replicate 377 0) := by
    rw [List.replicate_append_replicate, List.replicate_append_replicate]
  rw [hsplit, lies_append, List.length_replicate, lies_append] at h
  have hsize : convertOctInt m (a + sizeOffset) = 1227133520 := convertOctInt_zero h.2.1
  rw [getNextTarHeader, hsize]
  rfl

/-- The name of a block of zeros is empty. -/
theorem isString_zero (h : Lies m a (List.replicate 512 0)) : IsString (strAt m a) [] :=
  isString_strAt ⟨h.1, trivial⟩ List.not_mem_nil

/-! ## Walks -/

/-- The blocks of the entries. -/
def entryBytes (es : List Entry) : List Byte := es.flatMap Entry.bytes

/-- The addresses of the headers. -/
def headers : Word64 → List Entry → List Word64
  | _, [] => []
  | a, e :: es => a :: headers (a + BitVec.ofNat 64 e.bytes.length) es

theorem entryBytes_cons (e : Entry) (es : List Entry) :
    entryBytes (e :: es) = e.bytes ++ entryBytes es := rfl

theorem entryBytes_append (es es' : List Entry) :
    entryBytes (es ++ es') = entryBytes es ++ entryBytes es' := List.flatMap_append

/-- An address some bytes further on, where the sum does not wrap around. -/
theorem toNat_add_ofNat {n : ℕ} (h : a.toNat + n < 2 ^ 64) :
    (a + BitVec.ofNat 64 n).toNat = a.toNat + n := by
  rw [BitVec.toNat_add, BitVec.toNat_ofNat]
  omega

section Walk

variable {es : List Entry} {stop : Word64} {compare : Str → CInt} {fuel : ℕ}

/-- What a list of entries below the end of the image has for its first entry: the header is below
the end, and the other entries are below it. -/
theorem below_cons {e : Entry} (hstop : a.toNat + (entryBytes (e :: es)).length ≤ stop.toNat) :
    a < stop ∧ (a + BitVec.ofNat 64 e.bytes.length).toNat + (entryBytes es).length ≤ stop.toNat := by
  have hlt := stop.isLt
  have hlen := e.length_bytes
  rw [entryBytes_cons, List.length_append] at hstop
  rw [entryLength] at hlen
  rw [toNat_add_ofNat (by omega), BitVec.lt_def]
  omega

/-- The walk visits the headers of the entries, and goes on behind them. -/
theorem walk_entries (h : Lies m a (entryBytes es))
    (hstop : a.toNat + (entryBytes es).length ≤ stop.toNat) :
    walk m stop (es.length + fuel) a =
      (walk m stop fuel (a + BitVec.ofNat 64 (entryBytes es).length)).map (headers a es ++ ·) := by
  induction es generalizing a with
  | nil => simp [entryBytes, headers]
  | cons e es ih =>
    obtain ⟨hlt, hstop'⟩ := below_cons hstop
    rw [entryBytes_cons, lies_append] at h
    rw [List.length_cons, Nat.add_right_comm, walk, if_pos hlt, Entry.getNextTarHeader_bytes h.1,
      ih h.2 hstop', add_ofNat_add, Option.map_map, entryBytes_cons, List.length_append]
    rfl

/-- A lookup goes on behind entries that do not match. -/
theorem lookup_entries (h : Lies m a (entryBytes es))
    (hstop : a.toNat + (entryBytes es).length ≤ stop.toNat)
    (hne : ∀ e ∈ es, ∀ it, Lies m it e.bytes → compare (strAt m it) ≠ 0) :
    lookup compare m stop (es.length + fuel) a =
      lookup compare m stop fuel (a + BitVec.ofNat 64 (entryBytes es).length) := by
  induction es generalizing a with
  | nil => simp [entryBytes]
  | cons e es ih =>
    obtain ⟨hlt, hstop'⟩ := below_cons hstop
    rw [entryBytes_cons, lies_append] at h
    rw [List.length_cons, Nat.add_right_comm, lookup, if_pos hlt,
      if_neg (hne e List.mem_cons_self a h.1), Entry.getNextTarHeader_bytes h.1,
      ih h.2 hstop' fun e' he' => hne e' (List.mem_cons_of_mem _ he'), add_ofNat_add,
      entryBytes_cons, List.length_append]

/-- A lookup finds the first entry that matches. -/
theorem lookup_found {n : List Byte} {e : Entry} (compare : Str → CInt) (h : Lies m a (entryBytes es))
    (hstop : a.toNat + (entryBytes es).length ≤ stop.toNat)
    (hcmp : ∀ e ∈ es, ∀ it, Lies m it e.bytes → (compare (strAt m it) = 0 ↔ e.name = n))
    (hfind : es.find? (·.name = n) = some e) :
    ∃ it, Lies m it e.bytes ∧
      ∀ fuel, lookup compare m stop (es.length + fuel) a = some (some it) := by
  induction es generalizing a with
  | nil => cases hfind
  | cons e' es ih =>
    obtain ⟨hlt, hstop'⟩ := below_cons hstop
    rw [entryBytes_cons, lies_append] at h
    rw [List.find?_cons] at hfind
    have hhead := hcmp e' List.mem_cons_self a h.1
    by_cases hname : e'.name = n
    · rw [decide_eq_true hname] at hfind
      obtain rfl : e' = e := Option.some.inj hfind
      refine ⟨a, h.1, fun fuel => ?_⟩
      rw [List.length_cons, Nat.add_right_comm, lookup, if_pos hlt, if_pos (hhead.mpr hname)]
    · rw [decide_eq_false hname] at hfind
      obtain ⟨it, hlies, hlook⟩ :=
        ih h.2 hstop' (fun e' he' => hcmp e' (List.mem_cons_of_mem _ he')) hfind
      refine ⟨it, hlies, fun fuel => ?_⟩
      rw [List.length_cons, Nat.add_right_comm, lookup, if_pos hlt, if_neg (mt hhead.mp hname),
        Entry.getNextTarHeader_bytes h.1]
      exact hlook fuel

/-- More steps do not change what a lookup finds. -/
theorem lookup_add {r : Option Word64} (h : lookup compare m stop fuel a = some r) (k : ℕ) :
    lookup compare m stop (fuel + k) a = some r := by
  induction fuel generalizing a with
  | zero => cases h
  | succ fuel ih =>
    rw [Nat.add_right_comm, lookup]
    rw [lookup] at h
    split_ifs at h ⊢ with hlt hcmp
    · exact h
    · exact ih h
    · exact h

/-- More steps do not change a walk. -/
theorem walk_add {ws : List Word64} (h : walk m stop fuel a = some ws) (k : ℕ) :
    walk m stop (fuel + k) a = some ws := by
  induction fuel generalizing a ws with
  | zero => cases h
  | succ fuel ih =>
    rw [Nat.add_right_comm, walk]
    rw [walk] at h
    split_ifs at h ⊢ with hlt
    · obtain ⟨ws', hws, rfl⟩ := Option.map_eq_some_iff.mp h
      rw [ih hws]
      rfl
    · exact h

end Walk

/-! ## Images -/

/-- An image: the memory holds the entries and then blocks of zeros from `start` on. The conditions
are those on every object, that it ends within the address space, and on the size of the image. -/
structure Image (m : Mem) (start : Word64) (es : List Entry) (zeros : ℕ) : Prop where
  /-- The entries. -/
  lies_entries : Lies m start (entryBytes es)
  /-- The blocks of zeros. -/
  lies_zeros : Lies m (start + BitVec.ofNat 64 (entryBytes es).length)
    (List.replicate (512 * zeros) 0)
  /-- The image ends within the address space. -/
  end_lt : start.toNat + (entryBytes es).length + 512 * zeros < 2 ^ 64
  /-- The image has less than 2^30 bytes. -/
  size_lt : (entryBytes es).length + 512 * zeros < 2 ^ 30

/-- The first address behind an image. -/
def imageEnd (start : Word64) (es : List Entry) (zeros : ℕ) : Word64 :=
  start + BitVec.ofNat 64 ((entryBytes es).length + 512 * zeros)

/-- The walk visits the headers, and then one block of zeros at most. -/
def WalkVisits (m : Mem) (start : Word64) (es : List Entry) (zeros : ℕ) : Prop :=
  ∃ fuel, walk m (imageEnd start es zeros) fuel start = some (headers start es) ∨
    walk m (imageEnd start es zeros) fuel start =
      some (headers start es ++ [start + BitVec.ofNat 64 (entryBytes es).length])

/-- `file_exists` tells which names the archive has. -/
def FindsNames (m : Mem) (start : Word64) (es : List Entry) (zeros : ℕ) : Prop :=
  ∀ p n, n ≠ [] → IsString (strAt m p) n →
    ∃ fuel, fileExists m start (imageEnd start es zeros) fuel (strAt m p) =
      some (if n ∈ es.map Entry.name then 1 else -1)

namespace Image

variable {start : Word64} {es : List Entry} {zeros : ℕ}

theorem toNat_imageEnd (h : Image m start es zeros) :
    (imageEnd start es zeros).toNat = start.toNat + (entryBytes es).length + 512 * zeros := by
  have hend := h.end_lt
  rw [imageEnd, toNat_add_ofNat (by omega)]
  omega

/-- The entries are below the end of the image. -/
theorem entries_le (h : Image m start es zeros) :
    start.toNat + (entryBytes es).length ≤ (imageEnd start es zeros).toNat := by
  rw [h.toNat_imageEnd]
  omega

/-- The address behind the entries. -/
theorem toNat_behind (h : Image m start es zeros) :
    (start + BitVec.ofNat 64 (entryBytes es).length).toNat =
      start.toNat + (entryBytes es).length :=
  toNat_add_ofNat (by have := h.end_lt; omega)

/-- There is a block of zeros behind the entries where the image does not end there. -/
theorem behind_lt_iff (h : Image m start es zeros) :
    start + BitVec.ofNat 64 (entryBytes es).length < imageEnd start es zeros ↔ zeros ≠ 0 := by
  rw [BitVec.lt_def, h.toNat_behind, h.toNat_imageEnd]
  omega

/-- The first block of zeros. -/
theorem lies_behind (h : Image m start es zeros) (h0 : zeros ≠ 0) :
    Lies m (start + BitVec.ofNat 64 (entryBytes es).length) (List.replicate 512 0) := by
  have hlies := h.lies_zeros
  rw [show 512 * zeros = 512 + 512 * (zeros - 1) by omega, ← List.replicate_append_replicate,
    lies_append] at hlies
  exact hlies.1

/-- The header that the walk takes to follow a block of zeros. -/
theorem next_behind (h : Image m start es zeros) (h0 : zeros ≠ 0) :
    getNextTarHeader m (start + BitVec.ofNat 64 (entryBytes es).length) =
      start + BitVec.ofNat 64 (entryBytes es).length + 1227134464 :=
  getNextTarHeader_zero (h.lies_behind h0)

/-- It is below the end of the image where the sum wraps around, and only there. -/
theorem next_lt_iff (h : Image m start es zeros) :
    start + BitVec.ofNat 64 (entryBytes es).length + 1227134464 < imageEnd start es zeros ↔
      2 ^ 64 ≤ start.toNat + (entryBytes es).length + 1227134464 := by
  have hend := h.end_lt
  have hsize := h.size_lt
  rw [BitVec.lt_def, BitVec.toNat_add, h.toNat_behind, h.toNat_imageEnd,
    show (1227134464 : Word64).toNat = 1227134464 from rfl]
  omega

/-- The walk stops behind the entries, or behind one block of zeros, if and only if there is no block
of zeros or the sum does not wrap around. -/
theorem walkVisits_iff (h : Image m start es zeros) : WalkVisits m start es zeros ↔
    zeros = 0 ∨ start.toNat + (entryBytes es).length + 1227134464 < 2 ^ 64 := by
  constructor
  · rintro ⟨fuel, hwalk⟩
    by_contra hcon
    rw [not_or, Nat.not_lt] at hcon
    -- With enough steps, the walk visits the block of zeros and one more header.
    have hmore : ∃ ws, ws.length ≤ 1 ∧
        walk m (imageEnd start es zeros) (fuel + (es.length + 2)) start =
          some (headers start es ++ ws) := by
      rcases hwalk with hwalk | hwalk
      · exact ⟨[], Nat.zero_le _, by rw [walk_add hwalk, List.append_nil]⟩
      · exact ⟨_, le_rfl, walk_add hwalk _⟩
    obtain ⟨ws, hws, hmore⟩ := hmore
    rw [Nat.add_left_comm, walk_entries h.lies_entries h.entries_le, walk,
      if_pos (h.behind_lt_iff.mpr hcon.1), h.next_behind hcon.1, walk,
      if_pos (h.next_lt_iff.mpr hcon.2), Option.map_map, Option.map_map,
      Option.map_eq_some_iff] at hmore
    obtain ⟨ws', -, heq⟩ := hmore
    obtain rfl := List.append_cancel_left heq
    simp at hws
  · intro hcond
    by_cases h0 : zeros = 0
    · refine ⟨es.length + 1, .inl ?_⟩
      rw [walk_entries h.lies_entries h.entries_le, walk,
        if_neg (mt h.behind_lt_iff.mp (not_not_intro h0)), Option.map_some, List.append_nil]
    · refine ⟨es.length + 2, .inr ?_⟩
      have hnext := mt h.next_lt_iff.mp (Nat.not_le.mpr (hcond.resolve_left h0))
      rw [walk_entries h.lies_entries h.entries_le, walk, if_pos (h.behind_lt_iff.mpr h0),
        h.next_behind h0, walk, if_neg hnext]
      rfl

/-- `str_compare1` compares the names of the entries with a name. -/
theorem compare_entry (es : List Entry) {p : Str} {n : List Byte} (hp : IsString p n)
    (hn : n.length < 2 ^ 64) :
    ∀ e ∈ es, ∀ it, Lies m it e.bytes → (strCompare1 (strAt m it) p = 0 ↔ e.name = n) :=
  fun e _ _ hlies => strCompare1_eq_zero (Entry.isString_name hlies) hp
    (by have := e.length_name; omega) hn

/-- `file_exists` finds the names of the entries, and no others where the walk stops. -/
theorem findsNames (h : Image m start es zeros)
    (hcond : zeros = 0 ∨ start.toNat + (entryBytes es).length + 1227134464 < 2 ^ 64) :
    FindsNames m start es zeros := by
  intro p n hn hp
  have hlt := length_lt_of_strAt hp
  have hcmp := compare_entry (m := m) es hp hlt
  by_cases hmem : n ∈ es.map Entry.name
  · obtain ⟨e, he⟩ : ∃ e, es.find? (·.name = n) = some e := by
      obtain ⟨e, he, hname⟩ := List.mem_map.mp hmem
      exact Option.isSome_iff_exists.mp (List.find?_isSome.mpr ⟨e, he, decide_eq_true hname⟩)
    obtain ⟨it, -, hlook⟩ := lookup_found (strCompare1 · (strAt m p)) h.lies_entries h.entries_le
      hcmp he
    refine ⟨es.length + 0, ?_⟩
    rw [fileExists, hlook 0, if_pos hmem]
    rfl
  · refine ⟨es.length + 2, ?_⟩
    have hne : ∀ e ∈ es, ∀ it, Lies m it e.bytes → strCompare1 (strAt m it) (strAt m p) ≠ 0 :=
      fun e he it hlies heq =>
        hmem (List.mem_map.mpr ⟨e, he, (hcmp e he it hlies).mp heq⟩)
    rw [fileExists, lookup_entries h.lies_entries h.entries_le hne, lookup, if_neg hmem]
    by_cases h0 : zeros = 0
    · rw [if_neg (mt h.behind_lt_iff.mp (not_not_intro h0))]
      rfl
    · have hzero : strCompare1 (strAt m (start + BitVec.ofNat 64 (entryBytes es).length))
          (strAt m p) ≠ 0 := fun heq =>
        hn ((strCompare1_eq_zero (isString_zero (h.lies_behind h0)) hp (by decide) hlt).mp heq).symm
      have hnext := mt h.next_lt_iff.mp (Nat.not_le.mpr (hcond.resolve_left h0))
      rw [if_pos (h.behind_lt_iff.mpr h0), if_neg hzero, h.next_behind h0, lookup, if_neg hnext]
      rfl

end Image

/-- For every archive of less than 2^30 bytes, the walk visits the headers in order and then one block
of zeros at most, and `file_exists` tells which names the archive has, if and only if the archive has
no block of zeros or the first of them lies 1227134464 bytes below the end of the address space. -/
theorem walk_decodes_iff (m : Mem) (start : Word64) (es : List Entry) (zeros : ℕ)
    (h : Image m start es zeros) : WalkVisits m start es zeros ∧ FindsNames m start es zeros ↔
    zeros = 0 ∨ start.toNat + (entryBytes es).length + 1227134464 < 2 ^ 64 :=
  ⟨fun hboth => h.walkVisits_iff.mp hboth.1,
    fun hcond => ⟨h.walkVisits_iff.mpr hcond, h.findsNames hcond⟩⟩

/-- An entry named `a`, of `n` bytes. -/
def sampleEntry (n : ℕ) (h : n < 2 ^ 31 - 1024) : Entry where
  name := [97]
  owner := List.replicate 24 48
  sizeEnd := 0
  info := List.replicate 209 0
  contents := List.replicate n 120
  name_ne_nil := List.cons_ne_nil _ _
  zero_notMem_name := by decide
  length_name := by decide
  length_owner := List.length_replicate
  length_info := List.length_replicate
  length_contents := by rwa [List.length_replicate]

/-- An address where the kernel may have the archive, behind its other data. -/
def sampleStart : Word64 := 0xffffffff80700000

/-- The memory that has an archive of one entry, and a block of zeros behind it. -/
def sampleMem (n : ℕ) (h : n < 2 ^ 31 - 1024) : Mem :=
  place sampleStart (entryBytes [sampleEntry n h] ++ List.replicate (512 * 1) 0)

theorem length_sample (n : ℕ) (h : n < 2 ^ 31 - 1024) :
    (entryBytes [sampleEntry n h]).length = entryLength n := by
  rw [entryBytes_cons, List.length_append, Entry.length_bytes]
  simp [entryBytes, sampleEntry]

theorem sampleMem_image (n : ℕ) (h : n < 2 ^ 31 - 1024) (hn : n < 2 ^ 30 - 2048) :
    Image (sampleMem n h) sampleStart [sampleEntry n h] 1 := by
  have hstart : sampleStart.toNat = 0xffffffff80700000 := rfl
  have hlen := length_sample n h
  rw [entryLength] at hlen
  have hlies : Lies (sampleMem n h) sampleStart
      (entryBytes [sampleEntry n h] ++ List.replicate (512 * 1) 0) := by
    refine lies_place ?_
    rw [List.length_append, List.length_replicate]
    omega
  rw [lies_append] at hlies
  exact ⟨hlies.1, hlies.2, by omega, by omega⟩

/-- Two entries, of 5 and of 600 bytes. -/
def samplePair : List Entry := [sampleEntry 5 (by decide), sampleEntry 600 (by decide)]

theorem length_samplePair : (entryBytes samplePair).length = 2560 := by
  rw [samplePair, entryBytes_cons, List.length_append, length_sample, Entry.length_bytes]
  rfl

/-- The walk of a small archive visits its entries and the block of zeros. -/
theorem walk_decodes_small :
    WalkVisits (place sampleStart (entryBytes samplePair ++ List.replicate (512 * 1) 0)) sampleStart samplePair 1 ∧
      FindsNames (place sampleStart (entryBytes samplePair ++ List.replicate (512 * 1) 0)) sampleStart
        samplePair 1 := by
  have hlies : Lies (place sampleStart (entryBytes samplePair ++ List.replicate (512 * 1) 0)) sampleStart
      (entryBytes samplePair ++ List.replicate (512 * 1) 0) := by
    refine lies_place ?_
    rw [List.length_append, List.length_replicate, length_samplePair]
    decide
  rw [lies_append] at hlies
  have himage : Image (place sampleStart (entryBytes samplePair ++ List.replicate (512 * 1) 0)) sampleStart
      samplePair 1 := by
    refine ⟨hlies.1, hlies.2, ?_, ?_⟩
    · rw [length_samplePair]
      decide
    · rw [length_samplePair]
      decide
  refine (walk_decodes_iff _ _ _ _ himage).mpr (.inr ?_)
  rw [length_samplePair]
  decide

/-- The walk of an archive of 900 MiB goes on from the block of zeros to an address far below the
archive. -/
theorem walk_wraps : ¬ ∀ (m : Mem) (start : Word64) (es : List Entry) (zeros : ℕ),
    Image m start es zeros → WalkVisits m start es zeros ∧ FindsNames m start es zeros := by
  intro hall
  have himage := sampleMem_image 943718400 (by decide) (by decide)
  have hcond := himage.walkVisits_iff.mp (hall _ _ _ _ himage).1
  rw [length_sample] at hcond
  revert hcond
  decide

end Nascent.Tarfs
