import Nascent.Exec.Model
import Nascent.Tarfs.Opens

/-!
# Walks through an image

`get_next_tar_header` of `src/sys/tarfs.c` decodes the eleven digits of a size to an `int`, which is not
checked, and adds the size with the header to the address. `Grows` says which sizes make a positive number
of that; with others the walk stands still or goes back (`lt_getNextTarHeader_iff`). A walk whose headers
all have such a size ends, as every step goes on (`walk_isSome`), and with it the loops of all functions
that walk (`walks_end`).
-/

namespace Nascent.Tarfs

open Nascent.Bytes (Byte)
open Nascent.Memory Nascent.Strings

variable {m : Mem} {a start stop : Word64} {fuel : ℕ}

/-! ## One step -/

/-- The sizes from which a header and its file have a positive length that fits an `int`. -/
def Grows (size : ℤ) : Prop :=
  if 512 ∣ size then 0 ≤ size ∧ size < 2 ^ 31 - 512 else -1024 < size ∧ size < 2 ^ 31 - 1024

/-- The size in a header. -/
def sizeAt (m : Mem) (h : Word64) : CInt := convertOctInt m (h + sizeOffset)

/-- The size in a header grows, and the next header is below 2^64. The last case is one of a negative length
that leads below 0 and so wraps around. -/
def Forward (m : Mem) (h : Word64) : Prop :=
  Grows (sizeAt m h).toInt ∧ h.toNat + (blockLength (sizeAt m h)).toInt < 2 ^ 64 ∨
    (blockLength (sizeAt m h)).toInt < 0 ∧ h.toNat + (blockLength (sizeAt m h)).toInt < 0

/-- The length of a header and its file as an `int`. -/
theorem toInt_blockLength (size : CInt) : (blockLength size).toInt =
    (if 512 ∣ size.toInt then (size.toInt.tdiv 512 + 1) * 512
      else (size.toInt.tdiv 512 + 2) * 512).bmod (2 ^ 32) := by
  have h512 : (512 : CInt).toInt = 512 := rfl
  have h1 : (1 : CInt).toInt = 1 := rfl
  have h2 : (2 : CInt).toInt = 2 := rfl
  have hdiv : (size.sdiv 512).toInt = size.toInt.tdiv 512 := by
    rw [BitVec.toInt_sdiv_of_ne_or_ne _ _ (.inr (by decide)), h512]
  have hrem : size.srem 512 = 0 ↔ 512 ∣ size.toInt := by
    rw [← BitVec.toInt_inj, BitVec.toInt_srem, h512]
    exact (Int.dvd_iff_tmod_eq_zero ..).symm
  unfold blockLength
  simp only [hrem]
  split_ifs
  · rw [BitVec.toInt_mul, BitVec.toInt_add, hdiv, h512, h1, Int.bmod_mul_bmod]
  · rw [BitVec.toInt_mul, BitVec.toInt_add, hdiv, h512, h2, Int.bmod_mul_bmod]

/-- A product that leaves the range of an `int` by less than its size. -/
theorem bmod_wrap {e : ℤ} (h : -2 ^ 31 ≤ e) (h' : e < 2 ^ 32) :
    e.bmod (2 ^ 32) = if e < 2 ^ 31 then e else e - 2 ^ 32 := by
  split_ifs with hlt
  · exact Int.bmod_eq_of_le (by omega) (by omega)
  · have hsub : e.bmod (2 ^ 32) = (e - 2 ^ 32).bmod (2 ^ 32) := (Int.sub_bmod_right ..).symm
    rw [hsub]
    exact Int.bmod_eq_of_le (by omega) (by omega)

/-- The length is positive for the sizes that grow. -/
theorem blockLength_pos_iff (size : CInt) : 0 < (blockLength size).toInt ↔ Grows size.toInt := by
  have hlt := size.toInt_lt
  have hle := size.le_toInt
  have hsign : Int.sign 512 = 1 := rfl
  rw [toInt_blockLength, Int.tdiv_eq_ediv, hsign]
  unfold Grows
  generalize size.toInt = z at hlt hle
  obtain ⟨q, r, hz, h0, h1⟩ : ∃ q r, z = 512 * q + r ∧ 0 ≤ r ∧ r < 512 :=
    ⟨z / 512, z % 512, (Int.mul_ediv_add_emod z 512).symm, Int.emod_nonneg _ (by decide),
      Int.emod_lt_of_pos _ (by decide)⟩
  have hq : z / 512 = q := by omega
  rw [hq]
  by_cases hdvd : 512 ∣ z
  · rw [if_pos hdvd, if_pos hdvd, if_pos (.inr hdvd), bmod_wrap (by omega) (by omega)]
    split_ifs <;> omega
  · rw [if_neg hdvd, if_neg hdvd]
    by_cases hpos : 0 ≤ z
    · rw [if_pos (.inl hpos), bmod_wrap (by omega) (by omega)]
      split_ifs <;> omega
    · rw [if_neg (not_or.mpr ⟨hpos, hdvd⟩), bmod_wrap (by omega) (by omega)]
      split_ifs <;> omega

/-- A sum of an address and a length, as a number. -/
theorem toNat_add_signExtend (h : Word64) (len : CInt) : ((h + len.signExtend 64).toNat : ℤ) =
    (h.toNat + len.toInt) % 2 ^ 64 := by
  have hsame := BitVec.toInt_signExtend_of_le (w := 32) (v := 64) (by decide) (x := len)
  have hmod : len.toInt % 2 ^ 64 = (len.signExtend 64).toNat % 2 ^ 64 := by
    rw [← hsame, BitVec.toInt_eq_toNat_bmod]
    exact Int.bmod_emod
  rw [BitVec.toNat_add, ← Int.add_emod_emod, hmod, Int.add_emod_emod]
  rfl

/-- `get_next_tar_header` goes to a higher address if and only if the header leads forward. -/
theorem lt_getNextTarHeader_iff (m : Mem) (h : Word64) : h < getNextTarHeader m h ↔ Forward m h := by
  have hsum := toNat_add_signExtend h (blockLength (sizeAt m h))
  have hlen := (blockLength (sizeAt m h)).toInt_lt
  have hlen' := (blockLength (sizeAt m h)).le_toInt
  have hh := h.isLt
  unfold Forward
  rw [← blockLength_pos_iff, BitVec.lt_def]
  have hnext : getNextTarHeader m h = h + (blockLength (sizeAt m h)).signExtend 64 := rfl
  rw [hnext]
  generalize (h + (blockLength (sizeAt m h)).signExtend 64).toNat = next at hsum
  generalize (blockLength (sizeAt m h)).toInt = len at hsum hlen hlen'
  generalize h.toNat = here at hsum hh
  omega

/-! ## Walks -/

/-- The headers that a walk from `start` visits all lead forward. -/
def Ascends (m : Mem) (start stop : Word64) : Prop :=
  ∀ n, (∀ k ≤ n, (getNextTarHeader m)^[k] start < stop) → Forward m ((getNextTarHeader m)^[n] start)

/-- The headers behind the first. -/
theorem Ascends.tail (h : Ascends m start stop) (hlt : start < stop) :
    Ascends m (getNextTarHeader m start) stop := by
  intro n hn
  have hbelow : ∀ k ≤ n + 1, (getNextTarHeader m)^[k] start < stop := by
    intro k hk
    cases k with
    | zero => exact hlt
    | succ k =>
      rw [Function.iterate_succ_apply]
      exact hn k (Nat.le_of_succ_le_succ hk)
  have hnext := h (n + 1) hbelow
  rwa [Function.iterate_succ_apply] at hnext

/-- A walk that goes on ends, at the latest after one step for each address. -/
theorem walk_isSome : ∀ {fuel : ℕ} {start : Word64}, Ascends m start stop →
    stop.toNat - start.toNat < fuel → (walk m stop fuel start).isSome
  | fuel + 1, start, h, hfuel => by
    rw [walk]
    by_cases hlt : start < stop
    · have hforward : Forward m start := h 0 fun k hk => by
        rw [Nat.le_zero.mp hk]
        exact hlt
      have hnext := (lt_getNextTarHeader_iff m start).mpr hforward
      rw [BitVec.lt_def] at hnext hlt
      rw [if_pos (BitVec.lt_def.mpr hlt), Option.isSome_map]
      exact walk_isSome (h.tail (BitVec.lt_def.mpr hlt)) (by omega)
    · rw [if_neg hlt]
      rfl

/-- A lookup ends where the walk does. -/
theorem lookup_isSome (compare : Str → CInt) : ∀ {fuel : ℕ} {start : Word64},
    (walk m stop fuel start).isSome → (lookup compare m stop fuel start).isSome
  | 0, _, h => by cases h
  | fuel + 1, start, h => by
    rw [walk] at h
    rw [lookup]
    by_cases hlt : start < stop
    · rw [if_pos hlt, Option.isSome_map] at h
      rw [if_pos hlt]
      split_ifs
      · rfl
      · exact lookup_isSome compare h
    · rw [if_neg hlt]
      rfl

/-- The loops of the functions that walk from the start of the image: they come to an end for every name,
given enough steps. -/
structure LoopsEnd (tar : Tar) : Prop where
  /-- `file_exists`. -/
  fileExists : ∀ fName, (fileExists tar.mem tar.start tar.stop tar.fuel fName).isSome
  /-- `validate_binary`. -/
  validateBinary : ∀ fName, (Proc.validateBinary tar fName).isSome
  /-- `load_elf1`. -/
  loadElf1 : ∀ binaryName, (lookup (strCompare · binaryName) tar.mem tar.stop tar.fuel tar.start).isSome
  /-- `open_s`, of a path that fits its buffer. -/
  openS : ∀ (s : Files) path, (pathSanitize s.cwd path).isSome → (s.openS tar path).isSome
  /-- `open_dir`. -/
  openDir : ∀ (s : Files) path, ((pathSanitize s.cwd path).bind withSlash).isSome → (s.openDir tar path).isSome

/-- The loops end where the walk over all headers does. -/
theorem loopsEnd_of_walk {tar : Tar} (h : (walk tar.mem tar.stop tar.fuel tar.start).isSome) :
    LoopsEnd tar := by
  have hexists : ∀ fName, (fileExists tar.mem tar.start tar.stop tar.fuel fName).isSome := fun fName => by
    rw [fileExists, Option.isSome_map]
    exact lookup_isSome _ h
  refine ⟨hexists, fun fName => ?_, fun binaryName => lookup_isSome _ h, fun s path hpath => ?_,
    fun s path hpath => ?_⟩
  · rw [Proc.validateBinary, Option.isSome_map]
    exact lookup_isSome _ h
  · obtain ⟨dPath, hdPath⟩ := Option.isSome_iff_exists.mp hpath
    rw [Files.openS_eq, Option.isSome_map, Files.findFile, hdPath, Option.bind_some]
    exact lookup_isSome _ h
  · obtain ⟨dPath, hdPath⟩ := Option.isSome_iff_exists.mp hpath
    obtain ⟨code, hcode⟩ := Option.isSome_iff_exists.mp (hexists (strOf dPath.tail))
    by_cases hroot : Files.IsRoot path
    · rw [Files.openDir_root hroot]
      rfl
    · rw [Files.openDir_eq hroot, Option.isSome_map, Files.findDir, hdPath, Option.bind_some, hcode,
        Option.bind_some]
      split_ifs
      · exact lookup_isSome _ h
      · rfl

/-- `read_dir` ends where the walk from the header that was reported last does. -/
theorem readDir_isSome {tar : Tar} {s : Files} {fd : ℕ} (buffer : Str)
    (h : (walk tar.mem tar.stop tar.fuel (s.fdArray fd).lastMatchedHeader).isSome) :
    (s.readDir tar fd buffer).isSome := by
  unfold Files.readDir
  split_ifs
  · rfl
  · rfl
  · rw [Option.isSome_map]
    exact lookup_isSome _ h

/-- `get_next_tar_header` goes to a higher address if and only if the header leads forward, which is a matter
of its size. Where all headers that a walk visits lead forward, the loops of `file_exists`, `validate_binary`, `load_elf1`,
`open_s`, `open_dir`, and `read_dir` end, at the latest after one step for each address. -/
theorem walks_end (tar : Tar) :
    (∀ h, h < getNextTarHeader tar.mem h ↔ Forward tar.mem h) ∧
    (Ascends tar.mem tar.start tar.stop → tar.stop.toNat - tar.start.toNat < tar.fuel → LoopsEnd tar) ∧
    ∀ (s : Files) (fd : ℕ) (buffer : Str), Ascends tar.mem (s.fdArray fd).lastMatchedHeader tar.stop →
      tar.stop.toNat - (s.fdArray fd).lastMatchedHeader.toNat < tar.fuel →
      (s.readDir tar fd buffer).isSome :=
  ⟨lt_getNextTarHeader_iff tar.mem, fun h hfuel => loopsEnd_of_walk (walk_isSome h hfuel),
    fun _ _ buffer h hfuel => readDir_isSome buffer (walk_isSome h hfuel)⟩

/-! ## Two images -/

/-- A memory with a header at 0, for a file with the name `a` and a size of some digits. -/
def headerMem (digits : List Byte) : Mem := fun x =>
  if x.toNat < 124 then (if x = 0 then 97 else 0) else digits.getD (x.toNat - 124) 0

/-- The image of one file of three bytes. -/
def threeMem : Mem := headerMem [48, 48, 48, 48, 48, 48, 48, 48, 48, 48, 51]

/-- The walks through the image of one file end. -/
theorem walks_end_three : LoopsEnd ⟨threeMem, 0, 1024, 1025⟩ := by
  refine (walks_end ⟨threeMem, 0, 1024, 1025⟩).2.1 (fun n hn => ?_) (by decide)
  cases n with
  | zero => exact (lt_getNextTarHeader_iff threeMem 0).mp (by decide)
  | succ n =>
    -- The next header is the end of the image.
    have hone : (getNextTarHeader threeMem)^[1] 0 < 1024 := hn 1 (Nat.succ_le_succ (Nat.zero_le n))
    exact absurd hone (by decide)

/-- The digits 37777777000, which are those of 2^32 - 512, in the size of a header. -/
def stillMem : Mem := headerMem [51, 55, 55, 55, 55, 55, 55, 55, 48, 48, 48]

/-- The size is decoded to -512, the next header is the same header, and `file_exists` does not end for
another name. -/
theorem walk_stands_still : sizeAt stillMem 0 = -512 ∧ getNextTarHeader stillMem 0 = 0 ∧
    ∀ fuel, fileExists stillMem 0 512 fuel (strOf [98]) = none := by
  have hnext : getNextTarHeader stillMem 0 = 0 := by decide
  have hname : IsString (strAt stillMem 0) [97] := by
    have hfirst : strAt stillMem 0 0 = 97 := by decide
    refine ⟨fun i hi => ?_, by decide, by decide⟩
    obtain rfl : i = 0 := Nat.lt_one_iff.mp hi
    exact hfirst
  have hcmp : strCompare1 (strAt stillMem 0) (strOf [98]) ≠ 0 := fun h =>
    absurd ((strCompare1_eq_zero hname (isString_strOf (by decide)) (by decide) (by decide)).mp h) (by decide)
  refine ⟨by decide, hnext, fun fuel => ?_⟩
  have hnone : lookup (strCompare1 · (strOf [98])) stillMem 512 fuel 0 = none := by
    induction fuel with
    | zero => rfl
    | succ fuel ih => rw [lookup, if_pos (by decide), if_neg hcmp, hnext, ih]
  rw [fileExists, hnone]
  rfl

end Nascent.Tarfs
