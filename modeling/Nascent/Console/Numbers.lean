import Mathlib.Tactic.IntervalCases
import Mathlib.Tactic.Ring
import Nascent.Lib.Numeral
import Nascent.Tarfs.Model

/-!
# Numbers in a format

`convert_num_to_char`, `reverse`, `num`, and `pointer` of `src/sys/kprintf.c`. The file
`src/libc/printf.c` has the same functions with the same text. An `int` is a word of 32 bits and wraps
around, `%` and `/` truncate towards zero, and a character is the low byte of an `int`. An index counts
at most 33 characters, so it is a natural number.

`pointer` writes the hexadecimal numeral of every number behind `0x` (`pointer_writes`). `num` writes
the numeral of a positive number. It returns 2 for the single character of 0. The smallest `int` is
still negative after the change of its sign, and a negative number in base 16 is increased by 2 instead
of read as unsigned: the remainders are then negative, and their characters are below `0`
(`num_writes_iff`).
-/

namespace Nascent.Numbers

open Bytes (Byte)
open Memory Numeral
open Strings (Str)
open Tarfs (CInt)

/-! ## The functions -/

/-- `convert_num_to_char`. -/
def convertNumToChar (num : CInt) : Byte :=
  if num.sle 9 then (48 + num).setWidth 8 else (97 + (num - 10)).setWidth 8

/-- `reverse`. For the length 0 the second index is -1 in the source, and the loop ends at once too. -/
def reverse (string : Str) (length : ℕ) : Str := swapLoop string length 0 (length - 1)

/-- The digit loop of `num`. It ends within 33 rounds for a base of at least 2. -/
def numLoop (base : CInt) : ℕ → Str → ℕ → CInt → Option (Str × ℕ)
  | 0, _, _, _ => none
  | fuel + 1, buffer, index, number =>
    if number = 0 then some (buffer, index)
    else
      numLoop base fuel (Function.update buffer index (convertNumToChar (number.srem base))) (index + 1)
        (number.sdiv base)

/-- The flag `n_flag` of `num`. -/
def nFlag (number base : CInt) : Bool := number.slt 0 && base != 16

/-- What `num` makes of a negative number before the digit loop. The constant `0xffffffff` is unsigned,
so that the difference is one of words. -/
def unsign (number base : CInt) : CInt :=
  if number.slt 0 then
    if base = 16 then number - 0xffffffff + 1 else number * (-1)
  else number

/-- `num`. -/
def num (number : CInt) (outputBuffer : Str) (base : CInt) : Option (Str × ℕ) :=
  if number = 0 then some (Function.update outputBuffer 0 48, 2)
  else
    (numLoop base 33 outputBuffer 0 (unsign number base)).map fun r =>
      if nFlag number base then (reverse (Function.update r.1 r.2 45) (r.2 + 1), r.2 + 1)
      else (reverse r.1 r.2, r.2)

/-- The digit loop of `pointer`. -/
def pointerLoop : ℕ → Str → ℕ → Word64 → Option (Str × ℕ)
  | 0, _, _, _ => none
  | fuel + 1, buffer, index, number =>
    if number = 0 then some (buffer, index)
    else
      pointerLoop fuel (Function.update buffer index (convertNumToChar ((number % 16).setWidth 32)))
        (index + 1) (number / 16)

/-- `pointer`. -/
def pointer (number : Word64) (outputBuffer : Str) : Option (Str × ℕ) :=
  if number = 0 then
    some (Function.update (Function.update (Function.update outputBuffer 0 48) 1 120) 2 48, 3)
  else
    (pointerLoop 65 outputBuffer 0 number).map fun r =>
      (reverse (Function.update (Function.update r.1 r.2 120) (r.2 + 1) 48) (r.2 + 2), r.2 + 2)

/-- `num` of `src/sys/kprintf.c`. -/
def Kprintf.num := Numbers.num

/-- `num` of `src/libc/printf.c`. -/
def Printf.num := Numbers.num

/-- `pointer` of `src/sys/kprintf.c`. -/
def Kprintf.pointer := Numbers.pointer

/-- `pointer` of `src/libc/printf.c`. -/
def Printf.pointer := Numbers.pointer

/-! ## The texts -/

/-- The character of a digit. -/
def digitChar (d : ℕ) : Byte := BitVec.ofNat 8 (if d < 10 then 48 + d else 87 + d)

/-- The digit of a character. -/
def digitValue (c : Byte) : ℕ := if c.toNat < 58 then c.toNat - 48 else c.toNat - 87

/-- The number that the digits of a text stand for. -/
def readNumber (base : ℕ) (s : List Byte) : ℕ := value base (s.map digitValue)

/-- The text of an `int` in base 10. -/
def decimalText (n : CInt) : List Byte :=
  (if n.toInt < 0 then [45] else []) ++ (numeral 10 n.toInt.natAbs).map digitChar

/-- The text of an `unsigned int` in base 16. -/
def hexText (n : CInt) : List Byte := (numeral 16 n.toNat).map digitChar

/-- The text of a pointer. -/
def pointerText (n : Word64) : List Byte := 48 :: 120 :: (numeral 16 n.toNat).map digitChar

/-- A function has written a text and nothing else, and has returned the number of its characters. -/
def Writes (r : Option (Str × ℕ)) (buffer : Str) (s : List Byte) : Prop :=
  r = some (fill buffer s, s.length)

variable {d k fuel : ℕ} {buffer : Str} {s t : List Byte}

theorem digitValue_digitChar (h : d < 16) : digitValue (digitChar d) = d := by
  interval_cases d <;> rfl

/-- The function writes the character of a digit. -/
theorem convertNumToChar_ofNat (h : d < 16) : convertNumToChar (BitVec.ofNat 32 d) = digitChar d := by
  interval_cases d <;> rfl

/-- The text of a numeral reads back. -/
theorem readNumber_digitChar {base n : ℕ} (hb : 1 < base) (hb' : base ≤ 16) :
    readNumber base ((numeral base n).map digitChar) = n := by
  have h := isNumeral_numeral hb n
  have hmap : ((numeral base n).map digitChar).map digitValue = numeral base n := by
    rw [List.map_map]
    refine (List.map_congr_left fun d hd => ?_).trans (List.map_id _)
    exact digitValue_digitChar ((h.lt d hd).trans_le hb')
  rw [readNumber, hmap, h.value_eq]

/-- `reverse` turns around the characters that it is given. -/
theorem reverse_fill : reverse (fill buffer s) s.length = fill buffer s.reverse := swapLoop_fill

theorem reverse_fill_of_length (h : s.length = k) :
    reverse (fill buffer s) k = fill buffer s.reverse := h ▸ reverse_fill

/-- The text of a positive number is that of its digits turned around. -/
theorem map_digits_reverse {b n : ℕ} (h : n ≠ 0) (f : ℕ → Byte) :
    ((Nat.digits b n).map f).reverse = (numeral b n).map f := by
  rw [numeral_of_ne_zero h, List.map_reverse]

/-! ## Pointers -/

/-- The digit loop of `pointer` writes the digits of the number, the least significant one first. -/
theorem pointerLoop_eq (buffer : Str) : ∀ (fuel : ℕ) (number : Word64) (s : List Byte),
    number.toNat < 2 ^ fuel →
    pointerLoop (fuel + 1) (fill buffer s) s.length number =
      some (fill buffer (s ++ (Nat.digits 16 number.toNat).map digitChar),
        s.length + (Nat.digits 16 number.toNat).length)
  | fuel, number, s, hfuel => by
    rw [pointerLoop]
    by_cases h0 : number = 0
    · rw [if_pos h0, h0]
      simp
    have hpos : number.toNat ≠ 0 := fun h => h0 (BitVec.eq_of_toNat_eq h)
    obtain ⟨fuel, rfl⟩ : ∃ f, fuel = f + 1 := Nat.exists_eq_succ_of_ne_zero fun h => hpos (by
      rw [h] at hfuel
      omega)
    have hdiv : (number / 16).toNat = number.toNat / 16 := BitVec.toNat_udiv
    have hrem : (number % 16).setWidth 32 = BitVec.ofNat 32 (number.toNat % 16) :=
      BitVec.eq_of_toNat_eq (by simp)
    rw [if_neg h0, hrem, convertNumToChar_ofNat (Nat.mod_lt _ (by decide)), update_fill,
      Nat.digits_eq_cons_digits_div (by decide) hpos, ← hdiv]
    have ih := pointerLoop_eq buffer fuel (number / 16) (s ++ [digitChar (number.toNat % 16)])
      (by rw [hdiv]; omega)
    rw [List.length_append, List.length_singleton] at ih
    rw [ih, List.append_assoc, List.map_cons, List.length_cons, Nat.add_assoc, Nat.add_comm 1]
    rfl

/-- `pointer` writes the text of the number. -/
theorem pointer_eq (n : Word64) (buffer : Str) : Writes (pointer n buffer) buffer (pointerText n) := by
  unfold Writes pointer pointerText
  by_cases h0 : n = 0
  · have hnumeral : numeral 16 n.toNat = [0] := by
      rw [h0]
      exact numeral_zero
    rw [if_pos h0, hnumeral, update_zero, update_fill_of_length (s := [48]) (k := 1) rfl,
      update_fill_of_length (k := 2) rfl]
    rfl
  · have hpos : n.toNat ≠ 0 := fun h => h0 (BitVec.eq_of_toNat_eq h)
    have hloop := pointerLoop_eq buffer 64 n [] n.isLt
    rw [fill_nil, List.length_nil, List.nil_append, Nat.zero_add] at hloop
    rw [if_neg h0, hloop, Option.map_some, update_fill_of_length (by simp),
      update_fill_of_length (by simp), reverse_fill_of_length (by simp), List.append_assoc,
      List.reverse_append, map_digits_reverse hpos]
    simp [numeral_of_ne_zero hpos]

/-- `pointer` writes `0x` and the hexadecimal numeral of the number, at most 18 characters, and returns
how many. The digits read back to the number, so numbers are told apart by what it writes. -/
theorem pointer_writes (n : Word64) (buffer : Str) :
    Writes (Kprintf.pointer n buffer) buffer (pointerText n) ∧
      (∃ ds, IsNumeral 16 n.toNat ds ∧ pointerText n = 48 :: 120 :: ds.map digitChar) ∧
      (pointerText n).length ≤ 18 ∧
      readNumber 16 ((pointerText n).drop 2) = n.toNat ∧
      (∀ n' buffer', Kprintf.pointer n' buffer' = Kprintf.pointer n buffer → n' = n) ∧
      Printf.pointer = Kprintf.pointer := by
  have hread : ∀ n, readNumber 16 ((pointerText n).drop 2) = n.toNat := fun n =>
    readNumber_digitChar (by decide) (by decide)
  refine ⟨pointer_eq n buffer, ⟨_, isNumeral_numeral (by decide) _, rfl⟩, ?_, hread n, ?_, rfl⟩
  · have hlen : (numeral 16 n.toNat).length ≤ 16 :=
      length_numeral_le (by decide) (by decide) n.isLt
    unfold pointerText
    rw [List.length_cons, List.length_cons, List.length_map]
    exact Nat.add_le_add_right hlen 2
  · intro n' buffer' h
    have hsome := (pointer_eq n' buffer').symm.trans (h.trans (pointer_eq n buffer))
    have hfill := Prod.mk.inj (Option.some.inj hsome)
    apply BitVec.eq_of_toNat_eq
    rw [← hread n', fill_injective hfill.2 hfill.1, hread n]

/-! ## Integers -/

/-- The character of a remainder with the sign of the number. -/
def signChar (sign : ℤ) (d : ℕ) : Byte := convertNumToChar (BitVec.ofInt 32 (sign * d))

/-- The quotient and the remainder of a number of some sign: both have the sign, and the digits of the
number without it. -/
theorem div_rem_sign {b : ℕ} {sign : ℤ} {number : CInt} (hb : 2 ≤ b) (hb' : b ≤ 16)
    (hsign : sign = 1 ∨ sign = -1) (hnumber : number.toInt = sign * k) :
    (number.sdiv (BitVec.ofNat 32 b)).toInt = sign * (k / b : ℕ) ∧
      number.srem (BitVec.ofNat 32 b) = BitVec.ofInt 32 (sign * (k % b : ℕ)) := by
  have hbase : (BitVec.ofNat 32 b).toInt = b := by
    interval_cases b <;> rfl
  have hne : BitVec.ofNat 32 b ≠ -1#32 := by
    interval_cases b <;> decide
  have hlt : k % b < 16 := (Nat.mod_lt k (by omega)).trans_le hb'
  constructor
  · rw [BitVec.toInt_sdiv_of_ne_or_ne _ _ (.inr hne), hnumber, hbase]
    rcases hsign with rfl | rfl
    · rw [one_mul, one_mul]
      rfl
    · rw [neg_one_mul, neg_one_mul, Int.neg_tdiv]
      rfl
  · apply BitVec.eq_of_toInt_eq
    rw [BitVec.toInt_srem, hnumber, hbase]
    rcases hsign with rfl | rfl
    · rw [one_mul, one_mul, BitVec.toInt_ofInt_eq_self (by decide) (by omega) (by omega)]
      rfl
    · rw [neg_one_mul, neg_one_mul, Int.neg_tmod,
        BitVec.toInt_ofInt_eq_self (by decide) (by omega) (by omega)]
      rfl

/-- The digit loop of `num` writes the digits of a number without its sign, the least significant one
first, each as the character of a remainder that has the sign. -/
theorem numLoop_eq {b : ℕ} {sign : ℤ} (buffer : Str) (hb : 2 ≤ b) (hb' : b ≤ 16)
    (hsign : sign = 1 ∨ sign = -1) : ∀ (fuel k : ℕ) (number : CInt) (s : List Byte),
    number.toInt = sign * k → k < 2 ^ fuel →
    numLoop (BitVec.ofNat 32 b) (fuel + 1) (fill buffer s) s.length number =
      some (fill buffer (s ++ (Nat.digits b k).map (signChar sign)), s.length + (Nat.digits b k).length)
  | fuel, k, number, s, hnumber, hfuel => by
    rw [numLoop]
    by_cases h0 : k = 0
    · have hzero : number = 0 := BitVec.eq_of_toInt_eq (by simp [hnumber, h0])
      rw [if_pos hzero, h0]
      simp
    have hne : number ≠ 0 := by
      rintro rfl
      rcases hsign with rfl | rfl <;> simp at hnumber <;> omega
    obtain ⟨fuel, rfl⟩ : ∃ f, fuel = f + 1 := Nat.exists_eq_succ_of_ne_zero fun h => h0 (by
      rw [h] at hfuel
      omega)
    obtain ⟨hdiv, hrem⟩ := div_rem_sign hb hb' hsign hnumber
    have hlt : k / b < 2 ^ fuel := by
      rw [pow_succ] at hfuel
      exact Nat.div_lt_of_lt_mul (hfuel.trans_le (by rw [Nat.mul_comm]; exact Nat.mul_le_mul_right _ hb))
    have ih := numLoop_eq buffer hb hb' hsign fuel (k / b) _ (s ++ [signChar sign (k % b)]) hdiv hlt
    rw [List.length_append, List.length_singleton] at ih
    rw [if_neg hne, hrem, ← signChar, update_fill, ih, Nat.digits_eq_cons_digits_div (by omega) h0,
      List.append_assoc, List.map_cons, List.length_cons, Nat.add_assoc, Nat.add_comm 1]
    rfl

/-- What `num` writes for a number that becomes one of some sign. -/
def signText (minus : Bool) (b : ℕ) (sign : ℤ) (k : ℕ) : List Byte :=
  (if minus then [45] else []) ++ ((Nat.digits b k).map (signChar sign)).reverse

/-- `num` turns around the digits and the sign that it has written. -/
theorem num_eq {n : CInt} {b : ℕ} {sign : ℤ} (hb : 2 ≤ b) (hb' : b ≤ 16)
    (hsign : sign = 1 ∨ sign = -1) (h0 : n ≠ 0) (hk : (unsign n (BitVec.ofNat 32 b)).toInt = sign * k) :
    Writes (num n buffer (BitVec.ofNat 32 b)) buffer
      (signText (nFlag n (BitVec.ofNat 32 b)) b sign k) := by
  have hlt : k < 2 ^ 32 := by
    have := (unsign n (BitVec.ofNat 32 b)).toInt_lt
    have := (unsign n (BitVec.ofNat 32 b)).le_toInt
    rcases hsign with rfl | rfl <;> omega
  have hloop := numLoop_eq buffer hb hb' hsign 32 k _ [] hk hlt
  rw [fill_nil, List.length_nil, List.nil_append, Nat.zero_add] at hloop
  unfold Writes num signText
  rw [if_neg h0, hloop, Option.map_some]
  cases nFlag n (BitVec.ofNat 32 b) with
  | false =>
    rw [if_neg Bool.false_ne_true, if_neg Bool.false_ne_true, reverse_fill_of_length (by simp)]
    simp
  | true =>
    rw [if_pos rfl, if_pos rfl, update_fill_of_length (by simp), reverse_fill_of_length (by simp)]
    simp

/-- A character of a remainder is that of the digit when the number is positive. -/
theorem signText_one {b : ℕ} (minus : Bool) (hb : 2 ≤ b) (hb' : b ≤ 16) (hk : k ≠ 0) :
    signText minus b 1 k = (if minus then [45] else []) ++ (numeral b k).map digitChar := by
  unfold signText
  rw [← map_digits_reverse hk]
  congr 2
  refine List.map_congr_left fun d hd => ?_
  have hlt := Nat.digits_lt_base hb hd
  rw [signChar, one_mul, BitVec.ofInt_natCast, convertNumToChar_ofNat (hlt.trans_le hb')]

/-- The characters of a numeral are not below `0`. -/
theorem le_of_mem_digits {b n : ℕ} {c : Byte} (hb : 1 < b) (hb' : b ≤ 16)
    (hc : c ∈ (numeral b n).map digitChar) : 48 ≤ c.toNat := by
  obtain ⟨d, hd, rfl⟩ := List.mem_map.mp hc
  have hlt := ((isNumeral_numeral hb n).lt d hd).trans_le hb'
  interval_cases d <;> decide

/-- The first character of a number that is still negative is below `0`, so that it is no digit. -/
theorem map_signChar_ne {b b' n : ℕ} (hb : 1 < b) (hb' : b ≤ 16) (hn : 1 < b') (hn' : b' ≤ 16)
    (hk : k ≠ 0) : ((Nat.digits b k).map (signChar (-1))).reverse ≠ (numeral b' n).map digitChar := by
  intro h
  have hne : Nat.digits b k ≠ [] := Nat.digits_ne_nil_iff_ne_zero.mpr hk
  have hd0 := Nat.getLast_digit_ne_zero b hk
  have hmem := List.getLast_mem hne
  generalize (Nat.digits b k).getLast hne = d at hd0 hmem
  have hlt : d < 16 := (Nat.digits_lt_base hb hmem).trans_le hb'
  have hle : 48 ≤ (signChar (-1) d).toNat :=
    le_of_mem_digits hn hn' (h ▸ List.mem_reverse.mpr (List.mem_map_of_mem hmem))
  have hbelow : (signChar (-1) d).toNat < 48 := by
    interval_cases d
    · exact (hd0 rfl).elim
    all_goals decide
  omega

/-- Two texts that a function has written are one text. -/
theorem Writes.unique {r : Option (Str × ℕ)} (hs : Writes r buffer s) (ht : Writes r buffer t) :
    s = t := by
  have h := Prod.mk.inj (Option.some.inj (hs.symm.trans ht))
  exact fill_injective h.2 h.1

/-! ## The sign -/

variable {n : CInt}

/-- The comparison with zero. -/
theorem slt_zero : n.slt 0 = decide (n.toInt < 0) := rfl

/-- A number that is not negative is left as it is. -/
theorem unsign_of_nonneg (base : CInt) (h : 0 ≤ n.toInt) : unsign n base = n ∧ nFlag n base = false := by
  have hslt : n.slt 0 = false := by
    rw [slt_zero]
    exact decide_eq_false (by omega)
  rw [unsign, nFlag, hslt]
  exact ⟨rfl, rfl⟩

/-- In base 10 a negative number changes its sign, and the sign is remembered. -/
theorem unsign_decimal (h : n.toInt < 0) : unsign n 10 = -n ∧ nFlag n 10 = true := by
  have hslt : n.slt 0 = true := by
    rw [slt_zero]
    exact decide_eq_true h
  rw [unsign, nFlag, hslt, if_pos rfl, if_neg (by decide)]
  exact ⟨mul_neg_one n, rfl⟩

/-- In base 16 a negative number is increased by 2. -/
theorem unsign_hex (h : n.toInt < 0) : (unsign n 16).toInt = n.toInt + 2 ∧ nFlag n 16 = false := by
  have hslt : n.slt 0 = true := by
    rw [slt_zero]
    exact decide_eq_true h
  have hle := n.le_toInt
  have hconst : n - 0xffffffff + 1 = n + 2 := by
    rw [BitVec.sub_eq_add_neg, BitVec.add_assoc]
    rfl
  rw [unsign, nFlag, hslt, if_pos rfl, if_pos rfl, hconst]
  refine ⟨?_, rfl⟩
  have htwo : (2 : CInt).toInt = 2 := rfl
  rw [BitVec.toInt_add, htwo]
  exact Int.bmod_eq_of_le (by omega) (by omega)

/-- `num` writes the text of a positive number. -/
theorem num_of_pos {b : ℕ} (hb : 2 ≤ b) (hb' : b ≤ 16) (h : 0 < n.toInt) :
    Writes (num n buffer (BitVec.ofNat 32 b)) buffer ((numeral b n.toInt.natAbs).map digitChar) := by
  obtain ⟨hunsign, hflag⟩ := unsign_of_nonneg (BitVec.ofNat 32 b) h.le
  have hsign : (unsign n (BitVec.ofNat 32 b)).toInt = 1 * (n.toInt.natAbs : ℤ) := by
    rw [hunsign, one_mul, Int.natAbs_of_nonneg h.le]
  have hnum : Writes (num n buffer (BitVec.ofNat 32 b)) buffer _ :=
    num_eq hb hb' (.inl rfl) (by rintro rfl; simp at h) hsign
  rw [hflag, signText_one _ hb hb' (by omega)] at hnum
  exact hnum

/-- The two readings of a positive number are one. -/
theorem natAbs_of_pos (h : 0 < n.toInt) : n.toInt.natAbs = n.toNat := by
  have hcond := n.toInt_eq_toNat_cond
  split_ifs at hcond <;> omega

/-- A number is 0 when its integer is. -/
theorem toInt_ne_zero (h : n ≠ 0) : n.toInt ≠ 0 := fun h0 => h (BitVec.eq_of_toInt_eq h0)

/-- In base 10, `num` writes the text of a number other than 0 and the smallest one. -/
theorem num_decimal (h0 : n ≠ 0) (hmin : n ≠ BitVec.intMin 32) :
    Writes (num n buffer 10) buffer (decimalText n) := by
  rcases lt_or_gt_of_ne (toInt_ne_zero h0) with hneg | hpos
  · obtain ⟨hunsign, hflag⟩ := unsign_decimal hneg
    have hsign : (unsign n 10).toInt = 1 * (n.toInt.natAbs : ℤ) := by
      rw [hunsign, BitVec.toInt_neg_of_ne_intMin hmin]
      omega
    have hnum : Writes (num n buffer 10) buffer _ :=
      num_eq (b := 10) (by decide) (by decide) (.inl rfl) h0 hsign
    change Writes _ _ (signText (nFlag n 10) 10 1 _) at hnum
    rw [hflag, signText_one _ (by decide) (by decide) (by omega)] at hnum
    rw [decimalText, if_pos hneg]
    exact hnum
  · rw [decimalText, if_neg (by omega)]
    exact num_of_pos (b := 10) (by decide) (by decide) hpos

/-- In base 16, `num` writes the text of a positive number. -/
theorem num_hex (h : 0 < n.toInt) : Writes (num n buffer 16) buffer (hexText n) := by
  rw [hexText, ← natAbs_of_pos h]
  exact num_of_pos (b := 16) (by decide) (by decide) h

/-- `num` returns 2 for the single character of 0. -/
theorem num_zero (base : CInt) : num 0 buffer base = some (fill buffer [48], 2) := by
  rw [num, if_pos rfl, update_zero]

theorem not_writes_zero (base : CInt) {b : ℕ} :
    ¬ Writes (num 0 buffer base) buffer ((numeral b 0).map digitChar) := by
  intro h
  rw [Writes, num_zero, numeral_zero] at h
  exact absurd (Prod.mk.inj (Option.some.inj h)).2 (Nat.succ_ne_self 1)

/-- The smallest number is still negative when its sign has changed. -/
theorem not_writes_intMin :
    ¬ Writes (num (BitVec.intMin 32) buffer 10) buffer (decimalText (BitVec.intMin 32)) := by
  intro h
  have hnum : Writes (num (BitVec.intMin 32) buffer 10) buffer (signText true 10 (-1) (2 ^ 31)) :=
    num_eq (b := 10) (by decide) (by decide) (.inr rfl) (by decide) (by decide)
  have heq := hnum.unique h
  exact map_signChar_ne (by decide) (by decide) (by decide) (by decide) (by decide) (List.cons.inj heq).2

/-- In base 16, `num` does not write the text of a negative number. -/
theorem not_writes_hex (h : n.toInt < 0) : ¬ Writes (num n buffer 16) buffer (hexText n) := by
  intro hw
  obtain ⟨hunsign, hflag⟩ := unsign_hex h
  have h0 : n ≠ 0 := by
    rintro rfl
    exact absurd h (by decide)
  have hnum : ∀ {sign : ℤ} {k : ℕ}, sign = 1 ∨ sign = -1 → n.toInt + 2 = sign * k →
      signText false 16 sign k = hexText n := by
    intro sign k hsign hk
    have hwrites : Writes (num n buffer 16) buffer (signText (nFlag n 16) 16 sign k) :=
      num_eq (b := 16) (by decide) (by decide) hsign h0 (hunsign.trans hk)
    rw [hflag] at hwrites
    exact hwrites.unique hw
  have htoNat : 2 ^ 31 ≤ n.toNat := by
    have hcond := n.toInt_eq_toNat_cond
    split_ifs at hcond <;> omega
  rcases Int.lt_trichotomy (n.toInt + 2) 0 with hlt | heq | hgt
  · -- The remainders are negative.
    have hk : n.toInt + 2 = -1 * ((n.toInt + 2).natAbs : ℤ) := by omega
    exact map_signChar_ne (by decide) (by decide) (by decide) (by decide) (by omega) (hnum (.inr rfl) hk)
  · -- There is no digit at all.
    have htext := hnum (k := 0) (.inl rfl) heq
    have hnil : (numeral 16 n.toNat).map digitChar = [] := htext.symm
    exact (isNumeral_numeral (b := 16) (by decide) n.toNat).ne_nil (List.map_eq_nil_iff.mp hnil)
  · -- The number is -1, and the text is that of 1.
    have htext := hnum (k := 1) (.inl rfl) (by omega)
    rw [signText_one _ (by decide) (by decide) (by decide)] at htext
    have hread := congrArg (readNumber 16) htext
    rw [hexText, readNumber_digitChar (by decide) (by decide)] at hread
    change readNumber 16 ((numeral 16 1).map digitChar) = _ at hread
    rw [readNumber_digitChar (by decide) (by decide)] at hread
    omega

/-- In base 10, `num` writes the text of an `int` and returns its length if and only if the `int` is
neither 0 nor the smallest one; in base 16, it does so for the `unsigned int` if and only if the `int`
is positive. The two copies do the same. -/
theorem num_writes_iff (n : CInt) (buffer : Str) :
    (Writes (Kprintf.num n buffer 10) buffer (decimalText n) ↔ n ≠ 0 ∧ n ≠ BitVec.intMin 32) ∧
      (Writes (Kprintf.num n buffer 16) buffer (hexText n) ↔ 0 < n.toInt) ∧
      Printf.num = Kprintf.num := by
  refine ⟨⟨fun h => ⟨?_, ?_⟩, fun h => num_decimal h.1 h.2⟩, ⟨fun h => ?_, num_hex⟩, rfl⟩
  · rintro rfl
    exact not_writes_zero (b := 10) 10 h
  · rintro rfl
    exact not_writes_intMin h
  · rcases Int.lt_trichotomy n.toInt 0 with hneg | hzero | hpos
    · exact (not_writes_hex hneg h).elim
    · have hn : n = 0 := BitVec.eq_of_toInt_eq hzero
      subst hn
      exact (not_writes_zero (b := 16) 16 h).elim
    · exact hpos

/-- For 0, `num` writes one character and returns 2, in both bases. -/
theorem num_zero_returns_two :
    Kprintf.num 0 (fun _ => 0) 10 = some (fill (fun _ => 0) (decimalText 0), 2) ∧
      (decimalText 0).length = 1 ∧
      ¬ Writes (Kprintf.num 0 (fun _ => 0) 10) (fun _ => 0) (decimalText 0) ∧
      ¬ Writes (Kprintf.num 0 (fun _ => 0) 16) (fun _ => 0) (hexText 0) :=
  ⟨num_zero 10, rfl, not_writes_zero (b := 10) 10, not_writes_zero (b := 16) 16⟩

end Nascent.Numbers
