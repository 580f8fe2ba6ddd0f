import Nascent.Console.Numbers

/-!
# Numbers that are typed

`str_to_num` of `src/libc/strings.c`, by which `kill` and `sleep` read their argument. It ends with the
zero byte, takes every byte in front of it for a digit, and adds up the digits in an `int`, the most
significant one first.

What `num` has written in a buffer of zeros is a string, and `str_to_num` gives back the number
(`num_reads_back`). The sum only grows with the digits, so that no sum on the way is larger than the
number, and the product by ten of the last round is not larger either.
-/

namespace Nascent.Numbers

open Bytes (Byte)
open Numeral
open Strings (Str IsString scan scan_eq isString_strOf)
open Tarfs (CInt)

/-- One character of `str_to_num`. A `char` is signed. -/
def strToNumStep (r : CInt) (c : Byte) : CInt :=
  let t := c.signExtend 32 - 48
  r * 10 + t

/-- `str_to_num`. A string that does not end within the address space has no number in C either. -/
def strToNum (s : Str) : Option CInt := scan strToNumStep s (2 ^ 64) 0 0

/-- No operation of one character overflows. -/
structure StepFits (r : CInt) (c : Byte) : Prop where
  /-- The digit. -/
  sub : (c.signExtend 32).ssubOverflow 48 = false
  /-- The product. -/
  mul : r.smulOverflow 10 = false
  /-- The sum. -/
  add : (r * 10).saddOverflow (c.signExtend 32 - 48) = false

/-- No operation overflows from some number on. -/
def Fits : CInt → List Byte → Prop
  | _, [] => True
  | r, c :: cs => StepFits r c ∧ Fits (strToNumStep r c) cs

variable {r n : CInt} {ds : List ℕ} {d v : ℕ}

/-! ## One digit -/

/-- The difference of a digit's character and `0`. -/
theorem signExtend_digitChar (hd : d < 10) :
    ((digitChar d).signExtend 32 - 48).toInt = d ∧ ((digitChar d).signExtend 32).ssubOverflow 48 = false := by
  interval_cases d <;> exact ⟨rfl, rfl⟩

/-- One digit more, where the result is an `int`. -/
theorem strToNumStep_digit (hr : r.toInt = v) (hd : d < 10) (hv : v * 10 + d < 2 ^ 31) :
    (strToNumStep r (digitChar d)).toInt = (v * 10 + d : ℕ) ∧ StepFits r (digitChar d) := by
  obtain ⟨hdigit, hsub⟩ := signExtend_digitChar hd
  have hten : (10 : CInt).toInt = 10 := rfl
  have hmul : r.smulOverflow 10 = false := by
    simp only [BitVec.smulOverflow, hr, hten, Bool.or_eq_false_iff, decide_eq_false_iff_not]
    omega
  have hprod : (r * 10).toInt = (v * 10 : ℕ) := by
    rw [BitVec.toInt_mul_of_not_smulOverflow (Bool.eq_false_iff.mp hmul), hr, hten]
    push_cast
    rfl
  have hadd : (r * 10).saddOverflow ((digitChar d).signExtend 32 - 48) = false := by
    simp only [BitVec.saddOverflow, hprod, hdigit, Bool.or_eq_false_iff, decide_eq_false_iff_not]
    omega
  refine ⟨?_, hsub, hmul, hadd⟩
  unfold strToNumStep
  rw [BitVec.toInt_add_of_not_saddOverflow (Bool.eq_false_iff.mp hadd), hprod, hdigit]
  push_cast
  rfl

/-- The characters of some digits are added up to what the digits stand for. The sums on the way are not
larger. -/
theorem foldl_strToNumStep (hds : ∀ d ∈ ds, d < 10) (hr : r.toInt = v)
    (hv : ds.foldl (fun v d => v * 10 + d) v < 2 ^ 31) :
    ((ds.map digitChar).foldl strToNumStep r).toInt = (ds.foldl (fun v d => v * 10 + d) v : ℕ) ∧
      Fits r (ds.map digitChar) := by
  induction ds generalizing r v with
  | nil => exact ⟨hr, trivial⟩
  | cons d ds ih =>
    rw [List.foldl_cons] at hv ⊢
    have hle : v * 10 + d ≤ ds.foldl (fun v d => v * 10 + d) (v * 10 + d) := le_foldl_digits (by decide)
    obtain ⟨hstep, hfits⟩ := strToNumStep_digit hr (hds d List.mem_cons_self) (by omega)
    obtain ⟨hvalue, hrest⟩ := ih (fun d hd => hds d (List.mem_cons_of_mem _ hd)) hstep hv
    exact ⟨hvalue, hfits, hrest⟩

/-! ## Numbers that come back -/

/-- The text of a number that is not negative. -/
theorem decimalText_of_nonneg (h : 0 ≤ n.toInt) : decimalText n = (numeral 10 n.toNat).map digitChar := by
  have hcond := n.toInt_eq_toNat_cond
  have habs : n.toInt.natAbs = n.toNat := by split_ifs at hcond <;> omega
  rw [decimalText, if_neg (by omega), habs, List.nil_append]

/-- `num` leaves the text of a number that is not negative. -/
theorem num_of_nonneg {buffer : Str} (h : 0 ≤ n.toInt) :
    ∃ k, num n buffer 10 = some (fill buffer (decimalText n), k) := by
  by_cases h0 : n = 0
  · subst h0
    exact ⟨2, num_zero 10⟩
  · refine ⟨_, num_decimal h0 ?_⟩
    rintro rfl
    exact absurd h (by decide)

/-- The text is a string. -/
theorem isString_decimalText (h : 0 ≤ n.toInt) : IsString (fill (fun _ => 0) (decimalText n)) (decimalText n) := by
  refine isString_strOf fun hmem => ?_
  rw [decimalText_of_nonneg h] at hmem
  have hle := le_of_mem_digits (b := 10) (by decide) (by decide) hmem
  exact absurd hle (by decide)

/-- What `num` leaves in a buffer of zeros for an `int` that is not negative is the string of its decimal
numeral, and `str_to_num` reads the `int` back. None of its operations overflows. -/
theorem num_reads_back (n : CInt) (h : 0 ≤ n.toInt) :
    Printf.num = Kprintf.num ∧
      ∃ buffer k, Kprintf.num n (fun _ => 0) 10 = some (buffer, k) ∧ IsString buffer (decimalText n) ∧
        strToNum buffer = some n ∧ Fits 0 (decimalText n) := by
  obtain ⟨k, hk⟩ : ∃ k, Kprintf.num n (fun _ => 0) 10 = some (fill (fun _ => 0) (decimalText n), k) :=
    num_of_nonneg h
  have hs := isString_decimalText h
  have hlt := n.toInt_lt
  have hnat : n.toInt = n.toNat := by
    have hcond := n.toInt_eq_toNat_cond
    split_ifs at hcond <;> omega
  have hnumeral := isNumeral_numeral (b := 10) (by decide) n.toNat
  have hvalue : (numeral 10 n.toNat).foldl (fun v d => v * 10 + d) 0 = n.toNat := hnumeral.value_eq
  have hlen : (decimalText n).length < 2 ^ 64 := by
    have hle : (numeral 10 n.toNat).length ≤ 10 := length_numeral_le (by decide) (by decide) (by omega)
    rw [decimalText_of_nonneg h, List.length_map]
    omega
  obtain ⟨hsum, hfits⟩ := foldl_strToNumStep (r := 0) (v := 0) hnumeral.lt rfl (by omega)
  rw [← decimalText_of_nonneg h] at hsum hfits
  refine ⟨rfl, _, k, hk, hs, ?_, hfits⟩
  have hback : (decimalText n).foldl strToNumStep 0 = n := by
    apply BitVec.eq_of_toInt_eq
    rw [hsum, hvalue, hnat]
  rw [strToNum, scan_eq hs hlen, hback]

/-- The largest `int` is read back. -/
theorem num_reads_back_max :
    0 ≤ (BitVec.intMax 32).toInt ∧
      ∃ buffer k, Kprintf.num (BitVec.intMax 32) (fun _ => 0) 10 = some (buffer, k) ∧
        strToNum buffer = some (BitVec.intMax 32) := by
  obtain ⟨-, buffer, k, hnum, -, hback, -⟩ := num_reads_back (BitVec.intMax 32) (by decide)
  exact ⟨by decide, buffer, k, hnum, hback⟩

end Nascent.Numbers
