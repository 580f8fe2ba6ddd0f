import Mathlib.Data.List.GetD
import Mathlib.Data.List.Induction
import Mathlib.Data.Nat.Digits.Lemmas
import Mathlib.Logic.Function.Basic

/-!
# Numerals in a buffer

A numeral is the list of the digits of a number, the most significant one first and without leading
zeros; 0 has the digit 0. `IsNumeral` says which lists these are, and `numeral` gives the only one
of each number (`isNumeral_iff`).

A buffer is a function from indices, and `fill buffer s` is the buffer with `s` written over its
start. Programs write digits from the least significant one on, one character behind the other
(`update_fill`), and turn the characters around in place: `swapLoop` exchanges the characters at two
indices that move towards each other (`swapLoop_fill`).
-/

namespace Nascent.Numeral

variable {b n : ℕ} {ds : List ℕ}

/-- The number that some digits stand for, the most significant one first. -/
def value (b : ℕ) (ds : List ℕ) : ℕ := ds.foldl (fun v d => v * b + d) 0

/-- The digits are those of a number, without leading zeros. -/
structure IsNumeral (b n : ℕ) (ds : List ℕ) : Prop where
  /-- There is a digit. -/
  ne_nil : ds ≠ []
  /-- The digits are digits. -/
  lt : ∀ d ∈ ds, d < b
  /-- A zero in front is the only digit. -/
  head : ds.head? = some 0 → ds = [0]
  /-- They stand for the number. -/
  value_eq : value b ds = n

/-- The digits of a number, the most significant one first. -/
def numeral (b n : ℕ) : List ℕ := if n = 0 then [0] else (Nat.digits b n).reverse

theorem numeral_zero : numeral b 0 = [0] := if_pos rfl

theorem numeral_of_ne_zero (h : n ≠ 0) : numeral b n = (Nat.digits b n).reverse := if_neg h

/-- A number only grows with more digits. -/
theorem le_foldl_digits {v : ℕ} (hb : 0 < b) : v ≤ ds.foldl (fun v d => v * b + d) v := by
  induction ds generalizing v with
  | nil => exact le_rfl
  | cons d ds ih =>
    calc v ≤ v * b := Nat.le_mul_of_pos_right v hb
      _ ≤ v * b + d := Nat.le_add_right _ _
      _ ≤ _ := ih

/-- The digits from the most significant one on stand for what they do from the least one on. -/
theorem value_eq_ofDigits : value b ds = Nat.ofDigits b ds.reverse := by
  induction ds using List.reverseRecOn with
  | nil => rfl
  | append_singleton ds d ih =>
    rw [value, List.foldl_append, List.foldl_cons, List.foldl_nil, List.reverse_append,
      List.reverse_singleton, List.singleton_append, Nat.ofDigits_cons, ← ih, value]
    ring

/-- The digits of a number are its numeral. -/
theorem isNumeral_numeral (hb : 1 < b) (n : ℕ) : IsNumeral b n (numeral b n) := by
  by_cases hn : n = 0
  · subst hn
    rw [numeral_zero]
    exact ⟨List.cons_ne_nil _ _, fun d hd => by rw [List.mem_singleton.mp hd]; omega, fun _ => rfl,
      by simp [value]⟩
  · rw [numeral_of_ne_zero hn]
    have hne : Nat.digits b n ≠ [] := Nat.digits_ne_nil_iff_ne_zero.mpr hn
    refine ⟨fun h => hne (List.reverse_eq_nil_iff.mp h), fun d hd => ?_, fun h => ?_, ?_⟩
    · exact Nat.digits_lt_base hb (List.mem_reverse.mp hd)
    · rw [List.head?_reverse, List.getLast?_eq_some_getLast hne] at h
      exact absurd (Option.some.inj h) (Nat.getLast_digit_ne_zero b hn)
    · rw [value_eq_ofDigits, List.reverse_reverse, Nat.ofDigits_digits]

/-- A number has one numeral. -/
theorem isNumeral_iff (hb : 1 < b) : IsNumeral b n ds ↔ ds = numeral b n := by
  refine ⟨fun h => ?_, fun h => h ▸ isNumeral_numeral hb n⟩
  obtain ⟨hne, hlt, hhead, hvalue⟩ := h
  rw [value_eq_ofDigits] at hvalue
  by_cases hz : ds.head? = some 0
  · rw [hhead hz] at hvalue ⊢
    rw [← hvalue]
    exact numeral_zero.symm
  · have hlast : ∀ h : ds.reverse ≠ [], ds.reverse.getLast h ≠ 0 := by
      intro h h0
      rw [← List.getLast?_reverse, List.getLast?_eq_some_getLast h, h0] at hz
      exact hz rfl
    have hdigits := Nat.digits_ofDigits b hb ds.reverse
      (fun d hd => hlt d (List.mem_reverse.mp hd)) hlast
    rw [hvalue] at hdigits
    have hn : n ≠ 0 := fun hn => hne (by simpa [hn] using hdigits)
    rw [numeral_of_ne_zero hn, hdigits, List.reverse_reverse]

/-- A number below a power of the base has few digits. -/
theorem length_numeral_le {k : ℕ} (hb : 1 < b) (hk : 0 < k) (h : n < b ^ k) :
    (numeral b n).length ≤ k := by
  by_cases hn : n = 0
  · rw [hn, numeral_zero]
    exact hk
  · rw [numeral_of_ne_zero hn, List.length_reverse]
    by_contra hlen
    have hle := Nat.base_pow_length_digits_le b n hb hn
    have hpow : b ^ (k + 1) ≤ b ^ (Nat.digits b n).length := Nat.pow_le_pow_right (by omega) (by omega)
    rw [pow_succ, Nat.mul_comm] at hpow
    have := Nat.le_of_mul_le_mul_left (hpow.trans hle) (by omega)
    omega

/-! ## Buffers -/

section Buffers

variable {α : Type*} {buffer f : ℕ → α} {s t : List α} {i k : ℕ} {x : α}

/-- The buffer with some characters written over its start. -/
def fill (buffer : ℕ → α) (s : List α) : ℕ → α := fun i => s.getD i (buffer i)

theorem fill_of_lt (h : i < s.length) : fill buffer s i = s[i] := by
  rw [fill, List.getD_eq_getElem _ _ h]

theorem fill_of_le (h : s.length ≤ i) : fill buffer s i = buffer i := List.getD_eq_default _ _ h

@[simp] theorem fill_nil : fill buffer [] = buffer := rfl

/-- One more character in a buffer. -/
theorem update_fill : Function.update (fill buffer s) s.length x = fill buffer (s ++ [x]) := by
  funext i
  rcases Nat.lt_trichotomy i s.length with hi | rfl | hi
  · rw [Function.update_of_ne hi.ne, fill_of_lt hi, fill_of_lt (by simp; omega),
      List.getElem_append_left hi]
  · rw [Function.update_self, fill_of_lt (by simp)]
    simp
  · rw [Function.update_of_ne hi.ne', fill_of_le hi.le,
      fill_of_le (by simpa using Nat.succ_le_of_lt hi)]

/-- One more character at an index that is the length of what is there. -/
theorem update_fill_of_length (h : s.length = k) :
    Function.update (fill buffer s) k x = fill buffer (s ++ [x]) := h ▸ update_fill

/-- The first character in a buffer. -/
theorem update_zero : Function.update buffer 0 x = fill buffer [x] := update_fill (s := [])

/-- The buffer tells apart texts of one length. -/
theorem fill_injective {buffer' : ℕ → α} (hlen : s.length = t.length)
    (h : fill buffer s = fill buffer' t) : s = t := by
  refine List.ext_getElem hlen fun i hs ht => ?_
  calc s[i] = fill buffer s i := (fill_of_lt hs).symm
    _ = fill buffer' t i := congrFun h i
    _ = t[i] := fill_of_lt ht

/-- The characters at two indices are exchanged, and the indices move towards each other until they
meet. -/
def swapLoop (f : ℕ → α) : ℕ → ℕ → ℕ → ℕ → α
  | 0, _, _ => f
  | fuel + 1, i, j =>
    if i < j then swapLoop (Function.update (Function.update f i (f j)) j (f i)) fuel (i + 1) (j - 1)
    else f

/-- The loop turns around what is between the indices. -/
theorem swapLoop_apply : ∀ (fuel i j : ℕ) (f : ℕ → α), j < i + fuel → ∀ k,
    swapLoop f fuel i j k = if i ≤ k ∧ k ≤ j then f (i + j - k) else f k
  | 0, i, j, f, h, k => by
    rw [swapLoop, if_neg (by omega)]
  | fuel + 1, i, j, f, h, k => by
    rw [swapLoop]
    by_cases hij : i < j
    · rw [if_pos hij, swapLoop_apply fuel (i + 1) (j - 1) _ (by omega)]
      -- The two ends have been exchanged, and the part between them is turned around.
      rcases Nat.lt_trichotomy k i with hk | rfl | hk
      · rw [if_neg (by omega), if_neg (by omega), Function.update_of_ne (by omega),
          Function.update_of_ne (by omega)]
      · rw [if_neg (by omega), if_pos (by omega), Function.update_of_ne (by omega),
          Function.update_self, Nat.add_sub_cancel_left]
      · rcases Nat.lt_trichotomy k j with hk' | rfl | hk'
        · rw [if_pos (by omega), if_pos (by omega), Function.update_of_ne (by omega),
            Function.update_of_ne (by omega)]
          congr 1
          omega
        · rw [if_neg (by omega), if_pos (by omega), Function.update_self, Nat.add_sub_cancel]
        · rw [if_neg (by omega), if_neg (by omega), Function.update_of_ne (by omega),
            Function.update_of_ne (by omega)]
    · rw [if_neg hij]
      split_ifs with hk
      · congr 1
        omega
      · rfl

/-- The loop turns around the characters that a buffer starts with. -/
theorem swapLoop_fill : swapLoop (fill buffer s) s.length 0 (s.length - 1) = fill buffer s.reverse := by
  funext k
  rcases s.eq_nil_or_concat with rfl | ⟨s', x, hs⟩
  · rfl
  have hpos : 0 < s.length := by simp [hs]
  rw [swapLoop_apply _ _ _ _ (by omega)]
  by_cases hk : k < s.length
  · rw [if_pos (by omega), fill_of_lt (by omega), fill_of_lt (by simpa using hk), List.getElem_reverse]
    congr 1
    omega
  · rw [if_neg (by omega), fill_of_le (by omega), fill_of_le (by simpa using Nat.not_lt.mp hk)]

end Buffers

end Nascent.Numeral
