import Nascent.Lib.Memory

/-!
# Bytes and strings in a memory

`Lies m a bs` says that the bytes `bs` lie one behind the other from the address `a` upwards. A list
of two parts lies where its parts lie, the second behind the first (`lies_append`).

A pointer to characters is what it points to, the sequence of the bytes from there on (`Str`). The
string ends with the first zero byte: `IsString p s` says that the string at `p` is `s`, whatever
follows its end.
-/

namespace Nascent.Strings

open Nascent.Bytes (Byte)
open Nascent.Memory

variable {m : Mem} {a b : Word64} {bs cs s t : List Byte} {i : ℕ}

/-- The bytes lie one behind the other from an address upwards. -/
def Lies (m : Mem) : Word64 → List Byte → Prop
  | _, [] => True
  | a, b :: bs => m a = b ∧ Lies m (a + 1) bs

@[simp] theorem lies_nil : Lies m a [] := trivial

@[simp] theorem lies_cons {b : Byte} : Lies m a (b :: bs) ↔ m a = b ∧ Lies m (a + 1) bs := Iff.rfl

/-- Addresses count on. -/
theorem add_ofNat_succ (a : Word64) (n : ℕ) :
    a + 1 + BitVec.ofNat 64 n = a + BitVec.ofNat 64 (n + 1) := by
  rw [BitVec.ofNat_add, BitVec.add_assoc]
  exact congrArg (a + ·) (BitVec.add_comm _ _)

/-- Addresses count on. -/
theorem add_ofNat_add (a : Word64) (n k : ℕ) :
    a + BitVec.ofNat 64 n + BitVec.ofNat 64 k = a + BitVec.ofNat 64 (n + k) := by
  rw [BitVec.add_assoc, BitVec.ofNat_add]

/-- Two lists of bytes lie one behind the other. -/
theorem lies_append :
    Lies m a (bs ++ cs) ↔ Lies m a bs ∧ Lies m (a + BitVec.ofNat 64 bs.length) cs := by
  induction bs generalizing a with
  | nil => simp
  | cons b bs ih =>
    rw [List.cons_append, lies_cons, lies_cons, ih, and_assoc, List.length_cons, add_ofNat_succ]

/-- One of the bytes that lie in a memory. -/
theorem Lies.get (h : Lies m a bs) (hi : i < bs.length) : m (a + BitVec.ofNat 64 i) = bs[i] := by
  induction bs generalizing a i with
  | nil => exact absurd hi (Nat.not_lt_zero i)
  | cons b bs ih =>
    cases i with
    | zero => simpa using h.1
    | succ i =>
      rw [← add_ofNat_succ]
      exact ih h.2 (Nat.lt_of_succ_lt_succ hi)

/-- Bytes that are there one by one lie in the memory. -/
theorem lies_of_get (h : ∀ i (hi : i < bs.length), m (a + BitVec.ofNat 64 i) = bs[i]) :
    Lies m a bs := by
  induction bs generalizing a with
  | nil => trivial
  | cons b bs ih =>
    refine ⟨by simpa using h 0 (Nat.succ_pos _), ih fun i hi => ?_⟩
    rw [add_ofNat_succ]
    exact h (i + 1) (Nat.succ_lt_succ hi)

/-- The memory that has some bytes at an address, and is zero elsewhere. -/
def place (a : Word64) (bs : List Byte) : Mem := fun x => bs.getD (x - a).toNat 0

/-- The bytes lie where they have been placed. -/
theorem lies_place (h : bs.length ≤ 2 ^ 64) : Lies (place a bs) a bs := by
  refine lies_of_get fun i hi => ?_
  have hsub : (a + BitVec.ofNat 64 i - a).toNat = i := by
    rw [BitVec.add_comm, BitVec.add_sub_cancel, BitVec.toNat_ofNat]
    omega
  rw [place, hsub, List.getD_eq_getElem?_getD, List.getElem?_eq_getElem hi, Option.getD_some]

/-! ## Strings -/

/-- What a pointer to characters points to: the bytes from there on. -/
abbrev Str := ℕ → Byte

/-- The bytes from an address on. -/
def strAt (m : Mem) (a : Word64) : Str := fun i => m (a + BitVec.ofNat 64 i)

/-- A buffer that has some bytes, and zeros behind them. -/
def strOf (s : List Byte) : Str := fun i => s.getD i 0

/-- One more byte in a buffer. -/
theorem update_strOf {x : Byte} : Function.update (strOf s) s.length x = strOf (s ++ [x]) := by
  funext i
  rw [strOf, List.getD_eq_getElem?_getD]
  rcases Nat.lt_trichotomy i s.length with hi | rfl | hi
  · rw [Function.update_of_ne hi.ne, List.getElem?_append_left hi, strOf, List.getD_eq_getElem?_getD]
  · rw [Function.update_self, List.getElem?_concat_length, Option.getD_some]
  · rw [Function.update_of_ne hi.ne', List.getElem?_eq_none (by simpa using Nat.succ_le_of_lt hi), strOf,
      List.getD_eq_getElem?_getD, List.getElem?_eq_none hi.le]

/-- The string that a pointer points to. -/
structure IsString (p : Str) (s : List Byte) : Prop where
  /-- The bytes of the string are there. -/
  get : ∀ i (hi : i < s.length), p i = s[i]
  /-- They are followed by a zero byte. -/
  get_end : p s.length = 0
  /-- None of them is the end. -/
  ne_zero : (0 : Byte) ∉ s

/-- The bytes of a string are not zero. -/
theorem IsString.get_ne {p : Str} (h : IsString p s) (hi : i < s.length) : p i ≠ 0 := by
  rw [h.get i hi]
  exact fun h0 => h.ne_zero (h0 ▸ List.getElem_mem hi)

/-- The string that a buffer holds. -/
theorem isString_strOf (h : (0 : Byte) ∉ s) : IsString (strOf s) s := by
  refine ⟨fun i hi => ?_, ?_, h⟩
  · rw [strOf, List.getD_eq_getElem?_getD, List.getElem?_eq_getElem hi, Option.getD_some]
  · rw [strOf, List.getD_eq_getElem?_getD, List.getElem?_eq_none le_rfl, Option.getD_none]

/-- A string is what a buffer of it has up to the zero byte. -/
theorem isString_iff {p : Str} :
    IsString p s ↔ (∀ j ≤ s.length, p j = strOf s j) ∧ (0 : Byte) ∉ s := by
  constructor
  · intro h
    have hs := isString_strOf h.ne_zero
    refine ⟨fun j hj => ?_, h.ne_zero⟩
    rcases Nat.lt_or_eq_of_le hj with hj | rfl
    · rw [h.get j hj, hs.get j hj]
    · rw [h.get_end, hs.get_end]
  · rintro ⟨h, h0⟩
    have hs := isString_strOf h0
    exact ⟨fun j hj => (h j hj.le).trans (hs.get j hj), (h _ le_rfl).trans hs.get_end, h0⟩

/-- A string that lies in a memory. -/
theorem isString_strAt (h : Lies m a (s ++ [0])) (hs : (0 : Byte) ∉ s) : IsString (strAt m a) s :=
  ⟨fun _ hi => (lies_append.mp h).1.get hi, (lies_append.mp h).2.1, hs⟩

/-! ## Loops over a string -/

section Scan

variable {σ : Type*} {f : σ → Byte → σ} {p : Str}

/-- A loop over the bytes of a string up to its end, from the byte `i` on. -/
def scan (f : σ → Byte → σ) (p : Str) : ℕ → ℕ → σ → Option σ
  | 0, _, _ => none
  | fuel + 1, i, x => if p i = 0 then some x else scan f p fuel (i + 1) (f x (p i))

/-- The loop goes over the bytes that are left. -/
theorem scan_eq_drop (h : IsString p s) : ∀ {fuel i : ℕ} {x : σ}, i ≤ s.length → s.length < i + fuel →
    scan f p fuel i x = some ((s.drop i).foldl f x)
  | 0, i, x, hi, hfuel => absurd hi (Nat.not_le.mpr hfuel)
  | fuel + 1, i, x, hi, hfuel => by
    rw [scan]
    rcases Nat.lt_or_eq_of_le hi with hlt | rfl
    · rw [if_neg (h.get_ne hlt), scan_eq_drop h hlt (by omega), List.drop_eq_getElem_cons hlt,
        List.foldl_cons, h.get i hlt]
    · rw [if_pos h.get_end, List.drop_length, List.foldl_nil]

/-- The loop goes over a string. -/
theorem scan_eq {fuel : ℕ} {x : σ} (h : IsString p s) (hfuel : s.length < fuel) :
    scan f p fuel 0 x = some (s.foldl f x) := by
  rw [scan_eq_drop h (Nat.zero_le _) (by omega), List.drop_zero]

end Scan

/-! ## Copies -/

/-- The memory with the first bytes of a string copied to an address. -/
def copied (m : Mem) (s : Str) (a : Word64) (n : ℕ) : Mem := fun x =>
  if (x - a).toNat < n then s (x - a).toNat else m x

/-- The distance of two bytes from an address on. -/
theorem toNat_offset_sub {k : ℕ} (hk : k < 2 ^ 64) (hi : i < 2 ^ 64) :
    (a + BitVec.ofNat 64 i - (a + BitVec.ofNat 64 k)).toNat =
      if k ≤ i then i - k else 2 ^ 64 + i - k := by
  have hsub : a + BitVec.ofNat 64 i - (a + BitVec.ofNat 64 k) =
      BitVec.ofNat 64 i - BitVec.ofNat 64 k := by
    rw [← BitVec.sub_sub, BitVec.add_comm a, BitVec.add_sub_cancel]
  rw [hsub, BitVec.toNat_sub, BitVec.toNat_ofNat, BitVec.toNat_ofNat, Nat.mod_eq_of_lt hk,
    Nat.mod_eq_of_lt hi]
  split <;> omega

/-- The bytes from an address on, after a copy to some of them. -/
theorem strAt_copied {p : Str} {k n : ℕ} (hk : k + n ≤ 2 ^ 63) (hi : i < 2 ^ 63) :
    strAt (copied m p (a + BitVec.ofNat 64 k) n) a i =
      if k ≤ i ∧ i < k + n then p (i - k) else strAt m a i := by
  rw [strAt, copied, toNat_offset_sub (by omega) (by omega)]
  by_cases hki : k ≤ i
  · rw [if_pos hki]
    by_cases hin : i < k + n
    · rw [if_pos (by omega), if_pos ⟨hki, hin⟩]
    · rw [if_neg (by omega), if_neg fun h => hin h.2, strAt]
  · rw [if_neg hki, if_neg (by omega), if_neg fun h => hki h.1, strAt]

/-- A word depends on eight of the bytes from an address on. -/
theorem read_congr_strAt {m' : Mem} {b : Word64} {k k' : ℕ}
    (h : ∀ j < 8, strAt m' b (k' + j) = strAt m a (k + j)) :
    read m' (b + BitVec.ofNat 64 k') = read m (a + BitVec.ofNat 64 k) := by
  refine read_eq_read fun j hj => ?_
  have hoffset := h j.toNat hj
  rwa [strAt, strAt, ← add_ofNat_add, ← add_ofNat_add, BitVec.ofNat_toNat, BitVec.setWidth_eq] at hoffset

/-- A word that was copied reads back. -/
theorem read_of_bytes {v : Word64} {k : ℕ}
    (h : ∀ j < 8, strAt m a (k + j) = v.extractLsb' (8 * j) 8) : read m (a + BitVec.ofNat 64 k) = v := by
  rw [read_congr_strAt (m := write m a v) (a := a) (k := 0), BitVec.add_zero, read_write_self]
  intro j hj
  rw [h j hj, Nat.zero_add, strAt, write, BitVec.add_comm, BitVec.add_sub_cancel, BitVec.toNat_ofNat,
    Nat.mod_eq_of_lt (by omega), if_pos hj]

/-- A word of zeros. -/
theorem read_of_zero {k : ℕ} (h : ∀ j < 8, strAt m a (k + j) = 0) :
    read m (a + BitVec.ofNat 64 k) = 0 :=
  read_of_bytes fun j hj => (h j hj).trans BitVec.extractLsb'_zero.symm

/-- A string does not fill the memory. -/
theorem length_lt_of_strAt (h : IsString (strAt m a) s) : s.length < 2 ^ 64 := by
  by_contra hlen
  -- The end would be one of the bytes of the string.
  refine h.get_ne (i := s.length % 2 ^ 64) (by omega) ?_
  have hmod : BitVec.ofNat 64 (s.length % 2 ^ 64) = BitVec.ofNat 64 s.length :=
    BitVec.eq_of_toNat_eq (by simp)
  rw [strAt, hmod]
  exact h.get_end

end Nascent.Strings
