import Mathlib.Data.BitVec
import Mathlib.Logic.Function.Basic

/-!
# Blocks of bytes read and written as 64-bit words

A block of memory is a function from offsets to bytes. `word` reads the eight bytes of a word in
little-endian order and `setWord` writes them. Reading a word gives back what was last written to
it (`word_setWord_self`), and a write leaves the other words (`word_setWord_of_ne`): these two are
all that a table kept in such a block needs.
-/

namespace Nascent.Bytes

/-- A byte. -/
abbrev Byte := BitVec 8

/-- A block of memory, from offsets to bytes. -/
abbrev Block := ℕ → Byte

/-- The block of zeros. -/
def zero : Block := fun _ => 0

/-- The 64-bit word `i` of a block: its bytes `8 i` to `8 i + 7`, little-endian. -/
def word (m : Block) (i : ℕ) : BitVec 64 :=
  m (8 * i + 7) ++ m (8 * i + 6) ++ m (8 * i + 5) ++ m (8 * i + 4) ++ m (8 * i + 3) ++
    m (8 * i + 2) ++ m (8 * i + 1) ++ m (8 * i)

/-- The block with its word `i` set to `v`. -/
def setWord (m : Block) (i : ℕ) (v : BitVec 64) : Block :=
  fun o => if o / 8 = i then v.extractLsb' (8 * (o % 8)) 8 else m o

/-- Two adjacent bit ranges of a word, concatenated, are one range. -/
theorem extractLsb'_append_adjacent {w : ℕ} (v : BitVec w) (s n m : ℕ) :
    v.extractLsb' (s + m) n ++ v.extractLsb' s m = v.extractLsb' s (n + m) := by
  apply BitVec.eq_of_getLsbD_eq
  intro k hk
  simp only [BitVec.getLsbD_append, BitVec.getLsbD_extractLsb']
  split_ifs with h
  · simp [h, show k < n + m by omega]
  · simp [show k - m < n by omega, hk, show s + m + (k - m) = s + k by omega]

/-- A 64-bit word is the concatenation of its eight bytes. -/
theorem append_bytes (v : BitVec 64) :
    v.extractLsb' 56 8 ++ v.extractLsb' 48 8 ++ v.extractLsb' 40 8 ++ v.extractLsb' 32 8 ++
      v.extractLsb' 24 8 ++ v.extractLsb' 16 8 ++ v.extractLsb' 8 8 ++ v.extractLsb' 0 8 = v := by
  have h := extractLsb'_append_adjacent v
  have h6 : v.extractLsb' 56 8 ++ v.extractLsb' 48 8 = v.extractLsb' 48 (8 + 8) := h 48 8 8
  have h5 : v.extractLsb' 48 (8 + 8) ++ v.extractLsb' 40 8 = v.extractLsb' 40 24 := h 40 16 8
  have h4 : v.extractLsb' 40 24 ++ v.extractLsb' 32 8 = v.extractLsb' 32 32 := h 32 24 8
  have h3 : v.extractLsb' 32 32 ++ v.extractLsb' 24 8 = v.extractLsb' 24 40 := h 24 32 8
  have h2 : v.extractLsb' 24 40 ++ v.extractLsb' 16 8 = v.extractLsb' 16 48 := h 16 40 8
  have h1 : v.extractLsb' 16 48 ++ v.extractLsb' 8 8 = v.extractLsb' 8 56 := h 8 48 8
  have h0 : v.extractLsb' 8 56 ++ v.extractLsb' 0 8 = v.extractLsb' 0 64 := h 0 56 8
  rw [h6, h5, h4, h3, h2, h1, h0, BitVec.extractLsb'_eq_self]

/-- A word reads back as it was written. -/
@[simp] theorem word_setWord_self (m : Block) (i : ℕ) (v : BitVec 64) :
    word (setWord m i v) i = v := by
  have hdiv : ∀ k, k < 8 → (8 * i + k) / 8 = i ∧ (8 * i + k) % 8 = k := by
    intro k hk
    omega
  have h0 := hdiv 0 (by omega)
  rw [Nat.add_zero] at h0
  simp only [word, setWord, hdiv _ (show 1 < 8 by omega), hdiv _ (show 2 < 8 by omega),
    hdiv _ (show 3 < 8 by omega), hdiv _ (show 4 < 8 by omega), hdiv _ (show 5 < 8 by omega),
    hdiv _ (show 6 < 8 by omega), hdiv _ (show 7 < 8 by omega), h0, if_true]
  exact append_bytes v

/-- A write to one word leaves the others. -/
theorem word_setWord_of_ne (m : Block) {i j : ℕ} (v : BitVec 64) (h : j ≠ i) :
    word (setWord m i v) j = word m j := by
  have hdiv : ∀ k, k < 8 → (8 * j + k) / 8 ≠ i := by
    intro k hk
    omega
  have h0 := hdiv 0 (by omega)
  rw [Nat.add_zero] at h0
  simp only [word, setWord, hdiv _ (show 1 < 8 by omega), hdiv _ (show 2 < 8 by omega),
    hdiv _ (show 3 < 8 by omega), hdiv _ (show 4 < 8 by omega), hdiv _ (show 5 < 8 by omega),
    hdiv _ (show 6 < 8 by omega), hdiv _ (show 7 < 8 by omega), h0, if_false]

/-- The words of the block of zeros are zero. -/
@[simp] theorem word_zero (i : ℕ) : word zero i = 0 := by
  simp only [word, zero]
  decide

end Nascent.Bytes
