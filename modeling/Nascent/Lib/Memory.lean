import Nascent.Lib.Bytes

/-!
# A memory of bytes with 64-bit addresses

A memory is a function from addresses to bytes, and addresses wrap around. `read` and `write` access
the word of eight bytes at an address, aligned or not, in little-endian order. Two words are `Apart`
where they share no byte; a write then leaves the other word.

`Holds m sp ws` says that the words `ws` lie one behind the other from `sp` upwards, as they do on a
stack that grows downwards. A push adds a word in front (`Holds.push`), memory that changes below
`sp` only does not matter (`Holds.congr`), and a copy of the words has them too (`Holds.copyWords`).
-/

namespace Nascent.Memory

open Nascent.Bytes (Byte)

/-- An address, or a word. -/
abbrev Word64 := BitVec 64

/-- A memory, from addresses to bytes. -/
abbrev Mem := Word64 → Byte

variable {m m' : Mem} {a b sp v : Word64} {ws : List Word64}

/-- The word at an address. -/
def read (m : Mem) (a : Word64) : Word64 :=
  m (a + 7) ++ m (a + 6) ++ m (a + 5) ++ m (a + 4) ++ m (a + 3) ++ m (a + 2) ++ m (a + 1) ++ m a

/-- The memory with the word at an address set. -/
def write (m : Mem) (a v : Word64) : Mem := fun x =>
  if (x - a).toNat < 8 then v.extractLsb' (8 * (x - a).toNat) 8 else m x

/-- The words at two addresses share no byte. -/
def Apart (a b : Word64) : Prop := 8 ≤ (b - a).toNat ∧ 8 ≤ (a - b).toNat

/-- Words of the same bytes are the same. -/
theorem read_eq_read (h : ∀ k : Word64, k.toNat < 8 → m' (b + k) = m (a + k)) :
    read m' b = read m a := by
  have h0 : m' b = m a := by simpa using h 0 (by decide)
  simp only [read, h 7 (by decide), h 6 (by decide), h 5 (by decide), h 4 (by decide),
    h 3 (by decide), h 2 (by decide), h 1 (by decide), h0]

/-- A word only depends on its own bytes. -/
theorem read_congr (h : ∀ x, (x - a).toNat < 8 → m' x = m x) : read m' a = read m a := by
  refine read_eq_read fun k hk => h _ ?_
  rw [BitVec.add_comm, BitVec.add_sub_cancel]
  exact hk

/-- A word reads back as it was written. -/
@[simp] theorem read_write_self : read (write m a v) a = v := by
  have hk : ∀ k : Word64, k.toNat < 8 →
      write m a v (a + k) = v.extractLsb' (8 * k.toNat) 8 := fun k hk => by
    rw [write, BitVec.add_comm, BitVec.add_sub_cancel, if_pos hk]
  have h0 : write m a v a = v.extractLsb' 0 8 := by
    rw [write, BitVec.sub_self, if_pos (by decide)]
    rfl
  rw [read, hk 7 (by decide), hk 6 (by decide), hk 5 (by decide), hk 4 (by decide),
    hk 3 (by decide), hk 2 (by decide), hk 1 (by decide), h0]
  exact Bytes.append_bytes v

/-- A byte outside the word that is written stays. -/
theorem write_of_le {x : Word64} (h : 8 ≤ (x - a).toNat) : write m a v x = m x :=
  if_neg (Nat.not_lt.mpr h)

/-- A write leaves a word that it is apart from. -/
theorem read_write_of_apart (h : Apart a b) : read (write m a v) b = read m b := by
  obtain ⟨h1, h2⟩ := h
  refine read_congr fun x hx => write_of_le ?_
  bv_omega

/-! ## Stacks -/

/-- The words lie one behind the other from an address upwards. -/
def Holds (m : Mem) : Word64 → List Word64 → Prop
  | _, [] => True
  | sp, w :: ws => read m sp = w ∧ Holds m (sp + 8) ws

/-- The words on a stack only depend on their own bytes. -/
theorem Holds.congr : ∀ {sp : Word64} {ws : List Word64}, Holds m sp ws →
    8 * ws.length < 2 ^ 64 → (∀ x, (x - sp).toNat < 8 * ws.length → m' x = m x) → Holds m' sp ws
  | _, [], _, _, _ => trivial
  | sp, w :: ws, h, hlen, hsame => by
    rw [List.length_cons] at hlen hsame
    refine ⟨(read_congr fun x hx => hsame x (by omega)).trans h.1, h.2.congr (by omega)
      fun x hx => hsame x ?_⟩
    bv_omega

/-- One of the words. -/
theorem Holds.get {i : ℕ} (h : Holds m sp ws) (hi : i < ws.length) :
    read m (sp + BitVec.ofNat 64 (8 * i)) = ws[i] := by
  induction ws generalizing sp i with
  | nil => exact absurd hi (Nat.not_lt_zero i)
  | cons w ws ih =>
    cases i with
    | zero => simpa using h.1
    | succ i =>
      have hsp : sp + BitVec.ofNat 64 (8 * (i + 1)) = sp + 8 + BitVec.ofNat 64 (8 * i) := by
        rw [Nat.mul_succ, Nat.add_comm, BitVec.ofNat_add, BitVec.add_assoc]
        rfl
      rw [hsp]
      exact ih h.2 (Nat.lt_of_succ_lt_succ hi)

/-- The words behind some others. -/
theorem Holds.right {vs : List Word64} (h : Holds m sp (ws ++ vs)) :
    Holds m (sp + 8 * BitVec.ofNat 64 ws.length) vs := by
  induction ws generalizing sp with
  | nil => simpa using h
  | cons w ws ih =>
    have hsp : sp + 8 + 8 * BitVec.ofNat 64 ws.length = sp + 8 * BitVec.ofNat 64 (w :: ws).length := by
      rw [List.length_cons]
      bv_omega
    rw [← hsp]
    exact ih h.2

/-- One of the words is written. -/
theorem Holds.set {vs : List Word64} {w : Word64} (h : Holds m sp (ws ++ w :: vs))
    (hlen : 8 * (ws.length + vs.length + 1) < 2 ^ 64) :
    Holds (write m (sp + 8 * BitVec.ofNat 64 ws.length) v) sp (ws ++ v :: vs) := by
  induction ws generalizing sp with
  | nil =>
    have hsp : sp + 8 * BitVec.ofNat 64 ([] : List Word64).length = sp := by simp
    rw [hsp]
    refine ⟨read_write_self, h.2.congr ?_ fun x hx => write_of_le ?_⟩
    · rw [List.length_nil] at hlen
      omega
    · rw [List.length_nil] at hlen
      bv_omega
  | cons u ws ih =>
    rw [List.length_cons] at hlen
    have hsp : sp + 8 * BitVec.ofNat 64 (u :: ws).length = sp + 8 + 8 * BitVec.ofNat 64 ws.length := by
      rw [List.length_cons]
      bv_omega
    rw [hsp]
    refine ⟨(read_write_of_apart ⟨?_, ?_⟩).trans h.1, ih h.2 (by omega)⟩ <;> bv_omega

/-- A push adds a word below the others. -/
theorem Holds.push (h : Holds m sp ws) (hlen : 8 * ws.length + 8 < 2 ^ 64) :
    Holds (write m (sp - 8) v) (sp - 8) (v :: ws) := by
  refine ⟨read_write_self, ?_⟩
  rw [BitVec.sub_add_cancel]
  refine h.congr (by omega) fun x hx => write_of_le ?_
  bv_omega

/-! ## Copies -/

/-- Words are copied from one address to another, one after the other. -/
def copyWords (m : Mem) (src dst : Word64) (n : ℕ) : Mem :=
  (List.range n).foldl
    (fun m i => write m (dst + 8 * BitVec.ofNat 64 i) (read m (src + 8 * BitVec.ofNat 64 i))) m

variable {src dst x : Word64} {n i j : ℕ}

theorem copyWords_succ : copyWords m src dst (n + 1) =
    write (copyWords m src dst n) (dst + 8 * BitVec.ofNat 64 n)
      (read (copyWords m src dst n) (src + 8 * BitVec.ofNat 64 n)) := by
  unfold copyWords
  rw [List.range_succ, List.foldl_append]
  rfl

/-- The rest of memory stays. -/
theorem copyWords_of_le (hx : 8 * n ≤ (x - dst).toNat) : copyWords m src dst n x = m x := by
  induction n with
  | zero => rfl
  | succ n ih =>
    have hbefore : copyWords m src dst n x = m x := ih (by omega)
    have hlast : 8 ≤ (x - (dst + 8 * BitVec.ofNat 64 n)).toNat := by
      bv_omega
    rw [copyWords_succ, write_of_le hlast, hbefore]

/-- Every word of the destination is that of the source, where the two share no byte. -/
theorem read_copyWords (hn : 8 * n < 2 ^ 64) (hi : i < n)
    (hapart : ∀ x, (x - dst).toNat < 8 * n → 8 * n ≤ (x - src).toNat) :
    read (copyWords m src dst n) (dst + 8 * BitVec.ofNat 64 i) = read m (src + 8 * BitVec.ofNat 64 i) := by
  have hsource : ∀ k ≤ n, ∀ i < n, read (copyWords m src dst k) (src + 8 * BitVec.ofNat 64 i) =
      read m (src + 8 * BitVec.ofNat 64 i) := by
    intro k hk i hi
    refine read_congr fun x hx => copyWords_of_le ?_
    by_contra hlt
    have := hapart x (by omega)
    bv_omega
  have hfirst : ∀ k ≤ n, i < k → read (copyWords m src dst k) (dst + 8 * BitVec.ofNat 64 i) =
      read m (src + 8 * BitVec.ofNat 64 i) := by
    intro k hk hik
    induction k with
    | zero => exact absurd hik (Nat.not_lt_zero i)
    | succ k ih =>
      rw [copyWords_succ]
      rcases Nat.lt_succ_iff_lt_or_eq.mp hik with hlt | rfl
      · have hne : Apart (dst + 8 * BitVec.ofNat 64 k) (dst + 8 * BitVec.ofNat 64 i) := by
          constructor <;> bv_omega
        rw [read_write_of_apart hne]
        exact ih (by omega) hlt
      · rw [read_write_self]
        exact hsource i (by omega) i (by omega)
  exact hfirst n (Nat.le_refl n) hi

/-- Words that lie one behind the other do so in the copy. -/
theorem Holds.copyWords (h : Holds m (src + 8 * BitVec.ofNat 64 j) ws) (hj : j + ws.length ≤ n)
    (hn : 8 * n < 2 ^ 64) (hapart : ∀ x, (x - dst).toNat < 8 * n → 8 * n ≤ (x - src).toNat) :
    Holds (copyWords m src dst n) (dst + 8 * BitVec.ofNat 64 j) ws := by
  induction ws generalizing j with
  | nil => trivial
  | cons w ws ih =>
    rw [List.length_cons] at hj
    have hnext : ∀ a : Word64, a + 8 * BitVec.ofNat 64 j + 8 = a + 8 * BitVec.ofNat 64 (j + 1) := by
      intro a
      bv_omega
    refine ⟨(read_copyWords hn (by omega) hapart).trans h.1, ?_⟩
    have hrest := h.2
    rw [hnext] at hrest ⊢
    exact ih hrest (by omega)

end Nascent.Memory
