import Nascent.Lib.Memory

/-!
# Pieces of a buffer

A piece of a memory is an address and a number of bytes. Pieces tile a buffer when the first one starts
where the buffer does, every other one starts where the one in front of it stops, and the last one stops
where the buffer does (`Tiles`). A byte of the memory is then in one of the pieces, and in no other one,
exactly if it is a byte of the buffer (`Tiles.existsUnique`).
-/

namespace Nascent.Tiling

open Memory (Word64)

variable {a x : Word64} {n k : ℕ} {ps : List (Word64 × ℕ)}

/-- The pieces tile the `n` bytes from an address on. -/
def Tiles : Word64 → ℕ → List (Word64 × ℕ) → Prop
  | _, n, [] => n = 0
  | a, n, p :: ps => p.1 = a ∧ 0 < p.2 ∧ p.2 ≤ n ∧ Tiles (a + BitVec.ofNat 64 p.2) (n - p.2) ps

/-- A byte is in a piece. -/
def Within (p : Word64 × ℕ) (x : Word64) : Prop := (x - p.1).toNat < p.2

/-- Another piece behind a buffer. -/
theorem Tiles.concat (h : Tiles a n ps) (hk : 0 < k) :
    Tiles a (n + k) (ps ++ [(a + BitVec.ofNat 64 n, k)]) := by
  induction ps generalizing a n with
  | nil =>
    have hn : n = 0 := h
    subst hn
    exact ⟨BitVec.add_zero a, hk, Nat.le_add_left _ _, by simp [Tiles]⟩
  | cons p ps ih =>
    obtain ⟨hp, hpos, hle, hrest⟩ := h
    have hsum : a + BitVec.ofNat 64 n = a + BitVec.ofNat 64 p.2 + BitVec.ofNat 64 (n - p.2) := by
      rw [BitVec.add_assoc, ← BitVec.ofNat_add, Nat.add_sub_cancel' hle]
    refine ⟨hp, hpos, Nat.le_add_right_of_le hle, ?_⟩
    rw [hsum, Nat.sub_add_comm hle]
    exact ih hrest

/-- Pieces of one size. -/
theorem tiles_range (hk : 0 < k) :
    Tiles a (k * n) ((List.range n).map fun i => (a + BitVec.ofNat 64 (k * i), k)) := by
  induction n with
  | zero => exact Nat.mul_zero k
  | succ n ih =>
    rw [List.range_succ, List.map_append, Nat.mul_succ]
    exact ih.concat hk

/-- The bytes of a buffer, cut in two. -/
theorem within_cut (hk : k ≤ n) (hn : n ≤ 2 ^ 64) :
    (Within (a, n) x ↔ Within (a, k) x ∨ Within (a + BitVec.ofNat 64 k, n - k) x) ∧
      ¬ (Within (a, k) x ∧ Within (a + BitVec.ofNat 64 k, n - k) x) := by
  unfold Within
  dsimp only
  have hsub : x - (a + BitVec.ofNat 64 k) = x - a - BitVec.ofNat 64 k := (BitVec.sub_sub _ _ _).symm
  rw [hsub]
  generalize x - a = y
  have hy := y.isLt
  rw [BitVec.toNat_sub, BitVec.toNat_ofNat]
  constructor <;> omega

/-- A byte is in a single piece of a tiled buffer if it is in the buffer, and in none otherwise. -/
theorem Tiles.existsUnique (h : Tiles a n ps) (hn : n ≤ 2 ^ 64) (x : Word64) :
    (Within (a, n) x → ∃! k : ℕ, ∃ p ∈ ps[k]?, Within p x) ∧
      (¬ Within (a, n) x → ∀ p ∈ ps, ¬ Within p x) := by
  induction ps generalizing a n with
  | nil =>
    have h0 : n = 0 := h
    subst h0
    exact ⟨fun hx => absurd hx (Nat.not_lt_zero _), fun _ p hp => absurd hp List.not_mem_nil⟩
  | cons p ps ih =>
    obtain ⟨hp, hpos, hle, hrest⟩ := h
    obtain ⟨hcut, hdisjoint⟩ := within_cut (a := a) (x := x) hle hn
    obtain ⟨ihin, ihout⟩ := ih hrest (by omega)
    have hfirst : Within p x ↔ Within (a, p.2) x := by
      unfold Within
      rw [hp]
    constructor
    · intro hx
      rcases hcut.mp hx with hx | hx
      · -- The byte is in the first piece and in none of the others.
        have hno := ihout fun h => hdisjoint ⟨hx, h⟩
        refine ⟨0, ⟨p, rfl, hfirst.mpr hx⟩, fun k hk => ?_⟩
        obtain ⟨q, hq, hqx⟩ := hk
        cases k with
        | zero => rfl
        | succ k => exact absurd hqx (hno q (List.mem_of_getElem? hq))
      · obtain ⟨k, hk, honly⟩ := ihin hx
        refine ⟨k + 1, hk, fun j hj => ?_⟩
        obtain ⟨q, hq, hqx⟩ := hj
        cases j with
        | zero =>
          have hpq : p = q := Option.some.inj hq
          exact absurd ⟨hfirst.mp (hpq ▸ hqx), hx⟩ hdisjoint
        | succ j => exact congrArg (· + 1) (honly j ⟨q, hq, hqx⟩)
    · intro hx q hq hqx
      rcases List.mem_cons.mp hq with rfl | hq
      · exact hx (hcut.mpr (.inl (hfirst.mp hqx)))
      · exact ihout (fun h => hx (hcut.mpr (.inr h))) q hq hqx

end Nascent.Tiling
