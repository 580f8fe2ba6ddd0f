import Mathlib.Data.List.Pairwise
import Nascent.Lib.Memory
import Nascent.Page.Boot
import Nascent.Virmem.Model

/-!
# What the boot loader leaves

`start` of `main.c`, as far as `init_mem`. The boot loader leaves modules one behind the other, each with its type
and its length in front, and the map of the memory is the one of type 0x9001. `start` walks over the others and
takes their lengths for numbers of words, but the length of the map for a number of bytes, and so does
`create_page_list`.

Where the lengths are such, `start` finds the entries of the map, and calls `init_mem` with them and with the end of
the last usable region (`start_reads_map`). This is the end of all of them only where the map is in order.
-/

namespace Nascent

open Memory (Word64 Mem)

/-- A word of 32 bits. -/
def read32 (m : Mem) (a : Word64) : BitVec 32 := m (a + 3) ++ m (a + 2) ++ m (a + 1) ++ m a

/-- A `struct smap_t` in memory. -/
def smapAt (m : Mem) (a : Word64) : Smap where
  base := Memory.read m a
  length := Memory.read m (a + 8)
  type := read32 m (a + 16)

/-- The first loop of `start`, which looks for the map. -/
def findMap (m : Mem) : ℕ → Word64 → Option Word64
  | 0, _ => none
  | fuel + 1, modulep =>
    if read32 m modulep = 0x9001 then some modulep
    else findMap m fuel (modulep + 4 * (read32 m (modulep + 4) + 2).setWidth 64)

/-- The entries that the loops over the map look at, up to an address. -/
def entriesUpTo (m : Mem) (stop : Word64) : ℕ → Word64 → Option (List Smap)
  | 0, _ => none
  | fuel + 1, a => if a < stop then (entriesUpTo m stop fuel (a + 20)).map (smapAt m a :: ·) else some []

/-- The loop over the map at an address. -/
def entries (m : Mem) (modulep : Word64) : Option (List Smap) :=
  entriesUpTo m (modulep + (read32 m (modulep + 4)).setWidth 64 + 2 * 4) (2 ^ 64) (modulep + 4 * 2)

/-- A region is usable memory. -/
def Smap.usable (x : Smap) : Bool := x.type = 1 ∧ x.length ≠ 0

/-- The end of a region. -/
def Smap.stop (x : Smap) : Word := x.base + x.length

/-- `mem_end`, as the second loop of `start` leaves it. -/
def memEnd (l : List Smap) : Word := l.foldl (fun e x => if x.usable then x.stop else e) 0

/-- `start`, as far as `init_mem`. -/
def Mm.start (s : Mm) (m : Mem) (modulep physfree : Word64) : Option Mm :=
  (findMap m (2 ^ 64) modulep).bind fun modulep => (entries m modulep).bind fun l =>
    s.initMem physfree l (memEnd l)

/-! ## The modules -/

/-- Words of 32 bits, one behind the other. -/
def Holds32 (m : Mem) : Word64 → List (BitVec 32) → Prop
  | _, [] => True
  | a, w :: ws => read32 m a = w ∧ Holds32 m (a + 4) ws

instance Holds32.decidable (m : Mem) : ∀ a ws, Decidable (Holds32 m a ws)
  | _, [] => isTrue trivial
  | a, w :: ws =>
    have := Holds32.decidable m (a + 4) ws
    inferInstanceAs (Decidable (read32 m a = w ∧ Holds32 m (a + 4) ws))

/-- A module. -/
structure BootModule where
  /-- Its type. -/
  type : BitVec 32
  /-- Its words. -/
  body : List (BitVec 32)

/-- The words of a module, with its type and its length. -/
def BootModule.words (x : BootModule) : List (BitVec 32) := x.type :: BitVec.ofNat 32 x.body.length :: x.body

/-- The words of an entry. -/
def Smap.words (x : Smap) : List (BitVec 32) :=
  [x.base.setWidth 32, (x.base >>> 32).setWidth 32, x.length.setWidth 32, (x.length >>> 32).setWidth 32, x.type]

/-- The words of the map, with its type and its length in bytes. -/
def mapWords (l : List Smap) : List (BitVec 32) :=
  0x9001 :: BitVec.ofNat 32 (20 * l.length) :: l.flatMap Smap.words

variable {m : Mem} {a b : Word64} {ws vs : List (BitVec 32)} {l : List Smap} {x : Smap} {mods : List BootModule}
  {fuel : ℕ}

theorem holds32_append : Holds32 m a (ws ++ vs) ↔
    Holds32 m a ws ∧ Holds32 m (a + BitVec.ofNat 64 (4 * ws.length)) vs := by
  induction ws generalizing a with
  | nil => simp [Holds32]
  | cons w ws ih =>
    have haddr : a + 4 + BitVec.ofNat 64 (4 * ws.length) = a + BitVec.ofNat 64 (4 * (w :: ws).length) := by
      rw [List.length_cons, Nat.mul_succ, Nat.add_comm, BitVec.ofNat_add, BitVec.add_assoc]
      rfl
    rw [List.cons_append, Holds32, Holds32, ih, haddr, and_assoc]

/-- Two words of 32 bits are one of 64. -/
theorem read_eq : Memory.read m a = read32 m (a + 4) ++ read32 m a := by
  have h7 : a + 4 + 3 = a + 7 := BitVec.add_assoc a 4 3
  have h6 : a + 4 + 2 = a + 6 := BitVec.add_assoc a 4 2
  have h5 : a + 4 + 1 = a + 5 := BitVec.add_assoc a 4 1
  unfold Memory.read read32
  rw [h7, h6, h5]
  apply BitVec.eq_of_getLsbD_eq
  intro i hi
  simp only [BitVec.getLsbD_append]
  grind

/-- The words of a value. -/
theorem halves_append (v : Word) : (v >>> 32).setWidth 32 ++ v.setWidth 32 = v := by
  apply BitVec.eq_of_getLsbD_eq
  intro i hi
  rw [BitVec.getLsbD_append]
  simp
  grind

/-- An entry is read from its words. -/
theorem smapAt_of_holds (h : Holds32 m a x.words) : smapAt m a = x := by
  obtain ⟨h0, h4, h8, h12, h16, -⟩ := h
  have ha8 : a + 4 + 4 = a + 8 := BitVec.add_assoc a 4 4
  have ha16 : a + 8 + 4 + 4 = a + 16 := (BitVec.add_assoc (a + 8) 4 4).trans (BitVec.add_assoc a 8 8)
  rw [ha8] at h8 h12 h16
  rw [ha16] at h16
  unfold smapAt
  rw [read_eq, read_eq, h0, h4, h8, h12, h16, halves_append, halves_append]

/-- The length of a module as `start` takes it. -/
theorem module_step {n : ℕ} (hn : n < 2 ^ 32 - 2) :
    a + 4 * (BitVec.ofNat 32 n + 2).setWidth 64 = a + 4 + 4 + BitVec.ofNat 64 (4 * n) := by
  have hnat : (BitVec.ofNat 32 n + 2).toNat = n + 2 := by
    rw [BitVec.toNat_add, BitVec.toNat_ofNat]
    simp
    omega
  have hset : (BitVec.ofNat 32 n + 2).setWidth 64 = BitVec.ofNat 64 (n + 2) := by
    apply BitVec.eq_of_toNat_eq
    rw [BitVec.toNat_setWidth, hnat, BitVec.toNat_ofNat]
  rw [hset]
  bv_omega

/-- The map is found behind the other modules. -/
theorem findMap_eq (hm : Holds32 m a (mods.flatMap BootModule.words ++ mapWords l))
    (hmods : ∀ x ∈ mods, x.type ≠ 0x9001 ∧ x.body.length < 2 ^ 32 - 2) (hfuel : mods.length < fuel) :
    ∃ p, findMap m fuel a = some p ∧ Holds32 m p (mapWords l) ∧
      p = a + BitVec.ofNat 64 (4 * (mods.flatMap BootModule.words).length) := by
  induction mods generalizing a fuel with
  | nil =>
    obtain ⟨fuel, rfl⟩ : ∃ n, fuel = n + 1 := ⟨fuel - 1, by simp at hfuel; omega⟩
    exact ⟨a, by rw [findMap, if_pos hm.1], hm, by simp⟩
  | cons x mods ih =>
    obtain ⟨fuel, rfl⟩ : ∃ n, fuel = n + 1 := ⟨fuel - 1, by simp at hfuel; omega⟩
    obtain ⟨hx, hmods⟩ := List.forall_mem_cons.mp hmods
    rw [List.flatMap_cons, List.append_assoc] at hm
    obtain ⟨htype, hlen, hbody⟩ := hm
    obtain ⟨-, hrest⟩ := holds32_append.mp hbody
    rw [← module_step hx.2, ← hlen] at hrest
    obtain ⟨p, hp, hholds, heq⟩ := ih hrest hmods (by simpa using hfuel)
    refine ⟨p, ?_, hholds, ?_⟩
    · rw [findMap, htype, if_neg hx.1]
      exact hp
    · have hwords : x.words.length = x.body.length + 2 := rfl
      rw [heq, hlen, module_step hx.2, List.flatMap_cons, List.length_append, hwords]
      generalize x.body.length = n
      generalize (mods.flatMap BootModule.words).length = k
      bv_omega

/-- The loop over the map finds its entries. -/
theorem entriesUpTo_eq (hm : Holds32 m a (l.flatMap Smap.words)) (hsize : a.toNat + 20 * l.length < 2 ^ 64)
    (hfuel : l.length < fuel) : entriesUpTo m (a + BitVec.ofNat 64 (20 * l.length)) fuel a = some l := by
  induction l generalizing a fuel with
  | nil =>
    obtain ⟨fuel, rfl⟩ : ∃ n, fuel = n + 1 := ⟨fuel - 1, by simp at hfuel; omega⟩
    rw [entriesUpTo, if_neg (by simp)]
  | cons x l ih =>
    obtain ⟨fuel, rfl⟩ : ∃ n, fuel = n + 1 := ⟨fuel - 1, by simp at hfuel; omega⟩
    rw [List.flatMap_cons] at hm
    obtain ⟨hx, hrest⟩ := holds32_append.mp hm
    rw [List.length_cons] at hsize hfuel
    have hnext : a + BitVec.ofNat 64 (4 * x.words.length) = a + 20 := rfl
    rw [hnext] at hrest
    have hlt : a < a + BitVec.ofNat 64 (20 * (l.length + 1)) := by
      rw [BitVec.lt_def, BitVec.toNat_add, BitVec.toNat_ofNat]
      omega
    have hstop : a + BitVec.ofNat 64 (20 * (l.length + 1)) = a + 20 + BitVec.ofNat 64 (20 * l.length) := by
      bv_omega
    have hsize' : (a + 20).toNat + 20 * l.length < 2 ^ 64 := by
      rw [BitVec.toNat_add]
      simp
      omega
    rw [List.length_cons, entriesUpTo, if_pos hlt, hstop, ih hrest hsize' (by omega), smapAt_of_holds hx]
    rfl

/-- The loops over the map find its entries. -/
theorem entries_eq (hm : Holds32 m a (mapWords l)) (hsize : a.toNat + 8 + 20 * l.length < 2 ^ 64)
    (hlen : 20 * l.length < 2 ^ 32) : entries m a = some l := by
  obtain ⟨-, hcount, hl⟩ := hm
  have hset : (BitVec.ofNat 32 (20 * l.length)).setWidth 64 = BitVec.ofNat 64 (20 * l.length) := by
    apply BitVec.eq_of_toNat_eq
    rw [BitVec.toNat_setWidth, BitVec.toNat_ofNat, BitVec.toNat_ofNat, Nat.mod_eq_of_lt hlen]
  have hstart : a + 4 * 2 = a + 4 + 4 := (BitVec.add_assoc a 4 4).symm
  have hstop : a + BitVec.ofNat 64 (20 * l.length) + 2 * 4 = a + 4 + 4 + BitVec.ofNat 64 (20 * l.length) := by
    bv_omega
  unfold entries
  rw [hcount, hset, hstart, hstop]
  refine entriesUpTo_eq hl ?_ (by omega)
  rw [← hstart, BitVec.toNat_add]
  simp
  omega

/-- `mem_end` is the end of the last usable region. -/
theorem memEnd_eq (l : List Smap) : memEnd l = (((l.filter Smap.usable).getLast?).map Smap.stop).getD 0 := by
  have hfold : ∀ (l : List Smap) (e : Word), l.foldl (fun e x => if x.usable then x.stop else e) e =
      (((l.filter Smap.usable).getLast?).map Smap.stop).getD e := by
    intro l
    induction l with
    | nil => exact fun _ => rfl
    | cons x l ih =>
      intro e
      rw [List.foldl_cons, ih, List.filter_cons]
      split_ifs with hx
      · rw [List.getLast?_cons]
        cases (l.filter Smap.usable).getLast? <;> rfl
      · rfl
  exact hfold l 0

/-- It is the end of all usable regions, where they are in order. -/
theorem stop_le_memEnd (hl : (l.filter Smap.usable).Pairwise fun x y => x.stop ≤ y.stop) (hx : x ∈ l)
    (hu : x.usable = true) : x.stop ≤ memEnd l := by
  have hmem : x ∈ l.filter Smap.usable := List.mem_filter.mpr ⟨hx, hu⟩
  rw [memEnd_eq, List.getLast?_eq_some_getLast (List.ne_nil_of_mem hmem), Option.map_some, Option.getD_some]
  exact hl.rel_getLast_of_rel_getLast_getLast hmem (BitVec.le_refl _)

/-- A module has words. -/
theorem length_le_words (mods : List BootModule) : mods.length ≤ (mods.flatMap BootModule.words).length := by
  induction mods with
  | nil => exact Nat.le_refl 0
  | cons x mods ih =>
    have hwords : x.words.length = x.body.length + 2 := rfl
    rw [List.flatMap_cons, List.length_append, List.length_cons, hwords]
    omega

/-- Where the boot loader leaves some modules with their lengths in words, and behind them the map with its length
in bytes, `start` calls `init_mem` with the entries of the map and the end of the last usable region. This is the
end of all of them where the map is in order. -/
theorem start_reads_map (s : Mm) (m : Mem) (modulep physfree : Word64) (mods : List BootModule) (l : List Smap)
    (hm : Holds32 m modulep (mods.flatMap BootModule.words ++ mapWords l))
    (hmods : ∀ x ∈ mods, x.type ≠ 0x9001 ∧ x.body.length < 2 ^ 32 - 2) (hlen : 20 * l.length < 2 ^ 32)
    (hsize : modulep.toNat + 4 * (mods.flatMap BootModule.words).length + 8 + 20 * l.length < 2 ^ 64) :
    s.start m modulep physfree = s.initMem physfree l (memEnd l) ∧
      memEnd l = (((l.filter Smap.usable).getLast?).map Smap.stop).getD 0 ∧
      ((l.filter Smap.usable).Pairwise (fun x y => x.stop ≤ y.stop) →
        ∀ x ∈ l, x.usable = true → x.stop ≤ memEnd l) := by
  have hfuel := length_le_words mods
  obtain ⟨p, hp, hmap, heq⟩ := @findMap_eq m modulep l mods (2 ^ 64) hm hmods (by omega)
  have hentries : entries m p = some l := by
    refine entries_eq hmap ?_ hlen
    rw [heq, BitVec.toNat_add, BitVec.toNat_ofNat]
    omega
  refine ⟨?_, memEnd_eq l, fun hl x hx hu => stop_le_memEnd hl hx hu⟩
  unfold Mm.start
  rw [hp, Option.bind_some, hentries, Option.bind_some]

/-- The memory of some words, from the address 0. -/
def image (ws : List (BitVec 32)) : Mem := fun a => (ws.getD (a.toNat / 4) 0).extractLsb' (8 * (a.toNat % 4)) 8

/-- A module of two words, and a map of one usable region and one that is not. -/
theorem start_reads_map_two : Mm.unbooted.start
      (image ([⟨7, [1, 2]⟩].flatMap BootModule.words ++ mapWords [⟨0x100000, 0x7ee0000, 1⟩, ⟨0x7fe0000, 0x20000, 2⟩]))
      0 0x200000 =
    Mm.unbooted.initMem 0x200000 [⟨0x100000, 0x7ee0000, 1⟩, ⟨0x7fe0000, 0x20000, 2⟩] 0x7fe0000 :=
  (start_reads_map Mm.unbooted _ 0 0x200000 [⟨7, [1, 2]⟩] [⟨0x100000, 0x7ee0000, 1⟩, ⟨0x7fe0000, 0x20000, 2⟩]
    (by decide) (by simp) (by decide) (by decide)).1

end Nascent
