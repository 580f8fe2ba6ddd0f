import Mathlib.Data.Fintype.Sigma
import Mathlib.Tactic.DeriveFintype
import Nascent.Lib.Radix
import Nascent.Virmem.Model

/-!
# Page tables as trees of frames

The functions of `Virmem/Model.lean` read and write table entries at addresses of the direct map.
Here the addresses go: a table is a frame, `tbl s f i` is its entry `i`, and the walk of the
hardware is `table s r p`, the frame that the path `p` of indices leads to from the PML4 in frame
`r`. `getPteEntry` is the lookup `leaf` in this tree (`getPteEntry_eq`), and `setMapping` is three
steps down the tree and one write (`setMapping_cases`), where each step follows a present entry or
hangs a fresh frame under an absent one (`DirStep`).
-/

namespace Nascent

/-- An index into a table. -/
abbrev Idx := Fin 512

/-- The nine bits of an address above bit `k`, as an index. -/
def vidx (k : ℕ) (va : Word) : Idx :=
  ⟨((va >>> k) &&& 0x1FF).toNat, by
    have h : ((va >>> k) &&& 0x1FF).toNat ≤ (0x1FF : Word).toNat := by
      rw [BitVec.toNat_and]
      exact Nat.and_le_right
    exact Nat.lt_of_le_of_lt h (by decide)⟩

/-- A page of the virtual address space, by its index at each of the four levels. -/
structure VPage where
  /-- The index into the PML4. -/
  pml4 : Idx
  /-- The index into the page directory pointer table. -/
  pdpte : Idx
  /-- The index into the page directory. -/
  pde : Idx
  /-- The index into the page table. -/
  pte : Idx
deriving DecidableEq, Fintype

/-- The path to the page table of a page. -/
def VPage.dir (v : VPage) : List Idx := [v.pml4, v.pdpte, v.pde]

/-- The page of an address: its bits 12 to 47. -/
def vpage (va : Word) : VPage := ⟨vidx 39 va, vidx 30 va, vidx 21 va, vidx 12 va⟩

theorem vidx_val (k : ℕ) (va : Word) : (vidx k va : ℕ) = va.toNat / 2^k % 512 := by
  show ((va >>> k) &&& 0x1FF).toNat = _
  rw [BitVec.toNat_and, BitVec.toNat_ushiftRight, Nat.shiftRight_eq_div_pow]
  exact Nat.and_two_pow_sub_one_eq_mod _ 9

/-- Two addresses in the same block of 4096 bytes lie on the same page. -/
theorem vpage_eq_of_div {w va : Word} (h : w.toNat / 4096 = va.toNat / 4096) :
    vpage w = vpage va := by
  simp only [vpage, VPage.mk.injEq, Fin.ext_iff, vidx_val]
  omega

/-- Two addresses lie on the same page if and only if they agree in bits 12 to 47. -/
theorem vpage_eq_iff (w va : Word) :
    vpage w = vpage va ↔ w.extractLsb' 12 36 = va.extractLsb' 12 36 := by
  have hbits : ∀ x : Word, (x.extractLsb' 12 36).toNat = x.toNat / 4096 % 2^36 := by
    intro x
    rw [BitVec.extractLsb'_toNat, Nat.shiftRight_eq_div_pow]
  rw [← BitVec.toNat_inj, hbits, hbits]
  simp only [vpage, VPage.mk.injEq, Fin.ext_iff, vidx_val]
  omega

/-- These bits, as the number of the page. -/
theorem vpage_eq_iff_div {w va : Word} :
    vpage w = vpage va ↔ w.toNat / 4096 % 2^36 = va.toNat / 4096 % 2^36 := by
  rw [vpage_eq_iff, ← BitVec.toNat_inj, BitVec.extractLsb'_toNat, BitVec.extractLsb'_toNat,
    Nat.shiftRight_eq_div_pow, Nat.shiftRight_eq_div_pow]

namespace Mm

variable {s s' : Mm} {f g r t : ℕ} {i : Idx} {va e : Word}

/-! ## Entries -/

/-- The entry `i` of the table in frame `f`. -/
def tbl (s : Mm) (f : ℕ) (i : Idx) : Word := Bytes.word (s.mem f) i

/-- The table in frame `f` with its entry `i` set. -/
def setEntry (s : Mm) (f : ℕ) (i : Idx) (v : Word) : Mm :=
  { s with mem := Function.update s.mem f (Bytes.setWord (s.mem f) i v) }

/-- The frame that a present entry points to. -/
def child (e : Word) : Option ℕ := if present e then some (frameOf e) else none

/-- An entry, where it is present. -/
def present? (e : Word) : Option Word := if present e then some e else none

/-- The frame of the table that a path leads to from the PML4 in frame `r`. -/
def table (s : Mm) (r : ℕ) (p : List Idx) : Option ℕ := Radix.walk child s.tbl r p

/-- The entry of a page in the tree of the PML4 in frame `r`, where it is present. -/
def leaf (s : Mm) (r : ℕ) (v : VPage) : Option Word :=
  (s.table r v.dir).bind fun t => present? (s.tbl t v.pte)

@[simp] theorem tbl_setEntry_self (v : Word) : (s.setEntry f i v).tbl f i = v := by
  simp [tbl, setEntry]

theorem tbl_setEntry_of_ne {j : Idx} (v : Word) (h : g ≠ f ∨ j ≠ i) :
    (s.setEntry f i v).tbl g j = s.tbl g j := by
  by_cases hgf : g = f
  · subst hgf
    have hji : (j : ℕ) ≠ i := fun hji => h.elim (fun h => h rfl) fun h => h (Fin.ext hji)
    simp [tbl, setEntry, Bytes.word_setWord_of_ne _ _ hji]
  · simp [tbl, setEntry, Function.update_of_ne hgf]

/-- The entries of a table are in its frame. -/
theorem tbl_congr (h : s'.mem f = s.mem f) : s'.tbl f = s.tbl f := by
  funext i
  rw [tbl, tbl, h]

/-- The entries of a cleared frame are not present. -/
theorem tbl_of_zero (h : s.mem f = Bytes.zero) (i : Idx) : s.tbl f i = 0 := by
  rw [tbl, h, Bytes.word_zero]

/-- The frame of a present entry. -/
theorem child_eq_some (h : child e = some f) : frameOf e = f := by
  rw [child] at h
  split at h
  · exact Option.some.inj h
  · cases h

/-- A present entry is the entry itself. -/
theorem present?_eq_some {e e' : Word} (h : present? e = some e') : e = e' := by
  rw [present?] at h
  split at h
  · exact Option.some.inj h
  · cases h

theorem ite_not_present (e : Word) : (if (!present e) = true then none else some e) = present? e := by
  rw [present?]
  cases present e with
  | false => rfl
  | true => rfl

@[simp] theorem child_zero : child 0 = none := rfl

@[simp] theorem present?_zero : present? 0 = none := rfl

/-- The flags in the low bits of an entry do not change its frame. -/
theorem frameOf_or {a fl : Word} (h : fl.toNat < 4096) : frameOf (a ||| fl) = frameOf a := by
  have hfl : fl >>> 12 = 0#64 := by
    apply BitVec.eq_of_toNat_eq
    rw [BitVec.toNat_ushiftRight, Nat.shiftRight_eq_div_pow]
    exact Nat.div_eq_of_lt h
  rw [frameOf, BitVec.ushiftRight_or_distrib, hfl, BitVec.or_zero, frameOf]

/-- An entry with the present bit among its flags is present. -/
theorem present_or_seven (a : Word) : present (a ||| 7) = true := by
  have hbit : ((a ||| 7) &&& 1).getLsbD 0 = true := by
    rw [BitVec.getLsbD_and, BitVec.getLsbD_or, show (7 : Word).getLsbD 0 = true from rfl,
      show (1 : Word).getLsbD 0 = true from rfl, Bool.or_true, Bool.and_true]
  rw [present, bne_iff_ne]
  intro h
  rw [h] at hbit
  cases hbit

/-- The entry of a fresh table points to it. -/
theorem child_getPA (h : g < 2^52) : child (getPA g ||| 7) = some g := by
  rw [child, present_or_seven, if_pos rfl, frameOf_or (by decide), frameOf_getPA h]

/-! ## Addresses of entries -/

/-- The address of an entry leads to its frame and its index. -/
theorem slot_eq (hf : f < 2^52) {o : Word} (ho : o.toNat < 512) :
    kframe (convertVA f + 8 * o) = f ∧ kword (convertVA f + 8 * o) = o.toNat := by
  have h8 : (8 * o).toNat = 8 * o.toNat := by
    rw [BitVec.toNat_mul]
    exact Nat.mod_eq_of_lt (by simp; omega)
  have hva : (convertVA f + 8 * o).toNat = (0xffffffff80000000 + f * 4096 + 8 * o.toNat) % 2^64 := by
    rw [convertVA, getViraddr, BitVec.toNat_add, BitVec.toNat_add, toNat_getPA hf, h8]
    simp [kernBase]
  constructor
  · have hsub : getPhyaddr (convertVA f + 8 * o) = getPA f + 8 * o := by
      rw [getPhyaddr, convertVA, getViraddr, BitVec.add_assoc, BitVec.add_comm kernBase,
        BitVec.add_sub_cancel]
    have hnat : (getPA f + 8 * o).toNat = f * 4096 + 8 * o.toNat := by
      rw [BitVec.toNat_add, toNat_getPA hf, h8]
      omega
    show frameOf (getPhyaddr _) = f
    rw [hsub, frameOf_eq_div, hnat]
    omega
  · have := vidx_val 3 (convertVA f + 8 * o)
    rw [kword]
    refine this.trans ?_
    rw [hva]
    omega

theorem kread_slot (hf : f < 2^52) (k : ℕ) (va : Word) :
    s.kread (convertVA f + 8 * ((va >>> k) &&& 0x1FF)) = s.tbl f (vidx k va) := by
  obtain ⟨h1, h2⟩ := slot_eq (o := (va >>> k) &&& 0x1FF) hf (vidx k va).isLt
  rw [kread, h1, h2]
  rfl

theorem kwrite_slot (hf : f < 2^52) (k : ℕ) (va v : Word) :
    s.kwrite (convertVA f + 8 * ((va >>> k) &&& 0x1FF)) v = s.setEntry f (vidx k va) v := by
  obtain ⟨h1, h2⟩ := slot_eq (o := (va >>> k) &&& 0x1FF) hf (vidx k va).isLt
  rw [kwrite, h1, h2]
  rfl

/-- The address of a table in the direct map, from an entry that points to it. -/
theorem scldn_entry (e : Word) : scldn (e + kernBase) = convertVA (frameOf e) := by
  have hK : kernBase.toNat = 0xffffffff80000000 := rfl
  apply BitVec.eq_of_toNat_eq
  rw [toNat_scldn, BitVec.toNat_add, convertVA, getViraddr, BitVec.toNat_add,
    toNat_getPA (frameOf_lt e), frameOf_eq_div, hK]
  have := e.isLt
  omega

theorem scldn_convertVA (hf : f < 2^52) : scldn (convertVA f) = convertVA f := by
  have h := scldn_entry (getPA f)
  rwa [frameOf_getPA hf, BitVec.add_comm] at h

theorem getPA_add_kernBase (f : ℕ) : getPA f + kernBase = convertVA f := BitVec.add_comm ..

/-! ## The lookups -/

/-- `get_pte_entry` is the lookup in the tree. -/
theorem getPteEntry_eq (hr : r < 2^52) : s.getPteEntry (convertVA r) va = s.leaf r (vpage va) := by
  simp only [getPteEntry, scldn_convertVA hr, kread_slot hr, scldn_entry,
    kread_slot (frameOf_lt _), leaf, table, VPage.dir, vpage, Radix.walk_cons, Radix.walk_nil, child]
  cases present (s.tbl r (vidx 39 va)) with
  | false => simp
  | true =>
    simp only [Bool.not_true, Bool.false_eq_true, if_false, if_true, Option.bind_some]
    generalize frameOf (s.tbl r (vidx 39 va)) = t3
    cases present (s.tbl t3 (vidx 30 va)) with
    | false => simp
    | true =>
      simp only [Bool.not_true, Bool.false_eq_true, if_false, if_true, Option.bind_some]
      generalize frameOf (s.tbl t3 (vidx 30 va)) = t2
      cases present (s.tbl t2 (vidx 21 va)) with
      | false => simp
      | true =>
        simp only [Bool.not_true, Bool.false_eq_true, if_false, if_true, Option.bind_some]
        exact ite_not_present _

/-- `get_mapping` follows the four entries, present or not. -/
theorem getMapping_eq_tbl (hr : r < 2^52) : s.getMapping (convertVA r) va =
    scldn (s.tbl (frameOf (s.tbl (frameOf (s.tbl (frameOf (s.tbl r (vidx 39 va))) (vidx 30 va)))
      (vidx 21 va))) (vidx 12 va)) + (va &&& 0xFFF) := by
  simp only [getMapping, scldn_convertVA hr, kread_slot hr, scldn_entry, kread_slot (frameOf_lt _)]

/-- `get_mapping` of a mapped address is the frame of its entry with the address's offset. -/
theorem getMapping_eq (hr : r < 2^52) (h : s.leaf r (vpage va) = some e) :
    s.getMapping (convertVA r) va = scldn e + (va &&& 0xFFF) := by
  simp only [leaf, table, VPage.dir, vpage, Radix.walk_cons, Radix.walk_nil,
    Option.bind_eq_some_iff, Option.some.injEq] at h
  obtain ⟨t, ⟨t3, h3, t2, h2, t1, h1, rfl⟩, he⟩ := h
  obtain rfl := (child_eq_some h3).symm
  obtain rfl := (child_eq_some h2).symm
  obtain rfl := (child_eq_some h1).symm
  rw [getMapping_eq_tbl hr, present?_eq_some he]

/-! ## `set_mapping` as three steps and a write -/

/-- The state in which the fresh head `g` of the free list hangs under the entry `i` of the table
in frame `t`. -/
def install (s : Mm) (t : ℕ) (i : Idx) (g : ℕ) : Mm :=
  (s.takeHead g (convertVA g)).setEntry t i (getPA g ||| 7)

/-- One step of `set_mapping` down the tree, from the table in frame `t`: along a present entry, or
to a fresh table. -/
inductive DirStep (s : Mm) (t : ℕ) (i : Idx) : Mm → ℕ → Prop
  /-- The entry is present. -/
  | follow (h : present (s.tbl t i) = true) : DirStep s t i s (frameOf (s.tbl t i))
  /-- The entry is not present, and the head of the free list becomes the table. -/
  | fresh (h : present (s.tbl t i) = false) (g : ℕ) (hg : s.freePageHead = some g) :
    DirStep s t i (s.install t i g) g

/-- `create_dir_table` is such a step. -/
theorem createDirTable_cases {k : ℕ} {phy : Word} (ht : t < 2^52)
    (h : s.createDirTable (convertVA t + 8 * ((va >>> k) &&& 0x1FF)) = some (phy, s')) :
    ∃ t', phy = getPA t' ∧ DirStep s t (vidx k va) s' t' := by
  simp only [createDirTable, kread_slot ht] at h
  cases hp : present (s.tbl t (vidx k va)) with
  | true =>
    simp only [hp, Bool.not_true, Bool.false_eq_true, if_false, Option.some.injEq,
      Prod.mk.injEq] at h
    obtain ⟨rfl, rfl⟩ := h
    exact ⟨_, scaleDown_eq_getPA _, .follow hp⟩
  | false =>
    simp only [hp, Bool.not_false, if_true] at h
    cases hh : s.freePageHead with
    | none =>
      have : s.fetchFreePage = none := by simp [fetchFreePage, hh]
      rw [this] at h
      cases h
    | some g =>
      rw [(alloc_eq hh).2.2] at h
      have h' := Prod.mk.inj (Option.some.inj h)
      refine ⟨g, h'.1.symm, ?_⟩
      rw [← h'.2, kwrite_slot ht]
      exact .fresh hp g hh

/-- `create_dir_table` succeeds along a present entry, or where there is a free frame. -/
theorem createDirTable_isSome (va : Word) (k : ℕ) (ht : t < 2^52)
    (h : present (s.tbl t (vidx k va)) = true ∨ s.freePageHead ≠ none) :
    (s.createDirTable (convertVA t + 8 * ((va >>> k) &&& 0x1FF))).isSome := by
  simp only [createDirTable, kread_slot ht]
  cases hp : present (s.tbl t (vidx k va)) with
  | true => rfl
  | false =>
    obtain ⟨g, hg⟩ := Option.ne_none_iff_exists'.mp (h.resolve_left (by simp [hp]))
    simp only [Bool.not_false, if_true, (alloc_eq hg).2.2]
    rfl

/-- A property of the state and of the table reached, which the steps down the path of an address
preserve, holds at the page table that `set_mapping` writes to. -/
theorem setMapping_cases {P : List Idx → ℕ → Mm → Prop} {phyaddr flags : Word} (hr : r < 2^52)
    (hlt : ∀ q t s, P q t s → ∀ g, s.freePageHead = some g → g < 2^52)
    (hstep : ∀ q i t s s' t', q ++ [i] <+: (vpage va).dir → P q t s → DirStep s t i s' t' →
      P (q ++ [i]) t' s')
    (h0 : P [] r s) (h : s.setMapping (convertVA r) va phyaddr flags = some s') :
    ∃ t s₁, P (vpage va).dir t s₁ ∧ s' = s₁.setEntry t (vpage va).pte (phyaddr ||| flags) := by
  have hlt' : ∀ {q t s i s' t'}, P q t s → DirStep s t i s' t' → t' < 2^52 := by
    intro q t s i s' t' hp hd
    cases hd with
    | follow => exact frameOf_lt _
    | fresh _ _ hg => exact hlt q t s hp t' hg
  simp only [setMapping, Option.bind_eq_bind, Option.bind_eq_some_iff, Prod.exists] at h
  obtain ⟨p3, s3, h3, p2, s2, h2, p1, s1, h1, h⟩ := h
  -- The three steps.
  obtain ⟨t3, rfl, d3⟩ := createDirTable_cases hr h3
  have hp3 := hstep [] _ r s s3 t3 ⟨[_, _], rfl⟩ h0 d3
  have ht3 := hlt' h0 d3
  rw [getPA_add_kernBase] at h2
  obtain ⟨t2, rfl, d2⟩ := createDirTable_cases ht3 h2
  have hp2 := hstep _ _ _ _ _ _ ⟨[_], rfl⟩ hp3 d2
  have ht2 := hlt' hp3 d2
  rw [getPA_add_kernBase] at h1
  obtain ⟨t1, rfl, d1⟩ := createDirTable_cases ht2 h1
  have hp1 := hstep _ _ _ _ _ _ ⟨[], rfl⟩ hp2 d1
  have ht1 := hlt' hp2 d1
  -- The write.
  rw [getPA_add_kernBase, kwrite_slot ht1, Option.some.injEq] at h
  exact ⟨t1, s1, hp1, h.symm⟩

/-- `set_mapping` succeeds where there is a free frame before each of its three steps that needs one. -/
theorem setMapping_isSome {P : List Idx → ℕ → Mm → Prop} {phyaddr flags : Word} (hr : r < 2^52)
    (hlt : ∀ q t s, P q t s → ∀ g, s.freePageHead = some g → g < 2^52)
    (hfree : ∀ q i t s, q ++ [i] <+: (vpage va).dir → P q t s →
      present (s.tbl t i) = true ∨ s.freePageHead ≠ none)
    (hstep : ∀ q i t s s' t', q ++ [i] <+: (vpage va).dir → P q t s → DirStep s t i s' t' →
      P (q ++ [i]) t' s')
    (h0 : P [] r s) : (s.setMapping (convertVA r) va phyaddr flags).isSome := by
  -- One step, at the index above bit `k`.
  have hnext : ∀ (k : ℕ) (q : List Idx) (t : ℕ) (s : Mm), q ++ [vidx k va] <+: (vpage va).dir →
      P q t s → t < 2^52 → ∃ t' s', t' < 2^52 ∧
      s.createDirTable (convertVA t + 8 * ((va >>> k) &&& 0x1FF)) = some (getPA t', s') ∧
      P (q ++ [vidx k va]) t' s' := by
    intro k q t s hq hp ht
    obtain ⟨⟨phy, s'⟩, hd⟩ := Option.isSome_iff_exists.mp
      (createDirTable_isSome va k ht (hfree q _ t s hq hp))
    obtain ⟨t', rfl, hs⟩ := createDirTable_cases ht hd
    refine ⟨t', s', ?_, hd, hstep q _ t s s' t' hq hp hs⟩
    cases hs with
    | follow => exact frameOf_lt _
    | fresh _ _ hg => exact hlt q t s hp t' hg
  obtain ⟨t3, s3, ht3, h3, hp3⟩ := hnext 39 [] r s ⟨[_, _], rfl⟩ h0 hr
  obtain ⟨t2, s2, ht2, h2, hp2⟩ := hnext 30 _ t3 s3 ⟨[_], rfl⟩ hp3 ht3
  obtain ⟨t1, s1, ht1, h1, -⟩ := hnext 21 _ t2 s2 ⟨[], rfl⟩ hp2 ht2
  simp only [setMapping, h3, getPA_add_kernBase, h2, h1, Option.bind_eq_bind, Option.bind_some,
    Option.isSome_some]

/-- `create_dir_table` at an entry that leads to a table. -/
theorem createDirTable_of_child {k t' : ℕ} (ht : t < 2^52)
    (h : child (s.tbl t (vidx k va)) = some t') :
    s.createDirTable (convertVA t + 8 * ((va >>> k) &&& 0x1FF)) = some (getPA t', s) := by
  have hp : present (s.tbl t (vidx k va)) = true := by
    rw [child] at h
    split_ifs at h with hp
    exact hp
  rw [createDirTable, kread_slot ht]
  simp only [hp, Bool.not_true, Bool.false_eq_true, if_false]
  rw [scaleDown_eq_getPA, child_eq_some h]

/-- `set_mapping` of a page whose page table is there only writes the entry. -/
theorem setMapping_of_table {phyaddr flags : Word} (hr : r < 2^52)
    (h : s.table r (vpage va).dir = some t) :
    s.setMapping (convertVA r) va phyaddr flags =
      some (s.setEntry t (vpage va).pte (phyaddr ||| flags)) := by
  simp only [table, VPage.dir, vpage, Radix.walk_cons, Radix.walk_nil, Option.bind_eq_some_iff,
    Option.some.injEq] at h
  obtain ⟨t3, h3, t2, h2, t1, h1, rfl⟩ := h
  have hlt : ∀ {e : Word} {f : ℕ}, child e = some f → f < 2^52 := fun hc =>
    child_eq_some hc ▸ frameOf_lt _
  simp only [setMapping, createDirTable_of_child hr h3, getPA_add_kernBase,
    createDirTable_of_child (hlt h3) h2, createDirTable_of_child (hlt h2) h1,
    kwrite_slot (hlt h1), Option.bind_eq_bind, Option.bind_some, vpage]

end Mm

end Nascent
