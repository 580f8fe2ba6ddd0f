import Nascent.Malloc.Model
import Nascent.Lib.Ring

/-!
# The blocks of a heap

`Blocks base h free live mem` says that the memory `mem` is cut into the blocks at the addresses `free`
and `live`, and that the free ones, with `base`, form a circular list in increasing order. The changes
that `malloc` and `free` make are put together from four of these blocks: a block goes from the live
ones to the list (`Blocks.link`), two free blocks that touch are joined (`Blocks.mergeNext`), a free
block is taken from the list (`Blocks.unlink`), and the end of a free block is split off
(`Blocks.split`).
-/

namespace Nascent.Malloc

open Heap

variable {base bp b c p q x n : ℕ} {h : Heap} {free live : Finset ℕ} {mem : ℕ → Prop}

/-- A memory that is cut into free and live blocks. -/
structure Blocks (base : ℕ) (h : Heap) (free live : Finset ℕ) (mem : ℕ → Prop) : Prop where
  /-- The free blocks are a circular list in increasing order. -/
  ring : Ring free h.ptr
  /-- The variable `base` is on the list. -/
  base_mem : base ∈ free
  /-- It has no memory. -/
  base_size : h.size base = 0
  /-- No block is both free and live. -/
  disjoint : Disjoint free live
  /-- The other blocks have memory. -/
  pos : ∀ b ∈ free ∪ live, b ≠ base → 0 < h.size b
  /-- The blocks do not overlap. -/
  apart : ∀ b ∈ free ∪ live, ∀ c ∈ free ∪ live, b ≠ c → h.blockEnd b ≤ c ∨ h.blockEnd c ≤ b
  /-- The blocks are the memory. -/
  cover : ∀ x, mem x ↔ ∃ b ∈ free ∪ live, b ≤ x ∧ x < h.blockEnd b

/-- No two blocks of the list touch. -/
def NotAdjacent (h : Heap) (free : Finset ℕ) : Prop :=
  ∀ b ∈ free, ∀ c ∈ free, b ≠ c → h.blockEnd b ≠ c

theorem le_blockEnd (h : Heap) (b : ℕ) : b ≤ h.blockEnd b := Nat.le_add_right ..

/-- The end of a block depends on its size only. -/
theorem blockEnd_congr {h h' : Heap} (hsize : h'.size b = h.size b) :
    h'.blockEnd b = h.blockEnd b := by rw [blockEnd, blockEnd, hsize]

/-- The heap in which a node is joined to the next one. -/
def Heap.mergeNext (h : Heap) (b : ℕ) : Heap :=
  (h.setSize b (h.size b + h.size (h.ptr b))).setPtr b (h.ptr (h.ptr b))

theorem mergeNext_size_self (h : Heap) (b : ℕ) :
    (h.mergeNext b).size b = h.size b + h.size (h.ptr b) := Function.update_self ..

theorem mergeNext_size_of_ne (hne : c ≠ b) : (h.mergeNext b).size c = h.size c :=
  Function.update_of_ne hne ..

theorem mergeNext_blockEnd_self (h : Heap) (b : ℕ) :
    (h.mergeNext b).blockEnd b = h.blockEnd b + unit * h.size (h.ptr b) := by
  rw [blockEnd, mergeNext_size_self, blockEnd, Nat.mul_add, Nat.add_assoc]

theorem mergeNext_blockEnd_of_ne (hne : c ≠ b) : (h.mergeNext b).blockEnd c = h.blockEnd c :=
  blockEnd_congr (mergeNext_size_of_ne hne)

namespace Blocks

/-- A live block is not `base`. -/
theorem ne_base (hb : Blocks base h free live mem) (hlive : b ∈ live) : b ≠ base := by
  rintro rfl
  exact Finset.disjoint_left.mp hb.disjoint hb.base_mem hlive

/-- A block with memory ends behind its address. -/
theorem lt_blockEnd (hb : Blocks base h free live mem) (hmem : b ∈ free ∪ live) (hne : b ≠ base) :
    b < h.blockEnd b := by
  have hpos := hb.pos b hmem hne
  rw [blockEnd, unit]
  omega

/-- The last byte of a block is memory. -/
theorem mem_last (hb : Blocks base h free live mem) (hmem : b ∈ free ∪ live) (hne : b ≠ base)
    (hx : x + 1 = h.blockEnd b) : mem x := by
  have hlt := hb.lt_blockEnd hmem hne
  exact (hb.cover x).mpr ⟨b, hmem, by omega, by omega⟩

/-- A list with a block besides `base` does not lead from a node to itself. -/
theorem next_ne (hb : Blocks base h free live mem) (hp : p ∈ free) (hne : h.ptr p ≠ base) :
    h.ptr p ≠ p := fun hself =>
  hne (hself.trans (hb.ring.eq_of_next_self hp hself hb.base_mem).symm)

/-- A live block is put on the list behind a node. -/
theorem link (hb : Blocks base h free live mem) (hbp : bp ∈ live) (hp : p ∈ free)
    (hgap : InGap p (h.ptr p) bp) :
    Blocks base { h with ptr := Function.update (Function.update h.ptr bp (h.ptr p)) p bp }
      (insert bp free) (live.erase bp) mem := by
  have hnot : bp ∉ free := fun hfree => Finset.disjoint_left.mp hb.disjoint hfree hbp
  have hunion : insert bp free ∪ live.erase bp = free ∪ live := by
    rw [Finset.insert_union, ← Finset.union_insert, Finset.insert_erase hbp]
  refine ⟨hb.ring.insert hp hnot hgap, Finset.mem_insert_of_mem hb.base_mem, hb.base_size, ?_, ?_,
    ?_, ?_⟩
  · rw [Finset.disjoint_insert_left]
    exact ⟨Finset.notMem_erase bp live, hb.disjoint.mono_right (Finset.erase_subset bp live)⟩
  · rw [hunion]
    exact hb.pos
  · rw [hunion]
    exact hb.apart
  · rw [hunion]
    exact hb.cover

/-- Two blocks of the list that touch are joined. -/
theorem mergeNext (hb : Blocks base h free live mem) (hp : b ∈ free) (hne : h.ptr b ≠ base)
    (htouch : h.blockEnd b = h.ptr b) :
    Blocks base (h.mergeNext b) (free.erase (h.ptr b)) live mem := by
  have hnext := hb.next_ne hp hne
  have hc := hb.ring.next_mem b hp
  have hbase : b ≠ base := by
    rintro rfl
    rw [blockEnd, hb.base_size, Nat.mul_zero, Nat.add_zero] at htouch
    exact hnext htouch.symm
  -- The joined block ends where the second one ended, and the others stay.
  have hend : (h.mergeNext b).blockEnd b = h.blockEnd (h.ptr b) := by
    have hend := mergeNext_blockEnd_self h b
    rw [htouch] at hend
    exact hend
  have hother : ∀ c, c ≠ b → (h.mergeNext b).blockEnd c = h.blockEnd c := fun c hc =>
    mergeNext_blockEnd_of_ne hc
  have hsub : ∀ c ∈ free.erase (h.ptr b) ∪ live, c ∈ free ∪ live ∧ c ≠ h.ptr b := by
    intro c hcm
    rcases Finset.mem_union.mp hcm with hcf | hcl
    · exact ⟨Finset.mem_union_left _ (Finset.mem_of_mem_erase hcf), Finset.ne_of_mem_erase hcf⟩
    · refine ⟨Finset.mem_union_right _ hcl, ?_⟩
      rintro rfl
      exact Finset.disjoint_left.mp hb.disjoint hc hcl
  have hself : b ∈ free ∪ live := Finset.mem_union_left _ hp
  have hnode : h.ptr b ∈ free ∪ live := Finset.mem_union_left _ hc
  -- A third block is apart from the joined one.
  have hapart : ∀ c ∈ free.erase (h.ptr b) ∪ live, c ≠ b →
      h.blockEnd (h.ptr b) ≤ c ∨ h.blockEnd c ≤ b := by
    intro c hcm hcb
    obtain ⟨hcm, hcn⟩ := hsub c hcm
    have hle := le_blockEnd h c
    rcases hb.apart b hself c hcm hcb.symm with h1 | h1
    · rcases hb.apart _ hnode c hcm hcn.symm with h2 | h2
      · exact .inl h2
      · omega
    · exact .inr h1
  refine ⟨hb.ring.erase_next hp hnext, Finset.mem_erase.mpr ⟨hne.symm, hb.base_mem⟩, ?_, ?_, ?_, ?_, ?_⟩
  · rw [mergeNext_size_of_ne hbase.symm]
    exact hb.base_size
  · exact hb.disjoint.mono_left (Finset.erase_subset _ _)
  · intro c hcm hcb
    have hpos := hb.pos c (hsub c hcm).1 hcb
    by_cases hcb' : c = b
    · rw [hcb', mergeNext_size_self]
      rw [hcb'] at hpos
      omega
    · rwa [mergeNext_size_of_ne hcb']
  · intro c hcm d hdm hcd
    by_cases hcb : c = b
    · rw [hcb, hend, hother d fun hd => hcd (hcb.trans hd.symm)]
      exact hapart d hdm fun hd => hcd (hcb.trans hd.symm)
    · rw [hother c hcb]
      by_cases hdb : d = b
      · rw [hdb, hend]
        exact (hapart c hcm hcb).symm
      · rw [hother d hdb]
        exact hb.apart c (hsub c hcm).1 d (hsub d hdm).1 hcd
  · intro x
    rw [hb.cover x]
    constructor
    · rintro ⟨c, hcm, hle, hlt⟩
      by_cases hcb : c = b ∨ c = h.ptr b
      · have hle' := le_blockEnd h (h.ptr b)
        have hle'' := le_blockEnd h b
        refine ⟨b, Finset.mem_union_left _ (Finset.mem_erase.mpr ⟨hnext.symm, hp⟩), ?_, ?_⟩
        · rcases hcb with rfl | rfl <;> omega
        · rw [hend]
          rcases hcb with rfl | rfl <;> omega
      · rw [not_or] at hcb
        refine ⟨c, ?_, hle, by rwa [hother c hcb.1]⟩
        rcases Finset.mem_union.mp hcm with hcf | hcl
        · exact Finset.mem_union_left _ (Finset.mem_erase.mpr ⟨hcb.2, hcf⟩)
        · exact Finset.mem_union_right _ hcl
    · rintro ⟨c, hcm, hle, hlt⟩
      by_cases hcb : c = b
      · rw [hcb, hend] at hlt
        rcases Nat.lt_or_ge x (h.ptr b) with hxc | hxc
        · exact ⟨b, hself, hcb ▸ hle, by omega⟩
        · exact ⟨_, hnode, hxc, hlt⟩
      · rw [hother c hcb] at hlt
        exact ⟨c, (hsub c hcm).1, hle, hlt⟩

/-- A free block is taken from the list. -/
theorem unlink (hb : Blocks base h free live mem) (hp : p ∈ free) (hne : h.ptr p ≠ base) :
    Blocks base (h.setPtr p (h.ptr (h.ptr p))) (free.erase (h.ptr p)) (insert (h.ptr p) live) mem := by
  have hc := hb.ring.next_mem p hp
  have hunion : free.erase (h.ptr p) ∪ insert (h.ptr p) live = free ∪ live := by
    rw [Finset.union_insert, ← Finset.insert_union, Finset.insert_erase hc]
  refine ⟨hb.ring.erase_next hp (hb.next_ne hp hne), Finset.mem_erase.mpr ⟨hne.symm, hb.base_mem⟩,
    hb.base_size, ?_, ?_, ?_, ?_⟩
  · rw [Finset.disjoint_insert_right]
    exact ⟨Finset.notMem_erase _ _, hb.disjoint.mono_left (Finset.erase_subset _ _)⟩
  · rw [hunion]
    exact hb.pos
  · rw [hunion]
    exact hb.apart
  · rw [hunion]
    exact hb.cover

/-- The end of a free block is split off. -/
theorem split (hb : Blocks base h free live mem) (hp : p ∈ free) (hn : 0 < n) (hlt : n < h.size p) :
    p + unit * (h.size p - n) ∉ free ∪ live ∧
      Blocks base ((h.setSize p (h.size p - n)).setSize (p + unit * (h.size p - n)) n) free
        (insert (p + unit * (h.size p - n)) live) mem := by
  have hpm : p ∈ free ∪ live := Finset.mem_union_left _ hp
  have hq : p < p + unit * (h.size p - n) := by
    rw [unit]
    omega
  have hend : p + unit * (h.size p - n) + unit * n = h.blockEnd p := by
    rw [blockEnd, Nat.add_assoc, ← Nat.mul_add, Nat.sub_add_cancel hlt.le]
  have hqe : p + unit * (h.size p - n) < h.blockEnd p := by
    rw [← hend, unit]
    omega
  generalize hqd : p + unit * (h.size p - n) = q at hq hend hqe ⊢
  -- The address of the new block is inside the old one.
  have hnot : q ∉ free ∪ live := by
    intro hqm
    have hle := le_blockEnd h q
    rcases hb.apart p hpm q hqm hq.ne with h1 | h1 <;> omega
  refine ⟨hnot, ?_⟩
  set h' := (h.setSize p (h.size p - n)).setSize q n with hh'
  have hsp : h'.size p = h.size p - n := by
    rw [hh', setSize_size_of_ne hq.ne, setSize_size_self]
  have hsq : h'.size q = n := setSize_size_self
  have hso : ∀ c, c ≠ p → c ≠ q → h'.size c = h.size c := fun c hcp hcq => by
    rw [hh', setSize_size_of_ne hcq, setSize_size_of_ne hcp]
  have hep : h'.blockEnd p = q := by rw [blockEnd, hsp, hqd]
  have heq : h'.blockEnd q = h.blockEnd p := by rw [blockEnd, hsq, hend]
  have heo : ∀ c, c ≠ p → c ≠ q → h'.blockEnd c = h.blockEnd c := fun c hcp hcq =>
    blockEnd_congr (hso c hcp hcq)
  have hmem : ∀ c ∈ free ∪ insert q live, c = q ∨ c ∈ free ∪ live := by
    intro c hc
    rwa [Finset.union_insert, Finset.mem_insert] at hc
  have hpb : p ≠ base := by
    rintro rfl
    rw [hb.base_size] at hlt
    omega
  have hbq : base ≠ q := by
    rintro rfl
    exact hnot (Finset.mem_union_left _ hb.base_mem)
  -- A third block is apart from the two parts.
  have hapart : ∀ c ∈ free ∪ live, c ≠ p → h.blockEnd p ≤ c ∨ h.blockEnd c ≤ p :=
    fun c hc hcp => hb.apart p hpm c hc hcp.symm
  have hne : ∀ c ∈ free ∪ live, c ≠ q := fun c hc hcq => hnot (hcq ▸ hc)
  refine ⟨hb.ring, hb.base_mem, ?_, ?_, ?_, ?_, ?_⟩
  · rw [hso base hpb.symm hbq]
    exact hb.base_size
  · rw [Finset.disjoint_insert_right]
    exact ⟨fun hqf => hnot (Finset.mem_union_left _ hqf), hb.disjoint⟩
  · intro c hc hcb
    rcases hmem c hc with rfl | hc
    · rwa [hsq]
    · by_cases hcp : c = p
      · rw [hcp, hsp]
        omega
      · rw [hso c hcp (hne c hc)]
        exact hb.pos c hc hcb
  · intro c hc d hd hcd
    rcases hmem c hc with rfl | hc' <;> rcases hmem d hd with rfl | hd'
    · exact absurd rfl hcd
    · rw [heq]
      by_cases hdp : d = p
      · rw [hdp, hep]
        exact .inr le_rfl
      · rw [heo d hdp (hne d hd')]
        exact (hapart d hd' hdp).imp_right fun h1 => by omega
    · rw [heq]
      by_cases hcp : c = p
      · rw [hcp, hep]
        exact .inl le_rfl
      · rw [heo c hcp (hne c hc')]
        exact (hapart c hc' hcp).symm.imp_left fun h1 => by omega
    · by_cases hcp : c = p
      · have hdp : d ≠ p := fun hd => hcd (hcp.trans hd.symm)
        rw [hcp, hep, heo d hdp (hne d hd')]
        exact (hapart d hd' hdp).imp_left fun h1 => by omega
      · rw [heo c hcp (hne c hc')]
        by_cases hdp : d = p
        · rw [hdp, hep]
          exact (hapart c hc' hcp).symm.imp_right fun h1 => by omega
        · rw [heo d hdp (hne d hd')]
          exact hb.apart c hc' d hd' hcd
  · intro x
    rw [hb.cover x]
    constructor
    · rintro ⟨c, hc, hle, hlt⟩
      by_cases hcp : c = p
      · rw [hcp] at hle hlt
        rcases Nat.lt_or_ge x q with hxq | hxq
        · exact ⟨p, Finset.mem_union_left _ hp, hle, by rwa [hep]⟩
        · exact ⟨q, Finset.mem_union_right _ (Finset.mem_insert_self _ _), hxq, by rwa [heq]⟩
      · refine ⟨c, ?_, hle, by rwa [heo c hcp (hne c hc)]⟩
        rw [Finset.union_insert]
        exact Finset.mem_insert_of_mem hc
    · rintro ⟨c, hc, hle, hlt⟩
      rcases hmem c hc with rfl | hc
      · rw [heq] at hlt
        exact ⟨p, hpm, by omega, hlt⟩
      · by_cases hcp : c = p
        · rw [hcp, hep] at hlt
          exact ⟨p, hpm, hcp ▸ hle, by omega⟩
        · rw [heo c hcp (hne c hc)] at hlt
          exact ⟨c, hc, hle, hlt⟩

/-- Memory that is new becomes a live block. -/
theorem adopt (hb : Blocks base h free live mem) (hn : 0 < n)
    (hnew : ∀ x, p ≤ x → x < p + unit * n → ¬ mem x) (hbase : base < p ∨ p + unit * n ≤ base) :
    p ∉ free ∪ live ∧ Blocks base (h.setSize p n) free (insert p live)
      fun x => mem x ∨ (p ≤ x ∧ x < p + unit * n) := by
  have hpe : p < p + unit * n := by
    rw [unit]
    omega
  have hpb : base ≠ p := by
    rintro rfl
    omega
  have hnot : p ∉ free ∪ live := fun hpm =>
    hnew p le_rfl hpe ((hb.cover p).mpr ⟨p, hpm, le_rfl, hb.lt_blockEnd hpm hpb.symm⟩)
  refine ⟨hnot, ?_⟩
  set h' := h.setSize p n with hh'
  have hsp : h'.size p = n := setSize_size_self
  have hso : ∀ c, c ≠ p → h'.size c = h.size c := fun c hc => setSize_size_of_ne hc
  have hep : h'.blockEnd p = p + unit * n := by rw [blockEnd, hsp]
  have heo : ∀ c, c ≠ p → h'.blockEnd c = h.blockEnd c := fun c hc => blockEnd_congr (hso c hc)
  have hmem : ∀ c ∈ free ∪ insert p live, c = p ∨ c ∈ free ∪ live := by
    intro c hc
    rwa [Finset.union_insert, Finset.mem_insert] at hc
  have hne : ∀ c ∈ free ∪ live, c ≠ p := fun c hc hcp => hnot (hcp ▸ hc)
  -- A block is on one side of the new memory.
  have hapart : ∀ c ∈ free ∪ live, p + unit * n ≤ c ∨ h.blockEnd c ≤ p := by
    intro c hc
    by_cases hcb : c = base
    · have hend : h.blockEnd base = base := by
        rw [blockEnd, hb.base_size, Nat.mul_zero, Nat.add_zero]
      rw [hcb, hend]
      omega
    · by_contra hcon
      rw [not_or, Nat.not_le, Nat.not_le] at hcon
      have hlt := hb.lt_blockEnd hc hcb
      rcases Nat.lt_or_ge c p with hcp | hcp
      · exact hnew p le_rfl hpe ((hb.cover p).mpr ⟨c, hc, hcp.le, hcon.2⟩)
      · exact hnew c hcp hcon.1 ((hb.cover c).mpr ⟨c, hc, le_rfl, hlt⟩)
  refine ⟨hb.ring, hb.base_mem, ?_, ?_, ?_, ?_, ?_⟩
  · rw [hso base hpb]
    exact hb.base_size
  · rw [Finset.disjoint_insert_right]
    exact ⟨fun hpf => hnot (Finset.mem_union_left _ hpf), hb.disjoint⟩
  · intro c hc hcb
    rcases hmem c hc with rfl | hc
    · rwa [hsp]
    · rw [hso c (hne c hc)]
      exact hb.pos c hc hcb
  · intro c hc d hd hcd
    rcases hmem c hc with rfl | hc' <;> rcases hmem d hd with rfl | hd'
    · exact absurd rfl hcd
    · rw [hep, heo d (hne d hd')]
      exact hapart d hd'
    · rw [hep, heo c (hne c hc')]
      exact (hapart c hc').symm
    · rw [heo c (hne c hc'), heo d (hne d hd')]
      exact hb.apart c hc' d hd' hcd
  · intro x
    rw [hb.cover x]
    constructor
    · rintro (⟨c, hc, hle, hlt⟩ | ⟨hle, hlt⟩)
      · refine ⟨c, ?_, hle, by rwa [heo c (hne c hc)]⟩
        rw [Finset.union_insert]
        exact Finset.mem_insert_of_mem hc
      · exact ⟨p, Finset.mem_union_right _ (Finset.mem_insert_self _ _), hle, by rwa [hep]⟩
    · rintro ⟨c, hc, hle, hlt⟩
      rcases hmem c hc with rfl | hc
      · exact .inr ⟨hle, by rwa [hep] at hlt⟩
      · exact .inl ⟨c, hc, hle, by rwa [heo c (hne c hc)] at hlt⟩

end Blocks

end Nascent.Malloc
