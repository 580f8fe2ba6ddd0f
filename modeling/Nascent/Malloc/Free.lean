import Nascent.Malloc.Blocks

/-!
# `free` and `morecore`

`Sound` is what the calls of the allocator keep: the memory is cut into blocks, `freeptr` is on the
list, no two blocks of the list touch, and the byte below `base` is not part of the memory. The last of
these keeps a block from being joined to `base`, which would take `base` from the list.

The scan of `free` ends at the node behind which the block belongs (`Sound.freeScan`), and the insertion
there keeps the heap sound (`Sound.insertAfter`).
-/

namespace Nascent.Malloc

open Heap

variable {base bp b c p f n : ℕ} {h : Heap} {free live : Finset ℕ} {mem : ℕ → Prop}

/-- A heap that the calls of the allocator leave behind. -/
structure Sound (base : ℕ) (h : Heap) (free live : Finset ℕ) (mem : ℕ → Prop) : Prop
    extends Blocks base h free live mem where
  /-- `freeptr` is a node of the list. -/
  freeptr_mem : ∃ f ∈ free, h.freeptr = some f
  /-- No two blocks of the list touch. -/
  notAdjacent : NotAdjacent h free
  /-- The byte below `base` is not part of the memory. -/
  below : ∀ x, x + 1 = base → ¬ mem x

/-! ## Blocks that touch -/

/-- A block of the list that touches another one touches the next one. -/
theorem Blocks.next_eq_of_touch (hb : Blocks base h free live mem) (hbm : b ∈ free) (hcm : c ∈ free)
    (hne : b ≠ c) (htouch : h.blockEnd b = c) : h.ptr b = c := by
  have hbase : b ≠ base := by
    rintro rfl
    rw [blockEnd, hb.base_size, Nat.mul_zero, Nat.add_zero] at htouch
    exact hne htouch
  have hlt : b < c := htouch ▸ hb.lt_blockEnd (Finset.mem_union_left _ hbm) hbase
  obtain ⟨hbn, hnc⟩ := hb.ring.next_le_of_lt hbm hcm hlt
  have hnm := Finset.mem_union_left live (hb.ring.next_mem b hbm)
  have hle := le_blockEnd h (h.ptr b)
  rcases hb.apart b (Finset.mem_union_left _ hbm) _ hnm hbn.ne with h1 | h1 <;> omega

/-- No blocks touch where none touches the next one. -/
theorem Blocks.notAdjacent (hb : Blocks base h free live mem)
    (hnext : ∀ b ∈ free, b ≠ h.ptr b → h.blockEnd b ≠ h.ptr b) : NotAdjacent h free := by
  intro b hbm c hcm hne htouch
  have hptr := hb.next_eq_of_touch hbm hcm hne htouch
  exact hnext b hbm (hptr ▸ hne) (htouch.trans hptr.symm)

/-- A block whose memory ends at `base` would be memory below `base`. -/
theorem Sound.blockEnd_ne_base (hs : Sound base h free live mem) (hbm : b ∈ free ∪ live)
    (hne : b ≠ base) : h.blockEnd b ≠ base := by
  intro hend
  have hlt := hs.lt_blockEnd hbm hne
  obtain ⟨x, hx⟩ : ∃ x, x + 1 = base := ⟨base - 1, by omega⟩
  exact hs.below x hx (hs.mem_last hbm hne (hx.trans hend.symm))

/-! ## The insertion -/

/-- The heap after the first part of the insertion, with the block already behind its node. -/
def Heap.linked (h : Heap) (bp p : ℕ) : Heap := (h.joinUpper bp p).setPtr p bp

section Linked

theorem linked_ptr_self : (h.linked bp p).ptr p = bp := setPtr_ptr_self

theorem joinUpper_size_of_ne (hne : c ≠ bp) : (h.joinUpper bp p).size c = h.size c := by
  unfold joinUpper
  split
  · rw [setPtr_size, setSize_size_of_ne hne]
  · rw [setPtr_size]

theorem joinUpper_ptr_of_ne (hne : c ≠ bp) : (h.joinUpper bp p).ptr c = h.ptr c := by
  unfold joinUpper
  split
  · rw [setPtr_ptr_of_ne hne, setSize_ptr]
  · rw [setPtr_ptr_of_ne hne]

theorem linked_size_of_ne (hne : c ≠ bp) : (h.linked bp p).size c = h.size c :=
  joinUpper_size_of_ne hne

theorem linked_ptr_of_ne (hbp : c ≠ bp) (hp : c ≠ p) : (h.linked bp p).ptr c = h.ptr c := by
  rw [linked, setPtr_ptr_of_ne hp, joinUpper_ptr_of_ne hbp]

/-- The block does not become smaller. -/
theorem size_le_linked : h.size bp ≤ (h.linked bp p).size bp := by
  rw [linked, setPtr_size]
  unfold joinUpper
  split
  · rw [setPtr_size, setSize_size_self]
    exact Nat.le_add_right ..
  · rw [setPtr_size]

end Linked

/-- A heap that is linked, where the block does not touch the node behind it. -/
theorem linked_of_not_touch (htouch : h.blockEnd bp ≠ h.ptr p) :
    h.linked bp p = { h with ptr := Function.update (Function.update h.ptr bp (h.ptr p)) p bp } := by
  rw [linked, joinUpper, if_neg htouch]
  rfl

/-- A heap that is linked, where the block touches the node behind it: the two are joined. -/
theorem linked_of_touch (hne : bp ≠ p) (hnext : h.ptr p ≠ p) (hnbp : h.ptr p ≠ bp)
    (htouch : h.blockEnd bp = h.ptr p) :
    h.linked bp p = Heap.mergeNext
      { h with ptr := Function.update (Function.update h.ptr bp (h.ptr p)) p bp } bp := by
  have hbp : Function.update (Function.update h.ptr bp (h.ptr p)) p bp bp = h.ptr p := by
    rw [Function.update_of_ne hne, Function.update_self]
  have hn : Function.update (Function.update h.ptr bp (h.ptr p)) p bp (h.ptr p) = h.ptr (h.ptr p) := by
    rw [Function.update_of_ne hnext, Function.update_of_ne hnbp]
  rw [linked, joinUpper, if_pos htouch, Heap.mergeNext]
  simp only [setPtr, setSize, hbp, hn]
  rw [Function.update_comm hne.symm, Function.update_idem, Function.update_comm hne]

/-- The second part of the insertion, where the node does not touch the block. -/
theorem joinLower_of_not_touch (hne : p ≠ bp) (htouch : h.blockEnd p ≠ bp) :
    (h.joinUpper bp p).joinLower bp p = h.linked bp p := by
  rw [joinLower, if_neg, linked]
  rwa [blockEnd_congr (joinUpper_size_of_ne hne)]

/-- The second part of the insertion, where the node touches the block: the two are joined. -/
theorem joinLower_of_touch (hne : p ≠ bp) (htouch : h.blockEnd p = bp) :
    (h.joinUpper bp p).joinLower bp p = (h.linked bp p).mergeNext p := by
  rw [joinLower, if_pos (by rwa [blockEnd_congr (joinUpper_size_of_ne hne)]), Heap.mergeNext,
    linked_ptr_self]
  simp only [linked, setPtr, setSize, Function.update_of_ne hne.symm, Function.update_idem]

/-- Only the headers matter for the blocks. -/
theorem Blocks.congr {h' : Heap} (hb : Blocks base h free live mem) (hptr : h'.ptr = h.ptr)
    (hsize : h'.size = h.size) : Blocks base h' free live mem := by
  have hend : h'.blockEnd = h.blockEnd := funext fun b => blockEnd_congr (congrFun hsize b)
  refine ⟨hptr ▸ hb.ring, hb.base_mem, hsize ▸ hb.base_size, hb.disjoint, hsize ▸ hb.pos, ?_, ?_⟩
  · rw [hend]
    exact hb.apart
  · rw [hend]
    exact hb.cover

/-- The first part of the insertion keeps the blocks, and only the node before the block may touch
its next one afterwards. -/
theorem Sound.linked (hs : Sound base h free live mem) (hbp : bp ∈ live) (hp : p ∈ free)
    (hgap : InGap p (h.ptr p) bp) :
    ∃ free', Blocks base (h.linked bp p) free' (live.erase bp) mem ∧ bp ∈ free' ∧ p ∈ free' ∧
      ∀ b ∈ free', b ≠ p → b ≠ (h.linked bp p).ptr b →
        (h.linked bp p).blockEnd b ≠ (h.linked bp p).ptr b := by
  have hne : bp ≠ p := fun heq => Finset.disjoint_left.mp hs.disjoint hp (heq ▸ hbp)
  have hnm := hs.ring.next_mem p hp
  have hnbp : h.ptr p ≠ bp := fun heq => Finset.disjoint_left.mp hs.disjoint hnm (heq ▸ hbp)
  have hlink := hs.link hbp hp hgap
  -- The other blocks of the list have the headers they had.
  have hold : ∀ b ∈ free, b ≠ p → b ≠ (h.linked bp p).ptr b →
      (h.linked bp p).blockEnd b ≠ (h.linked bp p).ptr b := by
    intro b hb hbp' hself
    have hbbp : b ≠ bp := fun heq => Finset.disjoint_left.mp hs.disjoint hb (heq ▸ hbp)
    rw [linked_ptr_of_ne hbbp hbp'] at hself ⊢
    rw [blockEnd_congr (linked_size_of_ne hbbp)]
    exact hs.notAdjacent b hb _ (hs.ring.next_mem b hb) hself
  by_cases htouch : h.blockEnd bp = h.ptr p
  · have hnbase : h.ptr p ≠ base := htouch ▸
      hs.blockEnd_ne_base (Finset.mem_union_right _ hbp) (hs.ne_base hbp)
    have hnext := hs.next_ne hp hnbase
    have heq := linked_of_touch hne hnext hnbp htouch
    obtain ⟨g, hg⟩ : ∃ g : Heap, g =
        { h with ptr := Function.update (Function.update h.ptr bp (h.ptr p)) p bp } := ⟨_, rfl⟩
    rw [← hg] at heq hlink
    have hgsize : g.size = h.size := by rw [hg]
    have hptr : g.ptr bp = h.ptr p := by
      rw [hg]
      exact (Function.update_of_ne hne _ _).trans (Function.update_self ..)
    have htouch' : g.blockEnd bp = g.ptr bp := by
      rw [blockEnd_congr (congrFun hgsize bp), htouch, hptr]
    have hmerge := hlink.mergeNext (Finset.mem_insert_self bp free) (hptr ▸ hnbase) htouch'
    rw [hptr, ← heq] at hmerge
    refine ⟨_, hmerge, Finset.mem_erase.mpr ⟨hnbp.symm, Finset.mem_insert_self _ _⟩,
      Finset.mem_erase.mpr ⟨hnext.symm, Finset.mem_insert_of_mem hp⟩, fun b hb hbp' hself => ?_⟩
    rcases Finset.mem_insert.mp (Finset.mem_of_mem_erase hb) with rfl | hb
    · -- The block now ends where the node behind it ended, and that node touched no other.
      have hend : (h.linked b p).blockEnd b = h.blockEnd (h.ptr p) := by
        rw [heq, mergeNext_blockEnd_self, htouch', hptr, hgsize, blockEnd]
      have hnn : (h.linked b p).ptr b = h.ptr (h.ptr p) := by
        rw [heq, Heap.mergeNext, setPtr_ptr_self, hptr, hg]
        exact (Function.update_of_ne hnext _ _).trans (Function.update_of_ne hnbp _ _)
      rw [hend, hnn]
      refine hs.notAdjacent _ hnm _ (hs.ring.next_mem _ hnm) fun hself => hnext ?_
      exact (hs.ring.eq_of_next_self hnm hself.symm hp).symm
    · exact hold b hb hbp' hself
  · have heq := linked_of_not_touch htouch
    rw [← heq] at hlink
    refine ⟨_, hlink, Finset.mem_insert_self _ _, Finset.mem_insert_of_mem hp,
      fun b hb hbp' hself => ?_⟩
    rcases Finset.mem_insert.mp hb with rfl | hb
    · have hend : (h.linked b p).blockEnd b = h.blockEnd b := by rw [heq]; rfl
      have hptr : (h.linked b p).ptr b = h.ptr p := by
        rw [heq]
        exact (Function.update_of_ne hne _ _).trans (Function.update_self ..)
      rw [hend, hptr]
      exact htouch
    · exact hold b hb hbp' hself

/-- The insertion of a live block keeps the heap sound, and afterwards a block of the list is as large
as the one that was inserted. -/
theorem Sound.insertAfter (hs : Sound base h free live mem) (hbp : bp ∈ live) (hp : p ∈ free)
    (hgap : InGap p (h.ptr p) bp) :
    ∃ free', Sound base (h.insertAfter bp p) free' (live.erase bp) mem ∧
      (∀ c ∈ live.erase bp, (h.insertAfter bp p).size c = h.size c) ∧
      ∃ t ∈ free', h.size bp ≤ (h.insertAfter bp p).size t := by
  have hne : p ≠ bp := fun heq => Finset.disjoint_left.mp hs.disjoint hp (heq ▸ hbp)
  obtain ⟨free₁, hb, hbpm, hpm, hloose⟩ := hs.linked hbp hp hgap
  have hlive : ∀ c ∈ live.erase bp, c ≠ bp ∧ c ≠ p := fun c hc =>
    ⟨Finset.ne_of_mem_erase hc, fun heq =>
      Finset.disjoint_left.mp hs.disjoint hp (heq ▸ Finset.mem_of_mem_erase hc)⟩
  by_cases htouch : h.blockEnd p = bp
  · have heq : (h.insertAfter bp p) = { (h.linked bp p).mergeNext p with freeptr := some p } := by
      rw [Heap.insertAfter, joinLower_of_touch hne htouch]
    have hend : (h.linked bp p).blockEnd p = (h.linked bp p).ptr p := by
      rw [blockEnd_congr (linked_size_of_ne hne), linked_ptr_self, htouch]
    have hnbase : (h.linked bp p).ptr p ≠ base := linked_ptr_self ▸ hs.ne_base hbp
    have hmerge := hb.mergeNext hpm hnbase hend
    rw [linked_ptr_self] at hmerge
    have hpm' : p ∈ free₁.erase bp := Finset.mem_erase.mpr ⟨hne, hpm⟩
    rw [heq]
    have hblocks : Blocks base { (h.linked bp p).mergeNext p with freeptr := some p }
      (free₁.erase bp) (live.erase bp) mem := hmerge.congr rfl rfl
    refine ⟨_, ⟨hblocks, ⟨p, hpm', rfl⟩, hblocks.notAdjacent fun b hbm hself => ?_, hs.below⟩,
      fun c hc => ?_, p, hpm', ?_⟩
    · by_cases hbp' : b = p
      · -- The node now ends where the block ended, and the block touches no other.
        rw [hbp'] at hself ⊢
        have hptr : ((h.linked bp p).mergeNext p).ptr p = (h.linked bp p).ptr bp := by
          rw [Heap.mergeNext, setPtr_ptr_self, linked_ptr_self]
        have hend' : ((h.linked bp p).mergeNext p).blockEnd p = (h.linked bp p).blockEnd bp := by
          rw [mergeNext_blockEnd_self, hend, linked_ptr_self]
          rfl
        change ((h.linked bp p).mergeNext p).blockEnd p ≠ ((h.linked bp p).mergeNext p).ptr p
        rw [hptr, hend']
        refine hloose bp hbpm hne.symm fun hself' => hne ?_
        exact hb.ring.eq_of_next_self hbpm hself'.symm hpm
      · have hptr : ((h.linked bp p).mergeNext p).ptr b = (h.linked bp p).ptr b :=
          setPtr_ptr_of_ne hbp'
        change ((h.linked bp p).mergeNext p).blockEnd b ≠ ((h.linked bp p).mergeNext p).ptr b
        change b ≠ ((h.linked bp p).mergeNext p).ptr b at hself
        rw [hptr] at hself ⊢
        rw [mergeNext_blockEnd_of_ne hbp']
        exact hloose b (Finset.mem_of_mem_erase hbm) hbp' hself
    · exact (mergeNext_size_of_ne (hlive c hc).2).trans (linked_size_of_ne (hlive c hc).1)
    · change h.size bp ≤ ((h.linked bp p).mergeNext p).size p
      rw [mergeNext_size_self, linked_ptr_self]
      exact size_le_linked.trans (Nat.le_add_left ..)
  · have heq : (h.insertAfter bp p) = { h.linked bp p with freeptr := some p } := by
      rw [Heap.insertAfter, joinLower_of_not_touch hne htouch]
    rw [heq]
    have hblocks : Blocks base { h.linked bp p with freeptr := some p } free₁ (live.erase bp) mem :=
      hb.congr rfl rfl
    refine ⟨_, ⟨hblocks, ⟨p, hpm, rfl⟩, hblocks.notAdjacent fun b hbm hself => ?_, hs.below⟩,
      fun c hc => linked_size_of_ne (hlive c hc).1, bp, hbpm, size_le_linked⟩
    change (h.linked bp p).blockEnd b ≠ (h.linked bp p).ptr b
    by_cases hbp' : b = p
    · rw [hbp', blockEnd_congr (linked_size_of_ne hne), linked_ptr_self]
      exact htouch
    · exact hloose b hbm hbp' hself

/-! ## The scan -/

/-- The test of the scan is whether the block belongs behind the node. -/
theorem freeScan_succ (fuel : ℕ) :
    (InGap p (h.ptr p) bp → h.freeScan bp (fuel + 1) p = some p) ∧
      (¬ InGap p (h.ptr p) bp → h.freeScan bp (fuel + 1) p = h.freeScan bp fuel (h.ptr p)) := by
  have htest : InGap p (h.ptr p) bp ↔
      (bp > p ∧ bp < h.ptr p) ∨ (p ≥ h.ptr p ∧ (bp > p ∨ bp < h.ptr p)) := Iff.rfl
  rw [htest, freeScan]
  split_ifs with h1 h2
  · exact ⟨fun _ => rfl, fun hno => absurd (.inl h1) hno⟩
  · exact ⟨fun _ => rfl, fun hno => absurd (.inr h2) hno⟩
  · exact ⟨fun hyes => absurd hyes (not_or.mpr ⟨h1, h2⟩), fun _ => rfl⟩

/-- More steps do not change what the scan finds. -/
theorem freeScan_mono {r : ℕ} : ∀ {fuel fuel' : ℕ} (p : ℕ), fuel ≤ fuel' →
    h.freeScan bp fuel p = some r → h.freeScan bp fuel' p = some r
  | 0, _, _, _, hr => by cases hr
  | fuel + 1, 0, _, hle, _ => absurd hle (by omega)
  | fuel + 1, fuel' + 1, p, hle, hr => by
    by_cases hgap : InGap p (h.ptr p) bp
    · rw [(freeScan_succ fuel).1 hgap] at hr
      rw [(freeScan_succ fuel').1 hgap, hr]
    · rw [(freeScan_succ fuel).2 hgap] at hr
      rw [(freeScan_succ fuel').2 hgap]
      exact freeScan_mono _ (by omega) hr

/-- The scan ends where a node that is reached is the right one. -/
theorem freeScan_of_reach (hr : Ring free h.ptr) : ∀ (k p : ℕ), p ∈ free →
    InGap (h.ptr^[k] p) (h.ptr (h.ptr^[k] p)) bp →
    ∃ r ∈ free, InGap r (h.ptr r) bp ∧ h.freeScan bp (k + 1) p = some r := by
  intro k
  induction k with
  | zero => exact fun p hp hgap => ⟨p, hp, hgap, (freeScan_succ 0).1 hgap⟩
  | succ k ih =>
    intro p hp hgap
    by_cases hnow : InGap p (h.ptr p) bp
    · exact ⟨p, hp, hnow, (freeScan_succ _).1 hnow⟩
    · obtain ⟨r, hrm, hrg, hscan⟩ := ih (h.ptr p) (hr.next_mem p hp) hgap
      exact ⟨r, hrm, hrg, ((freeScan_succ _).2 hnow).trans hscan⟩

/-- The scan of `free` ends, from every node, at a node behind which the block belongs. -/
theorem Blocks.freeScan (hb : Blocks base h free live mem) (hbp : bp ∈ live) (hf : f ∈ free) :
    ∃ r ∈ free, InGap r (h.ptr r) bp ∧ ∃ N, ∀ fuel, N ≤ fuel → h.freeScan bp fuel f = some r := by
  have hnot : bp ∉ free := fun hfree => Finset.disjoint_left.mp hb.disjoint hfree hbp
  obtain ⟨p, hp, hgap⟩ := hb.ring.exists_inGap hnot
  obtain ⟨k, hk⟩ := hb.ring.reach hf hp
  obtain ⟨r, hr, hrg, hscan⟩ := freeScan_of_reach hb.ring k f hf (by rwa [hk])
  exact ⟨r, hr, hrg, k + 1, fun fuel hle => freeScan_mono f hle hscan⟩

/-! ## The two functions -/

/-- More steps do not change what `free` does. -/
theorem free_mono {h' : Heap} {fuel fuel' ap : ℕ} (hle : fuel ≤ fuel') (hr : h.free fuel ap = some h') :
    h.free fuel' ap = some h' := by
  obtain ⟨f, hf, hr⟩ := Option.bind_eq_some_iff.mp hr
  obtain ⟨p, hp, hr⟩ := Option.map_eq_some_iff.mp hr
  rw [Heap.free, hf, Option.bind_some, freeScan_mono f hle hp, Option.map_some, hr]

/-- `free` of a live block ends and keeps the heap sound. -/
theorem Sound.of_free (hs : Sound base h free live mem) (hbp : bp ∈ live) :
    ∃ h' free' N, (∀ fuel, N ≤ fuel → h.free fuel (bp + unit) = some h') ∧
      Sound base h' free' (live.erase bp) mem ∧ (∀ c ∈ live.erase bp, h'.size c = h.size c) ∧
      ∃ t ∈ free', h.size bp ≤ h'.size t := by
  obtain ⟨f, hf, hfp⟩ := hs.freeptr_mem
  obtain ⟨r, hr, hgap, N, hscan⟩ := hs.freeScan hbp hf
  obtain ⟨free', hsound, hsize, hlarge⟩ := hs.insertAfter hbp hr hgap
  refine ⟨_, free', N, fun fuel hle => ?_, hsound, hsize, hlarge⟩
  rw [Heap.free, hfp, Option.bind_some, Nat.add_sub_cancel, hscan fuel hle, Option.map_some]

/-- A number of units that `morecore` takes is at least 1024. -/
theorem le_moreUnits (nunits : ℕ) : 1024 ≤ moreUnits nunits := by
  unfold moreUnits
  split
  · exact le_rfl
  · rename_i hlt
    have hnat := BitVec.toInt_eq_toNat_cond (BitVec.ofNat 32 nunits)
    split at hnat <;> omega

/-- `morecore` ends, keeps the heap sound and leaves a block on the list that is large enough, where
the memory is new and not next to `base`. -/
theorem Sound.of_morecore {up nunits : ℕ} (hs : Sound base h free live mem)
    (hnew : ∀ x, up ≤ x → x < up + unit * moreUnits nunits → ¬ mem x)
    (hbase : base < up ∨ up + unit * moreUnits nunits < base) :
    ∃ h' free' N, (∀ fuel, N ≤ fuel → h.morecore fuel nunits up = some h') ∧
      Sound base h' free' live (fun x => mem x ∨ (up ≤ x ∧ x < up + unit * moreUnits nunits)) ∧
      (∀ c ∈ live, h'.size c = h.size c) ∧ ∃ t ∈ free', moreUnits nunits ≤ h'.size t := by
  have hpos : 0 < moreUnits nunits := lt_of_lt_of_le (by decide) (le_moreUnits nunits)
  obtain ⟨hnot, hb⟩ := hs.adopt hpos hnew (hbase.imp_right le_of_lt)
  have hupf : ∀ c ∈ free ∪ live, c ≠ up := fun c hc heq => hnot (heq ▸ hc)
  have hs₁ : Sound base (h.setSize up (moreUnits nunits)) free (insert up live)
      (fun x => mem x ∨ (up ≤ x ∧ x < up + unit * moreUnits nunits)) := by
    refine ⟨hb, hs.freeptr_mem, fun b hbm c hcm hne => ?_, fun x hx => ?_⟩
    · rw [blockEnd_congr (setSize_size_of_ne (hupf b (Finset.mem_union_left _ hbm)))]
      exact hs.notAdjacent b hbm c hcm hne
    · rintro (hold | ⟨h1, h2⟩)
      · exact hs.below x hx hold
      · omega
  obtain ⟨h', free', N, hfree, hsound, hsize, t, ht, hlarge⟩ :=
    hs₁.of_free (Finset.mem_insert_self up live)
  have herase : (insert up live).erase up = live :=
    Finset.erase_insert fun hup => hnot (Finset.mem_union_right _ hup)
  rw [herase] at hsound hsize
  refine ⟨h', free', N, hfree, hsound, fun c hc => ?_, t, ht, ?_⟩
  · rw [hsize c hc, setSize_size_of_ne (hupf c (Finset.mem_union_right _ hc))]
  · rwa [setSize_size_self] at hlarge

end Nascent.Malloc
