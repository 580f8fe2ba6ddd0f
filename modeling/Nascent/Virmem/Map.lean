import Nascent.Lib.Runs
import Nascent.Virmem.Write

/-!
# A PML4 is a map from pages to entries

`set_mapping` on one PML4. `Paged s r l` is the state it relies on: the tables below the PML4 in
frame `r` are separated, and none of them is on the free list `l`. Each step down the tree keeps
this, with a shorter free list, and leaves all entries of pages (`Descent`, the invariant of the
walk); the last write changes the entry of one page. So a call is one update of the map
`pageMap`, and a run of calls is the run of the updates.
-/

namespace Nascent

open Linked (Chain)
open Runs (run Along)

/-- All positions below one PML4. -/
def Below (r : ℕ) (n : ℕ) (p : List Idx) : Prop := n = r ∧ p.length ≤ 3

theorem positions_below (r : ℕ) : Positions (Below r) where
  prefixClosed := fun n p q h => ⟨h.1, by
    have := h.2
    rw [List.length_append] at this
    omega⟩
  short := fun _ _ h => h.2

namespace Mm

variable {s s' : Mm} {r t : ℕ} {l : List ℕ} {va : Word} {q : List Idx}

/-- The tables below the PML4 in frame `r` are distinct and off the free list, which is `l`. -/
structure Paged (s : Mm) (r : ℕ) (l : List ℕ) : Prop where
  /-- The free list. -/
  free : Chain s.next s.freePageHead l
  /-- The frames of the free list have physical addresses. -/
  lt : ∀ f ∈ l, f < 2^52
  /-- So does the PML4. -/
  root : r < 2^52
  /-- The tables are pairwise distinct. -/
  separate : s.Separate (Below r)
  /-- They are not on the free list. -/
  off : ∀ t, s.IsTable (Below r) t → t ∉ l

/-- The map from pages to entries that a PML4 holds, as `get_pte_entry` reads it. -/
def pageMap (s : Mm) (r : ℕ) (v : VPage) : Option Word := s.leaf r v

/-- The state in the middle of `set_mapping` from the state `s`: the table in frame `t` is at the
end of the path `q`, the pages have the entries they had, and at most one frame for each index of
the path is gone from the free list `l`. -/
structure Descent (s : Mm) (r : ℕ) (l : List ℕ) (q : List Idx) (t : ℕ) (s₁ : Mm) : Prop where
  /-- What is left of the free list. -/
  paged : ∃ k, k ≤ q.length ∧ s₁.Paged r (l.drop k)
  /-- The table that the path leads to. -/
  table : s₁.table r q = some t
  /-- The entries of the pages. -/
  leaf : ∀ v, s₁.leaf r v = s.leaf r v

/-- `set_mapping` starts at the PML4. -/
theorem Paged.descent (h : s.Paged r l) : s.Descent r l [] r s :=
  ⟨⟨0, le_refl _, h⟩, rfl, fun _ => rfl⟩

/-- A step down the tree keeps the invariant. -/
theorem Descent.step {s₁ s₂ : Mm} {i : Idx} {t' : ℕ} (h : s.Descent r l q t s₁)
    (hq : q.length ≤ 2) (hd : DirStep s₁ t i s₂ t') : s.Descent r l (q ++ [i]) t' s₂ := by
  obtain ⟨⟨k, hk, hp⟩, ht, hleaf⟩ := h
  have hO := positions_below r
  have hown : Below r r q := ⟨rfl, by omega⟩
  have hlen : (q ++ [i]).length = q.length + 1 := by simp
  cases hd with
  | follow hpres =>
    refine ⟨⟨k, by omega, hp⟩, ?_, hleaf⟩
    rw [Mm.table, Radix.walk_snoc_of ht, child, if_pos hpres]
  | fresh habs _ hg =>
    have habs' : child (s₁.tbl t i) = none := by rw [child, habs]; rfl
    -- The fresh frame is the head of the free list, so it is no table.
    obtain ⟨l', hl'⟩ : ∃ l', l.drop k = t' :: l' := by
      have := hp.free.start_eq
      rw [hg] at this
      exact List.head?_eq_some_iff.mp this.symm
    have hmem : t' ∈ l.drop k := hl' ▸ List.mem_cons_self ..
    have hb := hp.lt t' hmem
    have hnot : ¬ s₁.IsTable (Below r) t' := fun h => hp.off t' h hmem
    have htable := fun n p (hn : Below r n p) =>
      table_install hO hp.separate hown ht hnot hb habs' hn
    have hnodup := hl' ▸ hp.free.nodup
    have hdrop : l.drop (k + 1) = l' := by
      rw [← List.tail_drop, hl', List.tail_cons]
    refine ⟨⟨k + 1, by omega, ?_, ?_, hp.root, ?_, ?_⟩, ?_, fun v => ?_⟩
    · have hc : Chain s₁.next s₁.freePageHead (t' :: l') := hl' ▸ hp.free
      rw [hdrop]
      exact hc.2
    · rw [hdrop]
      exact fun f hf => hp.lt f (hl' ▸ List.mem_cons_of_mem _ hf)
    · exact separate_install hO hp.separate hown ht hnot hb
    · rintro t₁ ⟨n, p, hn, hw⟩ hm
      rw [hdrop] at hm
      rw [htable n p hn] at hw
      split_ifs at hw
      · obtain rfl := Option.some.inj hw
        exact (List.nodup_cons.mp hnodup).1 hm
      · exact hp.off t₁ ⟨n, p, hn, hw⟩ (hl' ▸ List.mem_cons_of_mem _ hm)
    · rw [htable r _ ⟨rfl, by omega⟩, if_pos ⟨rfl, rfl⟩]
    · rw [leaf_install hO hp.separate hown ht hnot hb habs' hq ⟨rfl, by simp [VPage.dir]⟩, hleaf]

/-- The free frames on the way have physical addresses. -/
theorem Descent.head_lt {s₁ : Mm} {g : ℕ} (h : s.Descent r l q t s₁)
    (hg : s₁.freePageHead = some g) : g < 2^52 := by
  obtain ⟨k, -, hp⟩ := h.paged
  refine hp.lt g (List.mem_of_mem_head? ?_)
  rw [← hp.free.start_eq, hg]
  rfl

/-- A step down the path of a page keeps the invariant. -/
theorem Descent.step_dir {s₁ s₂ : Mm} {i : Idx} {t' : ℕ} {v : VPage} (hq : q ++ [i] <+: v.dir)
    (h : s.Descent r l q t s₁) (hd : DirStep s₁ t i s₂ t') :
    s.Descent r l (q ++ [i]) t' s₂ := by
  have hlen := hq.length_le
  simp only [VPage.dir, List.length_append, List.length_cons, List.length_nil] at hlen
  exact h.step (by omega) hd

/-- `set_mapping` with three free frames succeeds: each step takes at most one of them. -/
theorem Paged.setMapping_isSome (h : s.Paged r l) (hlen : 3 ≤ l.length) (va phyaddr flags : Word) :
    (s.setMapping (convertVA r) va phyaddr flags).isSome := by
  refine Mm.setMapping_isSome (P := s.Descent r l) h.root (fun _ _ _ hd _ => hd.head_lt)
    (fun q i t s₁ hq hd => .inr fun hnone => ?_) (fun _ _ _ _ _ _ hq hd hs => hd.step_dir hq hs)
    h.descent
  have hlt := hq.length_le
  simp only [VPage.dir, List.length_append, List.length_cons, List.length_nil] at hlt
  obtain ⟨k, hk, hp⟩ := hd.paged
  have hstart := hp.free.start_eq
  rw [hnone, eq_comm, List.head?_eq_none_iff, List.drop_eq_nil_iff] at hstart
  omega

/-- `set_mapping` updates the map at one page. -/
theorem Paged.setMapping {phyaddr flags : Word} (h : s.Paged r l)
    (hs : s.setMapping (convertVA r) va phyaddr flags = some s') :
    (∃ k, k ≤ 3 ∧ s'.Paged r (l.drop k)) ∧
      s'.pageMap r = Function.update (s.pageMap r) (vpage va) (present? (phyaddr ||| flags)) := by
  obtain ⟨t, s₁, hd, rfl⟩ := setMapping_cases (P := s.Descent r l) h.root
    (fun _ _ _ hd _ => hd.head_lt) (fun _ _ _ _ _ _ hq hd hs => hd.step_dir hq hs) h.descent hs
  -- The write to the page table.
  have hO := positions_below r
  have hown : ∀ v : VPage, Below r r v.dir := fun v => ⟨rfl, le_refl _⟩
  obtain ⟨⟨k, hk, hp⟩, ht, hleaf⟩ := hd
  refine ⟨⟨k, hk, hp.free, hp.lt, hp.root, separate_setLeaf hO hp.separate (hown _) ht, ?_⟩,
    funext fun v => ?_⟩
  · rintro t' ⟨n, p, hn, hw⟩
    rw [table_setLeaf hO hp.separate (hown _) ht hn] at hw
    exact hp.off t' ⟨n, p, hn, hw⟩
  · rw [pageMap, leaf_setLeaf hO hp.separate (hown _) ht (hown v), hleaf]
    by_cases hv : v = vpage va
    · rw [if_pos ⟨rfl, hv⟩, hv, Function.update_self]
    · rw [if_neg fun h => hv h.2, Function.update_of_ne hv, pageMap]

/-- A call of `set_mapping` on one PML4. -/
structure MapCall where
  /-- `viraddr`. -/
  va : Word
  /-- `phyaddr`. -/
  phyaddr : Word
  /-- `flags`. -/
  flags : Word

/-- The call as a step. -/
def mapStep (r : ℕ) (s : Mm) (c : MapCall) : Option Mm :=
  s.setMapping (convertVA r) c.va c.phyaddr c.flags

/-- The call as an update of a map. -/
def mapUpdate (m : VPage → Option Word) (c : MapCall) : VPage → Option Word :=
  Function.update m (vpage c.va) (some (c.phyaddr ||| c.flags))

/-- There are at least three free frames. -/
def ThreeFree (s : Mm) : Prop := ∃ l, Chain s.next s.freePageHead l ∧ 3 ≤ l.length

/-- A run of calls, each with three free frames, is the run of the updates. -/
theorem Paged.run {cs : List MapCall} (h : s.Paged r l)
    (hpres : ∀ c ∈ cs, present (c.phyaddr ||| c.flags) = true)
    (hfree : Along (mapStep r) (fun s _ => s.ThreeFree) s cs) :
    ∃ s' l', run (mapStep r) s cs = some s' ∧ s'.Paged r l' ∧
      s'.pageMap r = cs.foldl mapUpdate (s.pageMap r) := by
  induction cs generalizing s l with
  | nil => exact ⟨s, l, rfl, h, rfl⟩
  | cons c cs ih =>
    obtain ⟨⟨l₁, hl₁, hlen⟩, hrest⟩ := hfree
    obtain rfl := hl₁.unique h.free
    obtain ⟨s₁, hs₁⟩ := Option.isSome_iff_exists.mp 
      (h.setMapping_isSome hlen c.va c.phyaddr c.flags)
    obtain ⟨⟨k, -, hp⟩, hmap⟩ := h.setMapping hs₁
    rw [present?, if_pos (hpres c (List.mem_cons_self ..))] at hmap
    obtain ⟨s', l', hrun, hp', hmap'⟩ := ih hp (fun c' hc' => hpres c' (List.mem_cons_of_mem _ hc'))
      (hrest s₁ hs₁)
    refine ⟨s', l', ?_, hp', ?_⟩
    · rw [Runs.run_cons, mapStep, hs₁, Option.bind_some, hrun]
    · rw [hmap', hmap, List.foldl_cons, mapUpdate]

/-- `get_pte_entry` reads the map. -/
theorem Paged.getPteEntry (h : s.Paged r l) (w : Word) :
    s.getPteEntry (convertVA r) w = s.pageMap r (vpage w) := getPteEntry_eq h.root

/-- A page-aligned address with flags below it comes back from its entry. -/
theorem scldn_or_of_aligned {phyaddr flags : Word} (hp : phyaddr &&& 0xFFF = 0)
    (hf : flags.toNat < 4096) : scldn (phyaddr ||| flags) = phyaddr := by
  rw [scldn_eq_scaleDown, scaleDown_eq_getPA, frameOf_or hf, ← scaleDown_eq_getPA]
  apply BitVec.eq_of_toNat_eq
  have h0 : phyaddr.toNat % 4096 = 0 := by
    have := congrArg BitVec.toNat hp
    rw [BitVec.toNat_and] at this
    exact (Nat.and_two_pow_sub_one_eq_mod phyaddr.toNat 12).symm.trans this
  rw [toNat_scaleDown]
  omega

/-- A PML4 whose tables are distinct and off the free list is a map from pages to entries. With
three free frames, `set_mapping` gives the page of its address the entry `phyaddr | flags`, which
`get_pte_entry` then reads; `get_mapping` takes every address of the page to its place in the frame
at `phyaddr`, where this is aligned and the flags lie below it; addresses that differ in bits 12 to
47 keep their entries; and the tables stay distinct and off the free list. So a run of calls is
the run of the updates of the map. -/
theorem setMapping_is_map_update (s : Mm) (r : ℕ) (l : List ℕ) (h : s.Paged r l) :
    (∀ va phyaddr flags : Word, 3 ≤ l.length → (phyaddr ||| flags) &&& 1 ≠ 0 →
      ∃ s' l', s.setMapping (convertVA r) va phyaddr flags = some s' ∧
        s'.Paged r l' ∧
        s'.getPteEntry (convertVA r) va = some (phyaddr ||| flags) ∧
        (phyaddr &&& 0xFFF = 0 → flags.toNat < 4096 →
          ∀ va' : Word, va'.extractLsb' 12 36 = va.extractLsb' 12 36 →
            s'.getMapping (convertVA r) va' = phyaddr + (va' &&& 0xFFF)) ∧
        ∀ w : Word, w.extractLsb' 12 36 ≠ va.extractLsb' 12 36 →
          s'.getPteEntry (convertVA r) w = s.getPteEntry (convertVA r) w) ∧
      ∀ cs : List MapCall, (∀ c ∈ cs, (c.phyaddr ||| c.flags) &&& 1 ≠ 0) →
        Along (mapStep r) (fun s _ => s.ThreeFree) s cs →
        ∃ s' l', run (mapStep r) s cs = some s' ∧ s'.Paged r l' ∧
          ∀ w : Word, s'.getPteEntry (convertVA r) w =
            cs.foldl mapUpdate (fun v => s.pageMap r v) (vpage w) := by
  have hbit : ∀ e : Word, e &&& 1 ≠ 0 → present e = true := fun e he => by
    rw [present, bne_iff_ne]
    exact he
  refine ⟨fun va phyaddr flags hlen hp => ?_, fun cs hp hfree => ?_⟩
  · obtain ⟨s', hs'⟩ := Option.isSome_iff_exists.mp 
      (h.setMapping_isSome hlen va phyaddr flags)
    obtain ⟨⟨k, -, hpaged⟩, hmap⟩ := h.setMapping hs'
    rw [present?, if_pos (hbit _ hp)] at hmap
    refine ⟨s', _, hs', hpaged, ?_, fun halign hflags va' hva' => ?_, fun w hw => ?_⟩
    · rw [hpaged.getPteEntry, hmap, Function.update_self]
    · have hleaf : s'.leaf r (vpage va') = some (phyaddr ||| flags) := by
        rw [(vpage_eq_iff va' va).mpr hva']
        exact (congrFun hmap _).trans (Function.update_self ..)
      rw [getMapping_eq h.root hleaf, scldn_or_of_aligned halign hflags]
    · have hne : vpage w ≠ vpage va := fun heq => hw ((vpage_eq_iff w va).mp heq)
      rw [hpaged.getPteEntry, hmap, Function.update_of_ne hne, h.getPteEntry]
  · obtain ⟨s', l', hrun, hpaged, hmap⟩ := h.run (fun c hc => hbit _ (hp c hc)) hfree
    exact ⟨s', l', hrun, hpaged, fun w => by rw [hpaged.getPteEntry, hmap]⟩

/-- A fresh PML4 has no tables below it. -/
theorem table_of_zero {k n : ℕ} (h : s.mem k = Bytes.zero) (hn : Below k n q) (hw : s.table n q = some t) :
    q = [] ∧ t = k := by
  obtain ⟨rfl, -⟩ := hn
  by_cases hq : q = []
  · subst hq
    exact ⟨rfl, (Option.some.inj hw).symm⟩
  · rw [table, Radix.walk_blank (fun j => by rw [tbl_of_zero h, child_zero]) hq] at hw
    cases hw

/-- A memory with an empty PML4 in frame 0 and the free frames 1 to 4. -/
def blank : Mm where
  mem _ := Bytes.zero
  refCount f := if f = 0 then 1 else 0
  next f := if f < 4 then some (f + 1) else none
  freePageHead := some 1
  freePageEnd := some 4
  pageCount := 5
  kpmlAddr := convertVA 0

/-- The frames 1 to 4 of the blank memory are its free list. -/
theorem freeChain_blank : blank.FreeChain [1, 2, 3, 4] := ⟨by decide, by decide, by decide, by decide⟩

/-- The empty PML4 has no table below it. -/
theorem paged_blank : blank.Paged 0 [1, 2, 3, 4] := by
  have htable : ∀ n p t, Below 0 n p → blank.table n p = some t → p = [] ∧ t = 0 :=
    fun n p t hn hw => table_of_zero rfl hn hw
  refine ⟨by decide, by decide, by decide, ?_, ?_⟩
  · intro n p n' p' t h h' hw hw'
    exact ⟨h.1.trans h'.1.symm, (htable n p t h hw).1.trans (htable n' p' t h' hw').1.symm⟩
  · rintro t ⟨n, p, h, hw⟩
    rw [(htable n p t h hw).2]
    decide

/-- A user page is mapped in the empty PML4. -/
theorem setMapping_is_map_update_blank :
    ∃ s', blank.setMapping (convertVA 0) 0x401000 0x4000 7 = some s' ∧
      s'.getPteEntry (convertVA 0) 0x401000 = some 0x4007 ∧
      s'.getMapping (convertVA 0) 0x401123 = 0x4123 := by
  obtain ⟨s', l', hs, -, he, hm, -⟩ := (setMapping_is_map_update blank 0 [1, 2, 3, 4] paged_blank).1
    0x401000 0x4000 7 (by decide) (by decide)
  exact ⟨s', hs, he, hm (by decide) (by decide) 0x401123 (by decide)⟩

end Mm

end Nascent
