import Nascent.Page.FreeList

/-!
# The free list that `create_page_list` builds

`createPageList_spec` says what the list is: the pages that `selected` admits, once each and in
increasing order, with `free_page_end` at the last of them, a count of 0 on the listed pages and a
count of 1 on the others. A page that lies in several regions is appended once for each, and the
second append changes nothing (`appendFree_appendFree`), so one page of the loop is a single
append or none (`markPage_eq`).
-/

namespace Nascent

open Linked (Chain)

namespace Mm

variable {s : Mm} {physfree : Word} {smaps : List Smap} {n : ℕ} {l : List ℕ}

/-- The pages that `create_page_list` puts on the free list: not below the rounded `physfree`, and
inside a usable region. -/
def selected (physfree : Word) (smaps : List Smap) (pageNum : ℕ) : Bool :=
  decide (¬ (pageOffset pageNum < physfree ∨ pageOffset pageNum + pageSize - 1 < physfree)) &&
    smaps.any fun smap => smap.holds (pageOffset pageNum) (pageOffset pageNum + pageSize - 1)

/-- A second append of the same page changes nothing. -/
theorem appendFree_appendFree (s : Mm) (n : ℕ) : (s.appendFree n).appendFree n = s.appendFree n := by
  unfold appendFree
  cases hh : s.freePageHead with
  | none => simp
  | some h =>
    cases he : s.freePageEnd with
    | none => simp [hh, he]
    | some e => simp

/-- The scan of the regions for one page appends it once, if some region holds it. -/
theorem foldl_holds (s : Mm) (n : ℕ) (a b : Word) (smaps : List Smap) :
    smaps.foldl (fun (r : Mm × Bool) smap =>
        if smap.holds a b then (appendFree r.1 n, true) else r) (s, false) =
      if smaps.any (fun smap => smap.holds a b) then (s.appendFree n, true) else (s, false) := by
  have hdone : ∀ smaps : List Smap, smaps.foldl (fun (r : Mm × Bool) smap =>
      if smap.holds a b then (appendFree r.1 n, true) else r) (s.appendFree n, true) =
      (s.appendFree n, true) := by
    intro smaps
    induction smaps with
    | nil => rfl
    | cons smap smaps ih =>
      rw [List.foldl_cons]
      split_ifs
      · rw [appendFree_appendFree]
        exact ih
      · exact ih
  induction smaps with
  | nil => rfl
  | cons smap smaps ih =>
    rw [List.foldl_cons, List.any_cons]
    by_cases h : smap.holds a b
    · simp only [h, if_true, Bool.true_or]
      exact hdone smaps
    · simp only [h, Bool.false_or]
      exact ih

/-- One page of `create_page_list` is an append or a reservation. -/
theorem markPage_eq (physfree : Word) (smaps : List Smap) (s : Mm) (n : ℕ) :
    markPage physfree smaps s n =
      if selected physfree smaps n then s.appendFree n
      else { s with refCount := Function.update s.refCount n 1 } := by
  simp only [markPage, foldl_holds]
  by_cases hlow : pageOffset n < physfree ∨ pageOffset n + pageSize - 1 < physfree
  · have hsel : selected physfree smaps n = false := by
      rw [selected, decide_eq_false (not_not.mpr hlow), Bool.false_and]
    rw [if_pos hlow, hsel]
    rfl
  · have hsel : selected physfree smaps n =
        smaps.any fun smap => smap.holds (pageOffset n) (pageOffset n + pageSize - 1) := by
      rw [selected, decide_eq_true hlow, Bool.true_and]
    rw [if_neg hlow, hsel]
    cases smaps.any fun smap => smap.holds (pageOffset n) (pageOffset n + pageSize - 1)
    · rfl
    · rfl

/-- The state after the first `n` pages: the list, its end, and the counts. -/
structure Marked (physfree : Word) (smaps : List Smap) (s : Mm) (n : ℕ) : Prop where
  /-- The list is the selected pages in order. -/
  chain : Chain s.next s.freePageHead ((List.range n).filter (selected physfree smaps))
  /-- `free_page_end` is the last of them. -/
  last : s.freePageEnd = ((List.range n).filter (selected physfree smaps)).getLast?
  /-- A listed page has the count 0, and any other the count 1. -/
  count : ∀ f < n, s.refCount f = if selected physfree smaps f then 0 else 1

/-- One more page. -/
theorem Marked.markPage (h : Marked physfree smaps s n) :
    Marked physfree smaps (s.markPage physfree smaps n) (n + 1) := by
  have hlt : ∀ f ∈ (List.range n).filter (selected physfree smaps), f < n := by
    intro f hf
    exact List.mem_range.mp (List.mem_of_mem_filter hf)
  have hnot : n ∉ (List.range n).filter (selected physfree smaps) :=
    fun hm => Nat.lt_irrefl _ (hlt n hm)
  have hcount : ∀ (c : ℕ), (c = if selected physfree smaps n then 0 else 1) →
      ∀ f < n + 1, Function.update s.refCount n c f = if selected physfree smaps f then 0 else 1 := by
    intro c hc f hf
    rcases Nat.lt_succ_iff_lt_or_eq.mp hf with hf | rfl
    · rw [Function.update_of_ne (Nat.ne_of_lt hf)]
      exact h.count f hf
    · rw [Function.update_self, hc]
  obtain ⟨hchain, hlast, -⟩ := h
  rw [markPage_eq]
  split_ifs with hsel
  · have hrange : (List.range (n + 1)).filter (selected physfree smaps) =
        (List.range n).filter (selected physfree smaps) ++ [n] := by
      rw [List.range_succ, List.filter_append]
      simp [hsel]
    have hc0 := hcount 0 (by simp [hsel])
    generalize (List.range n).filter (selected physfree smaps) = l at *
    -- The new page follows the old last page, or starts the list.
    rcases List.eq_nil_or_concat l with rfl | ⟨l', e, rfl⟩
    · have hhead : s.freePageHead = none := hchain
      have happ : s.appendFree n = { s with
          refCount := Function.update s.refCount n 0
          next := Function.update s.next n none
          freePageHead := some n
          freePageEnd := some n } := by simp [appendFree, hhead]
      rw [happ]
      refine ⟨?_, ?_, hc0⟩
      · rw [hrange]
        simp
      · rw [hrange]
        simp
    · rw [List.concat_eq_append] at *
      have hend : s.freePageEnd = some e := by simpa using hlast
      obtain ⟨h0, hhead⟩ : ∃ h0, s.freePageHead = some h0 := by
        rw [hchain.start_eq]
        cases l' <;> simp
      have happ : s.appendFree n = { s with
          refCount := Function.update s.refCount n 0
          next := Function.update (Function.update s.next e (some n)) n none
          freePageEnd := some n } := by simp [appendFree, hhead, hend]
      rw [happ]
      refine ⟨?_, ?_, hc0⟩
      · rw [hrange, List.append_assoc]
        exact hchain.set_last (fun hm => hnot (by simp [hm])) (fun he => hnot (by simp [he]))
      · rw [hrange]
        simp
  · have hrange : (List.range (n + 1)).filter (selected physfree smaps) =
        (List.range n).filter (selected physfree smaps) := by
      rw [List.range_succ, List.filter_append]
      simp [hsel]
    refine ⟨?_, ?_, hcount 1 (by simp [hsel])⟩
    · rw [hrange]
      exact hchain
    · rw [hrange]
      exact hlast

/-- One page changes neither the number of pages nor the memory. -/
theorem markPage_frame (s : Mm) (n : ℕ) :
    (s.markPage physfree smaps n).pageCount = s.pageCount ∧
      (s.markPage physfree smaps n).mem = s.mem ∧
      (s.markPage physfree smaps n).kpmlAddr = s.kpmlAddr := by
  rw [markPage_eq]
  split_ifs
  · unfold appendFree
    split <;> exact ⟨rfl, rfl, rfl⟩
  · exact ⟨rfl, rfl, rfl⟩

/-- The loop of `create_page_list` over the first `n` pages. -/
theorem marked_foldl (h : s.freePageHead = none) (he : s.freePageEnd = none) (n : ℕ) :
    Marked physfree smaps ((List.range n).foldl (markPage physfree smaps) s) n ∧
      ((List.range n).foldl (markPage physfree smaps) s).pageCount = s.pageCount := by
  induction n with
  | zero => exact ⟨⟨h, he, fun f hf => absurd hf (Nat.not_lt_zero f)⟩, rfl⟩
  | succ n ih =>
    rw [List.range_succ, List.foldl_append]
    exact ⟨ih.1.markPage, (markPage_frame _ n).1.trans ih.2⟩

/-- The number of pages of a memory that ends at `memEnd`: `mem_end / PAGE_SIZE` as an `int`. -/
def bootCount (memEnd : Word) : ℕ := ((memEnd / pageSize).setWidth 32).toInt.toNat

/-- The rounded `physfree` of `create_page_list`, the end of the kernel and of `pages`. -/
def bootFree (physfree memEnd : Word) : Word :=
  scaleUp (physfree + 16 * ((memEnd / pageSize).setWidth 32).signExtend 64)

/-- The number of pages of a machine with at most 2 GiB. -/
theorem bootCount_eq {memEnd : Word} (hend : memEnd.toNat ≤ 2^31) :
    bootCount memEnd = memEnd.toNat / 4096 ∧
      ((memEnd / pageSize).setWidth 32).toNat = bootCount memEnd := by
  have hdiv : (memEnd / pageSize).toNat = memEnd.toNat / 4096 := by
    rw [BitVec.toNat_udiv]
    rfl
  have hwidth : ((memEnd / pageSize).setWidth 32).toNat = memEnd.toNat / 4096 := by
    rw [BitVec.toNat_setWidth, hdiv]
    omega
  have hcount : bootCount memEnd = memEnd.toNat / 4096 := by
    rw [bootCount, BitVec.toInt_eq_toNat_of_lt (by rw [hwidth]; omega), hwidth, Int.toNat_natCast]
  exact ⟨hcount, hwidth.trans hcount.symm⟩

/-- A machine with at most 2 GiB has at most `2^19` frames. -/
theorem bootCount_le {memEnd : Word} (hend : memEnd.toNat ≤ 2^31) : bootCount memEnd ≤ 2^19 := by
  rw [(bootCount_eq hend).1]
  omega

theorem bootCount_lt (memEnd : Word) : bootCount memEnd < 2^31 := by
  have := BitVec.toInt_lt (x := (memEnd / pageSize).setWidth 32)
  rw [bootCount]
  omega

/-- The list that `create_page_list` builds. -/
theorem createPageList_spec (h : s.freePageHead = none) (he : s.freePageEnd = none)
    (physfree : Word) (smaps : List Smap) (memEnd : Word) :
    Marked (bootFree physfree memEnd) smaps (s.createPageList physfree smaps memEnd)
        (bootCount memEnd) ∧
      (s.createPageList physfree smaps memEnd).pageCount = bootCount memEnd :=
  marked_foldl (s := { s with
    pageCount := bootCount memEnd
    mem := fun f => if frameOf (bootFree physfree memEnd) ≤ f ∧
      f < frameOf (bootFree physfree memEnd) + 5 then Bytes.zero else s.mem f }) h he _

/-- The free list at boot. -/
theorem freeChain_createPageList (h : s.freePageHead = none) (he : s.freePageEnd = none)
    (physfree : Word) (smaps : List Smap) (memEnd : Word) :
    FreeChain (s.createPageList physfree smaps memEnd)
      ((List.range (bootCount memEnd)).filter (selected (bootFree physfree memEnd) smaps)) := by
  obtain ⟨hm, hc⟩ := createPageList_spec h he physfree smaps memEnd
  refine ⟨hm.chain, fun f hf => ?_, fun f hf => ?_, ?_⟩
  · obtain ⟨hr, hsel⟩ := List.mem_filter.mp hf
    rw [hm.count f (List.mem_range.mp hr), if_pos hsel]
  · rw [hc]
    exact List.mem_range.mp (List.mem_of_mem_filter hf)
  · rw [hc]
    exact bootCount_lt memEnd

end Mm

/-! ## Usable memory -/

/-- The region is usable memory, and the page lies behind its first byte and inside of it. -/
def Smap.Contains (smap : Smap) (pageNum : ℕ) : Prop :=
  smap.type = 1 ∧ smap.length ≠ 0 ∧ smap.base.toNat < pageNum * 4096 ∧
    pageNum * 4096 + 4095 < smap.base.toNat + smap.length.toNat

/-- The last byte of a page below `2^19`. -/
theorem toNat_pageEnd {i : ℕ} (hi : i < 2^19) :
    (pageOffset i + pageSize - 1).toNat = i * 4096 + 4095 := by
  have hoff := toNat_pageOffset hi
  have hsize : (pageSize : Word).toNat = 4096 := rfl
  rw [BitVec.toNat_sub, BitVec.toNat_add, hoff, hsize, show (1 : Word).toNat = 1 from rfl]
  omega

/-- The tests of `create_page_list`, where the end of the region does not wrap around. -/
theorem Smap.holds_iff {smap : Smap} {i : ℕ} (hi : i < 2^19)
    (hwrap : smap.base.toNat + smap.length.toNat < 2^64) :
    smap.holds (pageOffset i) (pageOffset i + pageSize - 1) = true ↔ smap.Contains i := by
  have hend : (smap.base + smap.length).toNat = smap.base.toNat + smap.length.toNat := by
    rw [BitVec.toNat_add, Nat.mod_eq_of_lt hwrap]
  simp only [Smap.holds, Smap.Contains, Bool.and_eq_true, beq_iff_eq, bne_iff_ne, decide_eq_true_eq,
    gt_iff_lt, BitVec.lt_def, hend, toNat_pageOffset hi, toNat_pageEnd hi]
  constructor
  · rintro ⟨⟨htype, hlen⟩, ⟨-, hbase⟩, hlast, -⟩
    exact ⟨htype, hlen, hbase, hlast⟩
  · rintro ⟨htype, hlen, hbase, hlast⟩
    exact ⟨⟨htype, hlen⟩, ⟨(Nat.le_add_right ..).trans_lt hlast, hbase⟩, hlast,
      hbase.trans_le (Nat.le_add_right ..)⟩

namespace Mm

variable {s : Mm} {physfree memEnd : Word} {smaps : List Smap}

/-- The pages on the list, in numbers. -/
theorem selected_iff {i : ℕ} (hi : i < 2^19)
    (hsmaps : ∀ smap ∈ smaps, smap.base.toNat + smap.length.toNat < 2^64) :
    selected physfree smaps i = true ↔
      physfree.toNat ≤ i * 4096 ∧ ∃ smap ∈ smaps, smap.Contains i := by
  rw [selected, Bool.and_eq_true, decide_eq_true_eq, List.any_eq_true, BitVec.lt_def, BitVec.lt_def,
    toNat_pageOffset hi, toNat_pageEnd hi]
  have hlow : ¬ (i * 4096 < physfree.toNat ∨ i * 4096 + 4095 < physfree.toNat) ↔
      physfree.toNat ≤ i * 4096 := by omega
  rw [hlow]
  refine and_congr_right fun _ => exists_congr fun smap => ?_
  exact and_congr_right fun hmem => Smap.holds_iff hi (hsmaps smap hmem)

/-- `ScaleUp`, where it does not wrap around, is not below its argument. -/
theorem le_toNat_scaleUp {a : Word} (ha : a.toNat + 4095 < 2^64) : a.toNat ≤ (scaleUp a).toNat := by
  have hrem : (a % pageSize).toNat = a.toNat % 4096 := by rw [BitVec.toNat_umod]; rfl
  have hlt : a.toNat % 4096 < 4096 := Nat.mod_lt _ (by decide)
  have hsub : (pageSize - a % pageSize).toNat = 4096 - a.toNat % 4096 := by
    rw [BitVec.toNat_sub_of_le (by rw [BitVec.le_def, hrem]; exact hlt.le), hrem]
    rfl
  unfold scaleUp
  split_ifs with hoff
  · have hne : a.toNat % 4096 ≠ 0 := fun h0 => hoff (BitVec.eq_of_toNat_eq (hrem.trans h0))
    rw [BitVec.toNat_add, hsub, Nat.mod_eq_of_lt (by omega)]
    exact Nat.le_add_right ..
  · exact le_refl _

/-- The number of pages as a 64-bit word, of which the size of `pages` is computed. -/
theorem toNat_bootSize (hend : memEnd.toNat ≤ 2^31) :
    (16 * ((memEnd / pageSize).setWidth 32).signExtend 64 : Word).toNat = 16 * bootCount memEnd := by
  have hle := bootCount_le hend
  have hwidth := (bootCount_eq hend).2
  have hmsb : ((memEnd / pageSize).setWidth 32).msb = false := by
    rw [BitVec.msb_eq_false_iff_two_mul_lt, hwidth]
    omega
  rw [BitVec.signExtend_eq_setWidth_of_msb_false hmsb, BitVec.toNat_mul, BitVec.toNat_setWidth, hwidth]
  show 16 * (bootCount memEnd % 2^64) % 2^64 = _
  omega

/-- No page at or above the rounded `physfree` holds a byte of `pages`. -/
theorem frameOf_pages_ne (hend : memEnd.toNat ≤ 2^31) {i k : ℕ} (hi : i < bootCount memEnd)
    (hfree : (bootFree physfree memEnd).toNat ≤ i * 4096) (hk : k < 16 * bootCount memEnd) :
    frameOf (physfree + BitVec.ofNat 64 k) ≠ i := by
  have hle := bootCount_le hend
  have hsize := toNat_bootSize hend
  have hlt := physfree.isLt
  have hsum : (physfree + 16 * ((memEnd / pageSize).setWidth 32).signExtend 64).toNat =
      (physfree.toNat + 16 * bootCount memEnd) % 2^64 := by rw [BitVec.toNat_add, hsize]
  rw [frameOf_eq_div, BitVec.toNat_add, BitVec.toNat_ofNat]
  rcases Nat.lt_or_ge (2^64 - 2^32) physfree.toNat with hhigh | hlow
  · -- The array may wrap around, and starts above all pages.
    rcases Nat.lt_or_ge (physfree.toNat + k) (2^64) with hlow | hwrap
    · omega
    · have hup := le_toNat_scaleUp
        (a := physfree + 16 * ((memEnd / pageSize).setWidth 32).signExtend 64) (by omega)
      rw [bootFree] at hfree
      omega
  · have hup := le_toNat_scaleUp
      (a := physfree + 16 * ((memEnd / pageSize).setWidth 32).signExtend 64) (by omega)
    rw [bootFree] at hfree
    omega

/-- The list at boot is the usable memory: NULL-terminated, in increasing order, of just the pages at or
above the rounded `physfree` that a usable region contains. Its last page is `free_page_end`, and the
counts are 0 on it and 1 elsewhere. So no page of the list holds a byte of `pages`, or of the kernel below
it. -/
theorem createPageList_usable (h : s.freePageHead = none) (he : s.freePageEnd = none)
    (hend : memEnd.toNat ≤ 2^31)
    (hsmaps : ∀ smap ∈ smaps, smap.base.toNat + smap.length.toNat < 2^64) :
    let s' := s.createPageList physfree smaps memEnd
    s'.pageCount = memEnd.toNat / 4096 ∧
    ∃ l : List ℕ, Chain s'.next s'.freePageHead l ∧ l.Pairwise (· < ·) ∧
      (∀ i, i ∈ l ↔ i < s'.pageCount ∧ (bootFree physfree memEnd).toNat ≤ i * 4096 ∧
        ∃ smap ∈ smaps, smap.Contains i) ∧
      s'.freePageEnd = l.getLast? ∧
      (∀ i < s'.pageCount, s'.refCount i = if i ∈ l then 0 else 1) ∧
      (∀ i ∈ l, ∀ k < 16 * s'.pageCount, frameOf (physfree + BitVec.ofNat 64 k) ≠ i) ∧
      (physfree.toNat + 16 * s'.pageCount + 4095 < 2^64 →
        ∀ i ∈ l, physfree.toNat + 16 * s'.pageCount ≤ i * 4096) := by
  intro s'
  obtain ⟨⟨hchain, hlast, hcount⟩, hpages⟩ := createPageList_spec h he physfree smaps memEnd
  have hmem : ∀ i, i ∈ (List.range (bootCount memEnd)).filter
      (selected (bootFree physfree memEnd) smaps) ↔ i < bootCount memEnd ∧
        (bootFree physfree memEnd).toNat ≤ i * 4096 ∧ ∃ smap ∈ smaps, smap.Contains i := by
    intro i
    rw [List.mem_filter, List.mem_range]
    refine and_congr_right fun hi => selected_iff (hi.trans_le (bootCount_le hend)) hsmaps
  refine ⟨hpages.trans (bootCount_eq hend).1, _, hchain,
    List.Pairwise.filter _ List.pairwise_lt_range, ?_, hlast, ?_, ?_, ?_⟩
  · rw [hpages]
    exact hmem
  · rw [hpages]
    intro i hi
    refine (hcount i hi).trans ?_
    simp only [List.mem_filter, List.mem_range, hi, true_and]
  · rw [hpages]
    intro i hi k hk
    obtain ⟨hlt, hfree, -⟩ := (hmem i).mp hi
    exact frameOf_pages_ne hend hlt hfree hk
  · rw [hpages]
    intro hwrap i hi
    obtain ⟨-, hfree, -⟩ := (hmem i).mp hi
    have hsum : (physfree + 16 * ((memEnd / pageSize).setWidth 32).signExtend 64).toNat =
        physfree.toNat + 16 * bootCount memEnd := by
      rw [BitVec.toNat_add, toNat_bootSize hend]
      omega
    have hup := le_toNat_scaleUp
      (a := physfree + 16 * ((memEnd / pageSize).setWidth 32).signExtend 64) (by omega)
    rw [bootFree] at hfree
    omega

/-- The state before `start`: all globals are 0. -/
def unbooted : Mm where
  mem := fun _ => Bytes.zero
  refCount := fun _ => 0
  next := fun _ => none
  freePageHead := none
  freePageEnd := none
  pageCount := 0
  kpmlAddr := 0

/-- A machine with 16 MiB, whose kernel ends within the page at 2 MiB, and whose usable regions overlap. -/
theorem createPageList_usable_small :
    let s' := unbooted.createPageList 0x200123 [⟨0x100000, 0x700000, 1⟩, ⟨0x400000, 0xC00000, 1⟩] 0x1000000
    s'.pageCount = 4096 ∧ ∃ l : List ℕ, Chain s'.next s'.freePageHead l ∧ l.Pairwise (· < ·) := by
  obtain ⟨hpages, l, hchain, hsorted, -⟩ := @createPageList_usable unbooted 0x200123 0x1000000
    [⟨0x100000, 0x700000, 1⟩, ⟨0x400000, 0xC00000, 1⟩] rfl rfl (by decide) (by decide)
  exact ⟨hpages.trans (by decide), l, hchain, hsorted⟩

end Mm

end Nascent
