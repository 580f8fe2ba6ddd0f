import Nascent.Cow.Isolation
import Nascent.Fault.Lazy
import Nascent.Fault.Present

/-!
# The memory of a program

`Fault/Lazy.lean` takes the memory of a program as its present pages and the bytes at its addresses. An address
space whose pages have their frames for themselves is such a memory (`Loads`), and what `page_fault_handler` does
to the frames and to the page tables is what it does to this memory, whatever `CR0.WP` is: a page that is present
has the write bit, so the handler is only entered for absent ones.
-/

namespace Nascent.Mm

open Bytes (Byte Block)
open Lazy (UserMem)

variable {s s' : Mm} {roots : Finset ℕ} {r active : ℕ} {va x : Word} {m : Pages} {u : UserMem} {wp : Bool}
  {tar : Word → Byte} {sp : Space} {b : Byte}

/-- The address space in frame `r` has the memory `u` of a program, with a frame for each page. -/
structure Loads (s : Mm) (roots : Finset ℕ) (r : ℕ) (u : UserMem) : Prop where
  /-- The frames. -/
  pages : ∃ m, s.Private roots r m
  /-- The present pages and their bytes. -/
  readByte : ∀ x : Word, x.toNat < 2^48 → (vpage x).InUser →
    s.readByte (convertVA r) x = if u.present (frameOf x) then some (u.mem x) else none

/-- Two addresses below `2^48` on the same page. -/
theorem vpage_eq_iff_frameOf {y : Word} (hx : x.toNat < 2^48) (hy : y.toNat < 2^48) :
    vpage x = vpage y ↔ frameOf x = frameOf y := by
  rw [vpage_eq_iff_div, frameOf_eq_div, frameOf_eq_div]
  omega

/-- The page and the offset determine an address below `2^48`. -/
theorem place_inj {y : Word} (hx : x.toNat < 2^48) (hy : y.toNat < 2^48)
    (h : (vpage x, pageOff x) = (vpage y, pageOff y)) : x = y := by
  obtain ⟨hpage, hoff⟩ := Prod.mk.inj h
  rw [vpage_eq_iff_frameOf hx hy, frameOf_eq_div, frameOf_eq_div] at hpage
  rw [pageOff, pageOff, toNat_and_pageOff, toNat_and_pageOff] at hoff
  exact BitVec.eq_of_toNat_eq (by omega)

/-- The address behind a user's one is below `2^48` too. -/
theorem toNat_succ_lt (hx : x.toNat < 2^48) (hxu : (vpage x).InUser) : (x + 1).toNat < 2^48 := by
  have hlt := inUser_iff.mp hxu
  have hone : (1 : Word).toNat = 1 := rfl
  rw [BitVec.toNat_add]
  omega

namespace Loads

variable (h : s.Loads roots r u) (hr : r ∈ roots)

include h hr

/-- A fresh page of zeros. -/
theorem mapFresh (hva : va.toNat < 2^48) (hv : (vpage va).InUser)
    (hs : s.mapFresh (convertVA r) (scaleDown va) Bytes.zero = some s') :
    s'.Loads roots r (u.mapFresh (scaleDown va)) := by
  obtain ⟨m, hm⟩ := h.pages
  rw [← vpage_scaleDown va] at hv
  obtain ⟨hm', -⟩ := hm.mapFresh hr hv hs
  rw [vpage_scaleDown] at hv
  refine ⟨⟨_, hm'⟩, fun x hx hxu => ?_⟩
  rw [hm'.readByte hr hxu, Pages.readByte, Pages.mapFresh, vpage_scaleDown, UserMem.mapFresh_present,
    Function.update_apply, Function.update_apply]
  by_cases hpage : frameOf x = frameOf va
  · rw [if_pos ((vpage_eq_iff_frameOf hx hva).mpr hpage), if_pos hpage, UserMem.mapFresh_mem_of_eq hpage]
    rfl
  · rw [if_neg (mt (vpage_eq_iff_frameOf hx hva).mp hpage), if_neg hpage, UserMem.mapFresh_mem_of_ne hpage,
      ← h.readByte x hx hxu, hm.readByte hr hxu, Pages.readByte]

omit hr in
/-- A page is present in both or in neither. -/
theorem getPteEntry_isSome (hx : x.toNat < 2^48) (hxu : (vpage x).InUser) :
    (s.getPteEntry (convertVA r) x).isSome = u.present (frameOf x) := by
  have hread := h.readByte x hx hxu
  rw [Mm.readByte] at hread
  cases hpresent : u.present (frameOf x) with
  | false =>
    rw [hpresent, if_neg Bool.false_ne_true, Option.map_eq_none_iff] at hread
    rw [hread]
    rfl
  | true =>
    rw [hpresent, if_pos rfl] at hread
    obtain ⟨e, he, -⟩ := Option.map_eq_some_iff.mp hread
    rw [he]
    rfl

/-- A present page has the write bit. -/
theorem writable_entry {e : Word} (hxu : (vpage x).InUser) (he : s.getPteEntry (convertVA r) x = some e) :
    writable e = true := by
  obtain ⟨m, hm⟩ := h.pages
  rw [getPteEntry_eq (hm.root_lt hr)] at he
  have hleaf : s.leaf r (vpage x) ≠ none := by
    rw [he]
    exact Option.some_ne_none e
  obtain ⟨blk, hblk⟩ := Option.ne_none_iff_exists'.mp ((hm.leaf_ne_none hxu).mp hleaf)
  obtain ⟨g, hown, -⟩ := hm.present _ hxu blk hblk
  obtain ⟨e', he', hwr, -⟩ := hown.entry
  exact Option.some.inj (he'.symm.trans he) ▸ hwr

/-- So a write of the kernel goes through where the page is present. -/
theorem kernelEntry_eq (hxu : (vpage x).InUser) :
    s.kernelEntry wp (convertVA r) x = s.getPteEntry (convertVA r) x := by
  rw [kernelEntry]
  cases he : s.getPteEntry (convertVA r) x with
  | none => rfl
  | some e => rw [Option.filter_some, h.writable_entry hr hxu he, Bool.true_or, if_pos rfl]

/-- A write of the kernel that goes through. -/
theorem kernelPut (hx : x.toNat < 2^48) (hxu : (vpage x).InUser)
    (hs : s.kernelPut wp (convertVA r) x b = some s') : s'.Loads roots r (u.setByte x b) := by
  have hpresent := h.getPteEntry_isSome hx hxu
  have hentry : s.kernelEntry wp (convertVA r) x = s.getPteEntry (convertVA r) x :=
    h.kernelEntry_eq hr hxu
  rw [Mm.kernelPut, hentry] at hs
  obtain ⟨e, he, rfl⟩ := Option.map_eq_some_iff.mp hs
  rw [he, Option.isSome_some] at hpresent
  have hwr := h.writable_entry hr hxu he
  obtain ⟨m, hm⟩ := h.pages
  have hwrite : s.writeByte (convertVA r) x b = some (s.setByte (frameOf e) (pageOff x) b) := by
    rw [Mm.writeByte, he]
    exact if_pos ⟨hwr, hxu⟩
  obtain ⟨m', hm', hprivate, -⟩ := hm.writeByte hr hwrite
  refine ⟨⟨m', hprivate⟩, fun y hy hyu => ?_⟩
  rw [hprivate.readByte hr hyu]
  by_cases hxy : y = x
  · rw [hxy, Pages.readByte_writeByte hm', UserMem.setByte_mem_self]
    exact (if_pos hpresent.symm).symm
  · have hne : (vpage y, pageOff y) ≠ (vpage x, pageOff x) := mt (place_inj hy hx) hxy
    rw [Pages.readByte_writeByte_of_ne hm' hne, ← hm.readByte hr hyu, h.readByte y hy hyu,
      UserMem.setByte_mem_of_ne hxy]
    rfl

end Loads

/-- What handles the faults of the address space handles those of the memory. -/
def FaultLoads (roots : Finset ℕ) (r : ℕ) (fault : Mm → Word → Word → Option Mm)
    (fault' : UserMem → Word → Option UserMem) : Prop :=
  ∀ (s s' : Mm) (u : UserMem) (code x : Word), code ≠ 7 → x.toNat < 2^48 → (vpage x).InUser →
    s.Loads roots r u → fault s code x = some s' → ∃ u', fault' u x = some u' ∧ s'.Loads roots r u'

section Copy

variable {fault : Mm → Word → Word → Option Mm} {fault' : UserMem → Word → Option UserMem}
  {source destination : Word}

/-- A byte that the kernel writes. -/
theorem Loads.kernelWrite (h : s.Loads roots r u) (hr : r ∈ roots) (hfault : FaultLoads roots r fault fault')
    (hx : x.toNat < 2^48) (hs : s.kernelWrite wp fault (convertVA r) x b = some s') :
    (vpage x).InUser ∧ ∃ u', (if u.present (frameOf x) then some u else fault' u x) = some u' ∧
      s'.Loads roots r (u'.setByte x b) := by
  rw [Mm.kernelWrite, Option.ite_none_right_eq_some] at hs
  obtain ⟨hxu, hs⟩ := hs
  refine ⟨hxu, ?_⟩
  have hpresent := h.getPteEntry_isSome hx hxu
  rw [h.kernelEntry_eq hr hxu, hpresent] at hs
  split_ifs at hs ⊢ with hpage
  · exact ⟨u, rfl, h.kernelPut hr hx hxu hs⟩
  · obtain ⟨s₁, h₁, hs⟩ := Option.bind_eq_some_iff.mp hs
    obtain ⟨u', hu', h'⟩ := hfault s s₁ u 2 x (by decide) hx hxu h h₁
    exact ⟨u', hu', h'.kernelPut hr hx hxu hs⟩

/-- A copy, whose faults are handled in both. -/
theorem Loads.memcopyLoop (hr : r ∈ roots) (hfault : FaultLoads roots r fault fault') :
    ∀ (n i : ℕ) (s : Mm) (u : UserMem), s.Loads roots r u → (destination + BitVec.ofNat 64 i).toNat < 2^48 →
      (List.range' i n).foldlM (fun s i => s.kernelWrite wp fault (convertVA r)
        (destination + BitVec.ofNat 64 i) (tar (source + BitVec.ofNat 64 i))) s = some s' →
      ∃ u', Lazy.memcopyLoop fault' tar source destination n i u = some u' ∧ s'.Loads roots r u'
  | 0, i, s, u, h, _, hs => ⟨u, rfl, Option.some.inj hs ▸ h⟩
  | n + 1, i, s, u, h, hx, hs => by
    rw [List.range'_succ, List.foldlM_cons] at hs
    obtain ⟨s₁, h₁, hs⟩ := Option.bind_eq_some_iff.mp hs
    obtain ⟨hxu, u₁, hu₁, hloads⟩ := h.kernelWrite hr hfault hx h₁
    have hnext : (destination + BitVec.ofNat 64 (i + 1)).toNat < 2^48 := by
      rw [BitVec.ofNat_add, ← BitVec.add_assoc]
      exact toNat_succ_lt hx hxu
    obtain ⟨u', hu', h'⟩ := Loads.memcopyLoop hr hfault n (i + 1) s₁ _ hloads hnext hs
    refine ⟨u', ?_, h'⟩
    rw [Lazy.memcopyLoop, hu₁]
    exact hu'

end Copy

/-- The four cases of a copy. -/
theorem copySegment_eq (fault' : UserMem → Word → Option UserMem) (vma : Vma) (va : Word) (u : UserMem) :
    Lazy.copySegment fault' tar vma (scaleDown va) u =
      Lazy.memcopyLoop fault' tar (vma.filePart va).1 (vma.filePart va).2.1 (vma.filePart va).2.2 0 u := by
  have hpage : (4 * 1024 : Word) = 4096 := rfl
  simp only [Lazy.copySegment, Vma.filePart, Lazy.memcopy, hpage]
  split_ifs <;> rfl

/-- A fault with an error code other than 7 does to the address space what it does to the memory of the program. -/
theorem Loads.pageFaultNested (hr : r ∈ roots) (hpml : sp.pml4 = convertVA r) (active : ℕ) :
    FaultLoads roots r (Mm.pageFaultNested wp tar sp active) (Lazy.pageFaultHandler tar sp.vmas active) := by
  induction active with
  | zero =>
    intro s s' u code x _ _ _ _ hs
    cases hs
  | succ active ih =>
    intro s s' u code x hcode hx hxu h hs
    rw [Mm.pageFaultNested] at hs
    rw [Lazy.pageFaultHandler]
    cases hvma : checkVma sp.vmas x with
    | none =>
      rw [hvma] at hs
      cases hs
    | some vma =>
      rw [hvma] at hs
      dsimp only at hs ⊢
      rw [if_neg hcode] at hs
      split_ifs at hs ⊢
      · obtain ⟨s₁, h₁, hs⟩ := Option.bind_eq_some_iff.mp hs
        rw [hpml] at h₁ hs
        have hdest := vma.filePart_destination (checkVma_start hvma)
        rw [Mm.memcopyKernel, List.range_eq_range'] at hs
        rw [copySegment_eq]
        refine Loads.memcopyLoop hr ih _ 0 s₁ _ (h.mapFresh hr hx hxu h₁) ?_ hs
        rw [BitVec.add_zero]
        omega
      · rw [hpml] at hs
        exact ⟨_, rfl, h.mapFresh hr hx hxu hs⟩
      · rw [hpml] at hs
        exact ⟨_, rfl, h.mapFresh hr hx hxu hs⟩
      · obtain rfl := Option.some.inj hs
        exact ⟨u, rfl, h⟩

end Nascent.Mm
