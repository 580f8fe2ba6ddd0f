import Nascent.Cow.Simulation
import Nascent.Fault.Lazy

/-!
# The pages that a child inherits

`page_fault_handler` maps a page where `check_vma` finds a VMA around the faulting address, its end
included. `fork_process` visits the pages of a VMA from its rounded start to its rounded end, with a counter
and a product of type `int` (`src/sys/process.c`). The two agree on what a VMA covers but for one page: a fault
at the very end of a VMA, where this is the start of a page, maps a page that the fork does not visit.
-/

namespace Nascent.Lazy

open Nascent.Bytes (Byte)

variable {tar : Word → Byte} {vmas : List Vma} {a p : Word} {u u' : UserMem}

/-- The page that one activation of `page_fault_handler` maps, for an address whose page is not
present. -/
def mappedPage (vmas : List Vma) (faultingAddr : Word) : Option Word :=
  (checkVma vmas faultingAddr).bind fun vma =>
    if vma.vmtype = .text ∨ vma.vmtype = .data ∨ vma.vmtype = .stack then some (scaleDown faultingAddr)
    else none

theorem mappedPage_eq (h : mappedPage vmas a = some p) : p = scaleDown a := by
  obtain ⟨vma, -, h⟩ := Option.bind_eq_some_iff.mp h
  split at h
  · exact (Option.some.inj h).symm
  · cases h

/-! ## What the handler maps -/

/-- All pages that are present now were present before, or an activation of the handler has mapped
them. -/
def MapsOnly (vmas : List Vma) (u u' : UserMem) : Prop :=
  ∀ f, u'.present f = true → u.present f = true ∨ ∃ x p, mappedPage vmas x = some p ∧ f = frameOf p

theorem MapsOnly.refl (u : UserMem) : MapsOnly vmas u u := fun _ => .inl

theorem MapsOnly.trans {u₁ : UserMem} (h₁ : MapsOnly vmas u u₁) (h₂ : MapsOnly vmas u₁ u') :
    MapsOnly vmas u u' := fun f hf => (h₂ f hf).elim (h₁ f) .inr

/-- The page that an activation maps. -/
theorem mapsOnly_mapFresh (h : mappedPage vmas a = some p) (u : UserMem) :
    MapsOnly vmas u (u.mapFresh (scaleDown a)) := by
  intro f hf
  obtain rfl := mappedPage_eq h
  rw [UserMem.mapFresh_present] at hf
  by_cases hfa : f = frameOf a
  · exact .inr ⟨a, _, h, by rw [hfa, frameOf_scaleDown]⟩
  · rw [Function.update_of_ne hfa] at hf
    exact .inl hf

/-- A copy to the addresses of the program maps what its faults map. -/
theorem mapsOnly_memcopyLoop {fault : UserMem → Word → Option UserMem} {source destination : Word}
    (hfault : ∀ u x u', fault u x = some u' → MapsOnly vmas u u') :
    ∀ (n i : ℕ) (u : UserMem), memcopyLoop fault tar source destination n i u = some u' →
      MapsOnly vmas u u'
  | 0, i, u, h => by
    obtain rfl := Option.some.inj h
    exact .refl u
  | n + 1, i, u, h => by
    obtain ⟨u₁, h₁, h⟩ := Option.bind_eq_some_iff.mp h
    have hrest := mapsOnly_memcopyLoop hfault n (i + 1) _ h
    split at h₁
    · obtain rfl := Option.some.inj h₁
      exact hrest
    · exact (hfault u _ u₁ h₁).trans hrest

/-- The handler maps the pages of its activations, the nested ones included. -/
theorem mapsOnly_pageFaultHandler : ∀ (active : ℕ) (u : UserMem) (a : Word) (u' : UserMem),
    pageFaultHandler tar vmas active u a = some u' → MapsOnly vmas u u'
  | 0, _, _, _, h => by cases h
  | active + 1, u, a, u', h => by
    rw [pageFaultHandler] at h
    cases hvma : checkVma vmas a with
    | none =>
      rw [hvma] at h
      cases h
    | some vma =>
      rw [hvma] at h
      dsimp only at h
      have hpage : ∀ htype : vma.vmtype = .text ∨ vma.vmtype = .data ∨ vma.vmtype = .stack,
          mappedPage vmas a = some (scaleDown a) := fun htype => by
        rw [mappedPage, hvma, Option.bind_some, if_pos htype]
      split at h
      · rename_i htype
        have hfresh := mapsOnly_mapFresh (hpage (htype.imp_right .inl)) u
        split at h
        · refine hfresh.trans ?_
          have hnested := fun u x u' => mapsOnly_pageFaultHandler active u x u'
          unfold copySegment at h
          dsimp only at h
          split at h
          · exact mapsOnly_memcopyLoop hnested _ _ _ h
          · split at h
            · exact mapsOnly_memcopyLoop hnested _ _ _ h
            · split at h
              · exact mapsOnly_memcopyLoop hnested _ _ _ h
              · exact mapsOnly_memcopyLoop hnested _ _ _ h
        · obtain rfl := Option.some.inj h
          exact hfresh
      · split at h
        · rename_i htype
          obtain rfl := Option.some.inj h
          exact mapsOnly_mapFresh (hpage (.inr (.inr htype))) u
        · obtain rfl := Option.some.inj h
          exact .refl u

/-! ## What the fork visits -/

/-- The number of pages from the first page of a VMA to the page of an address. -/
def pageDistance (vma : Vma) (a : Word) : ℤ := (scaleDown a - scaleDown vma.startAddr).toInt / 4096

/-- The page of an address is one that the loop of `fork_process` visits: the loop runs `cnt` times, and
its product `i * PAGE_SIZE` is an `int` too. -/
def Reaches (vma : Vma) (a : Word) : Prop :=
  (-2^19 ≤ pageDistance vma a ∧ pageDistance vma a < 2^19) ∧ pageDistance vma a % 2^20 < vma.cnt

instance (vma : Vma) (a : Word) : Decidable (Reaches vma a) := inferInstanceAs (Decidable ((_ ∧ _) ∧ _))

/-- The product `i * PAGE_SIZE`, as an `int`. -/
theorem toInt_pageOffset (i : ℕ) : (pageOffset i).toInt = ((i : ℤ) * 4096).bmod (2^32) := by
  have hfactor : (BitVec.ofNat 32 i).toInt = (i : ℤ).bmod (2^32) := BitVec.toInt_ofNat ..
  have hsize : (4096 : BitVec 32).toInt = 4096 := by decide
  rw [pageOffset, BitVec.toInt_signExtend_of_le (by decide), BitVec.toInt_mul, hfactor, hsize,
    Int.bmod_mul_bmod]

/-- The distance of two starts of pages. -/
theorem toInt_sub_scaleDown (vma : Vma) (a : Word) :
    (scaleDown a - scaleDown vma.startAddr).toInt = pageDistance vma a * 4096 := by
  have hdvd : (scaleDown a - scaleDown vma.startAddr).toInt % 4096 = 0 := by
    rw [BitVec.toInt_sub, BitVec.toInt_eq_toNat_bmod, BitVec.toInt_eq_toNat_bmod, toNat_scaleDown,
      toNat_scaleDown]
    simp only [Int.bmod_def]
    omega
  rw [pageDistance]
  omega

/-- The distance in numbers of pages. -/
theorem pageDistance_eq (vma : Vma) (a : Word) : pageDistance vma a =
    (((a.toNat / 4096 : ℕ) : ℤ) - ((vma.startAddr.toNat / 4096 : ℕ) : ℤ)).bmod (2^52) := by
  have hmul : ∀ k : ℤ, (k * 4096).bmod (2^64) / 4096 = k.bmod (2^52) := fun k => by
    rw [Int.bmod_def, Int.bmod_def]
    omega
  rw [pageDistance, BitVec.toInt_sub, BitVec.toInt_eq_toNat_bmod, BitVec.toInt_eq_toNat_bmod,
    toNat_scaleDown, toNat_scaleDown, Int.bmod_sub_bmod, Int.sub_bmod_bmod, ← hmul, Int.sub_mul]
  push_cast
  rfl

/-- The loop visits the pages that it reaches. -/
theorem scaleDown_mem_pages (vma : Vma) : scaleDown a ∈ vma.pages ↔ Reaches vma a := by
  have hdist := toInt_sub_scaleDown vma a
  have hoffset : ∀ i, scaleDown vma.startAddr + pageOffset i = scaleDown a ↔
      ((i : ℤ) * 4096).bmod (2^32) = pageDistance vma a * 4096 := by
    intro i
    rw [← hdist, ← toInt_pageOffset, BitVec.toInt_inj, BitVec.eq_sub_iff_add_eq, BitVec.add_comm]
  rw [Vma.pages, List.mem_map, Reaches]
  generalize pageDistance vma a = d at hoffset ⊢
  constructor
  · rintro ⟨i, hi, heq⟩
    have hi := List.mem_range.mp hi
    have heq := (hoffset i).mp heq
    rw [Int.bmod_def] at heq
    omega
  · rintro ⟨⟨hlow, hhigh⟩, hcnt⟩
    refine ⟨(d % 2^20).toNat, List.mem_range.mpr (by omega), (hoffset _).mpr ?_⟩
    rw [Int.bmod_def]
    omega

/-- A VMA of at most `2^19` pages reaches the pages from its rounded start to its rounded end. -/
theorem reaches_iff {vma : Vma} (hle : vma.startAddr ≤ vma.endAddr) (hspan : vma.span ≤ 2^19) :
    Reaches vma a ↔ vma.startAddr.toNat / 4096 ≤ a.toNat / 4096 ∧
      a.toNat / 4096 < (vma.endAddr.toNat + 4095) / 4096 := by
  have hle' : vma.startAddr.toNat ≤ vma.endAddr.toNat := hle
  have hcnt := Vma.cnt_eq hle hspan
  rw [Vma.span] at hcnt hspan
  rw [Reaches, pageDistance_eq, hcnt, Int.bmod_def]
  have ha : a.toNat / 4096 < 2^52 := by omega
  have hend : (vma.endAddr.toNat + 4095) / 4096 ≤ 2^52 := by omega
  have hstart : vma.startAddr.toNat / 4096 ≤ (vma.endAddr.toNat + 4095) / 4096 := by omega
  generalize a.toNat / 4096 = x at ha ⊢
  generalize vma.startAddr.toNat / 4096 = s at hspan hstart ⊢
  generalize (vma.endAddr.toNat + 4095) / 4096 = e at hend hspan hstart ⊢
  omega

/-- A page that a fault maps is visited by `fork_process` if and only if the loop over some VMA of the task
reaches it. For a VMA of at most `2^19` pages these are the pages from its rounded start to its rounded end,
so the page at the very end of the VMA is none of them. All pages that the handler maps are pages of its
activations. -/
theorem fork_visits_iff (tar : Word → Byte) (vmas : List Vma) (a p : Word)
    (hmapped : mappedPage vmas a = some p) :
    ((∃ vma ∈ vmas, p ∈ vma.pages) ↔ ∃ vma ∈ vmas, Reaches vma a) ∧
    (∀ vma ∈ vmas, vma.startAddr ≤ vma.endAddr → vma.span ≤ 2^19 →
      (Reaches vma a ↔ vma.startAddr.toNat / 4096 ≤ a.toNat / 4096 ∧
        a.toNat / 4096 < (vma.endAddr.toNat + 4095) / 4096)) ∧
    ∀ active u u', pageFaultHandler tar vmas active u a = some u' → MapsOnly vmas u u' := by
  refine ⟨?_, fun vma _ hle hspan => reaches_iff hle hspan,
    fun active u u' h => mapsOnly_pageFaultHandler active u a u' h⟩
  obtain rfl := mappedPage_eq hmapped
  constructor
  · rintro ⟨vma, hmem, hpage⟩
    exact ⟨vma, hmem, (scaleDown_mem_pages vma).mp hpage⟩
  · rintro ⟨vma, hmem, hreach⟩
    exact ⟨vma, hmem, (scaleDown_mem_pages vma).mpr hreach⟩

/-- A text segment of two pages. -/
def twoPages : List Vma := [⟨0x400000, 0x402000, 1, .text, 0x2000, 0⟩]

theorem fork_visits_second :
    ((∃ vma ∈ twoPages, 0x401000 ∈ vma.pages) ↔ ∃ vma ∈ twoPages, Reaches vma 0x401234) ∧
    (∀ vma ∈ twoPages, vma.startAddr ≤ vma.endAddr → vma.span ≤ 2^19 →
      (Reaches vma 0x401234 ↔ vma.startAddr.toNat / 4096 ≤ (0x401234 : Word).toNat / 4096 ∧
        (0x401234 : Word).toNat / 4096 < (vma.endAddr.toNat + 4095) / 4096)) ∧
    ∀ active u u', pageFaultHandler (fun _ => 0) twoPages active u 0x401234 = some u' → MapsOnly twoPages u u' :=
  fork_visits_iff (fun _ => 0) twoPages 0x401234 0x401000 (by decide)

/-- A fault at the end of the segment maps a page that the fork does not visit. -/
theorem end_not_visited : ¬ ∀ (vmas : List Vma) (a p : Word), mappedPage vmas a = some p →
    ∃ vma ∈ vmas, p ∈ vma.pages := by
  intro hall
  obtain ⟨vma, hmem, hpage⟩ := hall twoPages 0x402000 0x402000 (by decide)
  obtain rfl := List.mem_singleton.mp hmem
  exact absurd hpage (by decide)

end Nascent.Lazy
