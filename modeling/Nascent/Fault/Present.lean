import Nascent.Cow.Overmap
import Nascent.Virmem.Release

/-!
# Faults on present pages

`page_fault_handler` knows a fault on a present page by the error code 7 alone, a write in user mode. With
every other code it takes its branches for absent pages: a fresh frame goes over the page, and the part of
the file that lies there is copied to it. So the page keeps its contents only where these are the ones that
the handler loads (`present_fault_keeps_iff`).

The copies of the handler go to user addresses, and a copy that meets a page which it may not write enters
the handler once more. Here these activations are followed, with a bound on how many are active. Whether a
write in kernel mode stops at a page without the write bit depends on `CR0.WP`, which the source leaves as
it is, so it is a parameter.
-/

namespace Nascent

open Bytes (Byte Block)

/-- What the handler copies to a page of a file: the source, the destination, and the number of bytes, in
the four cases of the source. -/
def Vma.filePart (vma : Vma) (faultingAddr : Word) : Word × Word × ℕ :=
  let vmaStart := vma.startAddr
  let bssAddr := vmaStart + vma.pFilesz
  let sda := scaleDown faultingAddr
  let offset := sda - vmaStart
  if sda < vmaStart ∧ sda + 4096 > bssAddr then (vma.tarfsBase, vmaStart, vma.pFilesz.toNat)
  else if sda ≤ vmaStart then
    (vma.tarfsBase, vmaStart,
      (if vma.pFilesz < 4096 - vmaStart then vma.pFilesz else 4096 - vmaStart).toNat)
  else if sda + 4096 > bssAddr then (vma.tarfsBase + offset, sda, (bssAddr - sda).toNat)
  else (vma.tarfsBase + offset, sda, 4096)

/-- What the handler leaves at the address `w` of the page of the faulting address: the file, and zeros
around it. The first page of a file that begins at 4096 gets zeros only. -/
def Vma.loadedByte (tar : Word → Byte) (vma : Vma) (faultingAddr w : Word) : Byte :=
  if (vma.vmtype = .text ∨ vma.vmtype = .data) ∧ faultingAddr < vma.startAddr + vma.pFilesz ∧
      (vma.startAddr ≤ w ∧ w < vma.startAddr + vma.pFilesz) ∧
      ¬ (vma.startAddr = 4096 ∧ scaleDown faultingAddr = 4096)
  then tar (vma.tarfsBase + (w - vma.startAddr)) else 0

namespace Mm

/-- The entry of the page of an address, where a write in kernel mode goes through. -/
def kernelEntry (wp : Bool) (s : Mm) (pml4 va : Word) : Option Word :=
  (s.getPteEntry pml4 va).filter fun e => writable e || !wp

/-- A write in kernel mode that goes through. -/
def kernelPut (wp : Bool) (pml4 va : Word) (b : Byte) (s : Mm) : Option Mm :=
  (s.kernelEntry wp pml4 va).map fun e => s.setByte (frameOf e) (pageOff va) b

/-- A byte that the kernel writes to a user address. Where the write does not go through, the handler runs
first, with the error code of a write in kernel mode. -/
def kernelWrite (wp : Bool) (fault : Mm → Word → Word → Option Mm) (pml4 : Word) (s : Mm) (va : Word)
    (b : Byte) : Option Mm :=
  if (vpage va).InUser then
    if (s.kernelEntry wp pml4 va).isSome then s.kernelPut wp pml4 va b
    else (fault s (if (s.getPteEntry pml4 va).isSome then 3 else 2) va).bind (kernelPut wp pml4 va b)
  else none

/-- `memcopy` of `n` bytes from the archive to user addresses, with its faults. -/
def memcopyKernel (wp : Bool) (fault : Mm → Word → Word → Option Mm) (tar : Word → Byte)
    (pml4 source destination : Word) (n : ℕ) (s : Mm) : Option Mm :=
  (List.range n).foldlM (fun s i => s.kernelWrite wp fault pml4 (destination + BitVec.ofNat 64 i)
    (tar (source + BitVec.ofNat 64 i))) s

/-- `page_fault_handler`, with at most `active` activations. A fault outside the VMAs ends the process. -/
def pageFaultNested (wp : Bool) (tar : Word → Byte) (sp : Space) : ℕ → Mm → Word → Word → Option Mm
  | 0, _, _, _ => none
  | active + 1, s, errorCode, faultingAddr =>
    match checkVma sp.vmas faultingAddr with
    | none => none
    | some vma =>
      let sda := scaleDown faultingAddr
      if errorCode = 7 then s.cowFault sp.pml4 faultingAddr
      else if vma.vmtype = .text ∨ vma.vmtype = .data then
        if faultingAddr < vma.startAddr + vma.pFilesz then
          let part := vma.filePart faultingAddr
          (s.mapFresh sp.pml4 sda Bytes.zero).bind
            (memcopyKernel wp (pageFaultNested wp tar sp active) tar sp.pml4 part.1 part.2.1 part.2.2)
        else s.mapFresh sp.pml4 sda Bytes.zero
      else if vma.vmtype = .stack then s.mapFresh sp.pml4 sda Bytes.zero
      else some s

variable {s s' s₁ : Mm} {roots : Finset ℕ} {held : ℕ → ℕ} {f g r active : ℕ} {v : VPage}
  {va x source destination : Word} {wp : Bool} {fault : Mm → Word → Word → Option Mm} {tar : Word → Byte}
  {sp : Space} {b : Byte}

/-! ## The handler without nested activations -/

/-- The part of the file that the handler copies, without the nested activations. -/
theorem fileFault_eq (vma : Vma) (pml4 : Word) : s.fileFault tar pml4 va vma =
    (s.mapFresh pml4 (scaleDown va) Bytes.zero).bind
      (memcopyUser tar pml4 (vma.filePart va).1 (vma.filePart va).2.1 (vma.filePart va).2.2) := by
  simp only [fileFault, Vma.filePart, Option.bind_eq_bind]
  refine congrArg _ (funext fun s₁ => ?_)
  split_ifs <;> rfl

/-- A copy that meets present, writable pages only has no nested faults. -/
theorem memcopyKernel_of_memcopyUser {pml4 : Word} {n : ℕ}
    (h : s.memcopyUser tar pml4 source destination n = some s') :
    s.memcopyKernel wp fault tar pml4 source destination n = some s' := by
  rw [memcopyUser] at h
  rw [memcopyKernel]
  -- The induction is on the list of offsets.
  generalize List.range n = offsets at h ⊢
  induction offsets generalizing s with
  | nil => exact h
  | cons i is ih =>
    rw [List.foldlM_cons] at h ⊢
    obtain ⟨s₁, h₁, h⟩ := Option.bind_eq_some_iff.mp h
    refine Option.bind_eq_some_iff.mpr ⟨s₁, ?_, ih h⟩
    rw [writeByte] at h₁
    cases he : s.getPteEntry pml4 (destination + BitVec.ofNat 64 i) with
    | none =>
      rw [he] at h₁
      cases h₁
    | some e =>
      simp only [he, Option.ite_none_right_eq_some] at h₁
      obtain ⟨⟨hwr, hu⟩, h₁⟩ := h₁
      have hentry : s.kernelEntry wp pml4 (destination + BitVec.ofNat 64 i) = some e := by
        rw [kernelEntry, he, Option.filter_some, hwr, Bool.true_or, if_pos rfl]
      rw [kernelWrite, if_pos hu, kernelPut, hentry, if_pos (Option.isSome_some), Option.map_some]
      exact h₁

/-- Where the handler meets present, writable pages only, it has no nested activations. -/
theorem pageFaultNested_of_pageFaultHandler {errorCode : Word}
    (h : s.pageFaultHandler tar sp errorCode va = some s') :
    s.pageFaultNested wp tar sp (active + 1) errorCode va = some s' := by
  rw [pageFaultHandler] at h
  rw [pageFaultNested]
  cases hvma : checkVma sp.vmas va with
  | none =>
    rw [hvma] at h
    cases h
  | some vma =>
    rw [hvma] at h
    dsimp only at h ⊢
    split_ifs at h ⊢
    · exact h
    · rw [fileFault_eq] at h
      obtain ⟨s₁, h₁, h⟩ := Option.bind_eq_some_iff.mp h
      exact Option.bind_eq_some_iff.mpr ⟨s₁, h₁, memcopyKernel_of_memcopyUser h⟩
    · exact h
    · exact h
    · exact h

/-! ## Writes in kernel mode -/

namespace Own

variable (h : s.Own roots r v g) (hr : r ∈ roots) (hv : v.InUser)

include h hr hv

/-- A write in kernel mode that goes through. -/
theorem kernelPut (hx : (vpage x).InUser) (hs : s.kernelPut wp (convertVA r) x b = some s') :
    s'.Own roots r v g ∧
      s'.mem g = if vpage x = v then Function.update (s.mem g) (pageOff x) b else s.mem g := by
  obtain ⟨e₀, he₀, -, hf, hget⟩ := h.getPteEntry hr
  rw [Mm.kernelPut, kernelEntry, hget] at hs
  obtain ⟨e, he, rfl⟩ := Option.map_eq_some_iff.mp hs
  replace he := (Option.filter_eq_some_iff.mp he).1
  refine ⟨h.setByte hr hv hx he, ?_⟩
  split_ifs with hpage
  · rw [hpage, he₀] at he
    rw [← Option.some.inj he, hf]
    exact Function.update_self ..
  · refine Function.update_of_ne (fun hc : g = frameOf e => hpage ?_) ..
    exact (h.alone r hr _ hx e he hc.symm).2

/-- A write in kernel mode, whose faults keep the page where they are on other pages. -/
theorem kernelWrite
    (hfault : ∀ code s₁, code ≠ 7 → (vpage x).InUser → vpage x ≠ v → fault s code x = some s₁ →
      s₁.Own roots r v g ∧ ∀ o < 4096, s₁.mem g o = s.mem g o)
    (hs : s.kernelWrite wp fault (convertVA r) x b = some s') :
    (vpage x).InUser ∧ s'.Own roots r v g ∧ ∀ o < 4096,
      s'.mem g o = if vpage x = v ∧ o = pageOff x then b else s.mem g o := by
  obtain ⟨e₀, he₀, hwr, -, hget⟩ := h.getPteEntry hr
  rw [Mm.kernelWrite] at hs
  have hcode : (if (s.getPteEntry (convertVA r) x).isSome then 3 else 2 : Word) ≠ 7 := by split_ifs <;> decide
  generalize (if (s.getPteEntry (convertVA r) x).isSome then 3 else 2 : Word) = code at hs hcode
  split_ifs at hs with hx hentry
  · obtain ⟨hown, hmem⟩ := h.kernelPut hr hv hx hs
    refine ⟨hx, hown, fun o ho => ?_⟩
    rw [hmem]
    by_cases hpage : vpage x = v
    · simp only [hpage, true_and, if_true, Function.update_apply]
    · rw [if_neg hpage, if_neg fun hc => hpage hc.1]
  · -- The page of a fault is another one, since this one has the write bit.
    have hpage : vpage x ≠ v := fun hpage => hentry (by
      rw [kernelEntry, hget, hpage, he₀, Option.filter_some, hwr, Bool.true_or, if_pos rfl]
      rfl)
    obtain ⟨s₁, h₁, hs⟩ := Option.bind_eq_some_iff.mp hs
    obtain ⟨hown₁, hmem₁⟩ := hfault code s₁ hcode hx hpage h₁
    obtain ⟨hown, hmem⟩ := hown₁.kernelPut hr hv hx hs
    refine ⟨hx, hown, fun o ho => ?_⟩
    rw [hmem, if_neg hpage, if_neg fun hc => hpage hc.1, hmem₁ o ho]

end Own

/-! ## Copies -/

/-- The address `x` lies on a page behind that of `va`, in the same 2^48 bytes. -/
def Later (va x : Word) : Prop := x.toNat / 2^48 = va.toNat / 2^48 ∧ va.toNat / 4096 < x.toNat / 4096

theorem Later.vpage_ne (h : Later va x) : vpage x ≠ vpage va := by
  obtain ⟨hblock, hlt⟩ := h
  rw [ne_eq, vpage_eq_iff_div]
  omega

/-- A copy to the page of `va` or behind it. Its faults are on later pages, where they keep this page. -/
theorem Own.memcopyKernel (h : s.Own roots r (vpage va) g) (hr : r ∈ roots) (hv : (vpage va).InUser)
    (hblock : destination.toNat / 2^48 = va.toNat / 2^48) (hpage : va.toNat / 4096 ≤ destination.toNat / 4096)
    (hfault : ∀ s₁ s₂ code x, code ≠ 7 → (vpage x).InUser → Later va x → s₁.Own roots r (vpage va) g →
      fault s₁ code x = some s₂ → s₂.Own roots r (vpage va) g ∧ ∀ o < 4096, s₂.mem g o = s₁.mem g o) :
    ∀ (n : ℕ) (s' : Mm), s.memcopyKernel wp fault tar (convertVA r) source destination n = some s' →
      s'.Own roots r (vpage va) g ∧ destination.toNat % 2^48 + n < 2^48 ∧ ∀ o < 4096, s'.mem g o =
        if destination.toNat ≤ va.toNat / 4096 * 4096 + o ∧
            va.toNat / 4096 * 4096 + o < destination.toNat + n
        then tar (source + BitVec.ofNat 64 (va.toNat / 4096 * 4096 + o - destination.toNat))
        else s.mem g o
  | 0, s', hs => by
    obtain rfl := Option.some.inj hs
    exact ⟨h, Nat.mod_lt _ (by decide), fun o _ => (if_neg fun hc => by omega).symm⟩
  | n + 1, s', hs => by
    rw [Mm.memcopyKernel, Runs.foldlM_range_succ] at hs
    obtain ⟨s₁, h₁, h₂⟩ := Option.bind_eq_some_iff.mp hs
    obtain ⟨hown₁, hfit, hmem₁⟩ := Own.memcopyKernel h hr hv hblock hpage hfault n s₁ h₁
    -- The address of the last byte has not wrapped around.
    have hx : (destination + BitVec.ofNat 64 n).toNat = destination.toNat + n := by
      have hlt := destination.isLt
      rw [BitVec.toNat_add, BitVec.toNat_ofNat]
      omega
    generalize destination + BitVec.ofNat 64 n = x at h₂ hx
    obtain ⟨hu, hown, hmem⟩ := hown₁.kernelWrite hr hv (fun code s₃ hcode hu hne hf =>
      hfault s₁ s₃ code x hcode hu ⟨by omega, by
        have hdiv : x.toNat / 4096 ≠ va.toNat / 4096 := fun hc => hne (vpage_eq_of_div hc)
        omega⟩ hown₁ hf) h₂
    have hufit := inUser_iff.mp hu
    refine ⟨hown, by omega, fun o ho => ?_⟩
    have hoff : pageOff x = x.toNat % 4096 := toNat_and_pageOff x
    rw [hmem o ho, hmem₁ o ho]
    by_cases hlast : va.toNat / 4096 * 4096 + o = destination.toNat + n
    · -- The byte that this step writes.
      rw [if_pos ⟨vpage_eq_of_div (by omega), by omega⟩, if_pos (by omega), hlast, Nat.add_sub_cancel_left]
    · have hne : ¬ (vpage x = vpage va ∧ o = pageOff x) := by
        rintro ⟨hc, ho'⟩
        rw [vpage_eq_iff_div] at hc
        omega
      rw [if_neg hne]
      exact if_congr (by omega) rfl rfl

end Mm

/-! ## The part of the file on a page -/

/-- The VMA that is found begins before the address. -/
theorem checkVma_start {vmas : List Vma} {va : Word} {vma : Vma} (h : checkVma vmas va = some vma) :
    vma.startAddr ≤ va := by
  have hfound := List.find?_some h
  rw [Bool.and_eq_true, decide_eq_true_eq] at hfound
  exact hfound.1

section FilePart

variable {vma : Vma} {va : Word} (hstart : vma.startAddr ≤ va)

include hstart

/-- The copy begins on the page of the faulting address. -/
theorem Vma.filePart_destination :
    (vma.filePart va).2.1.toNat / 4096 = va.toNat / 4096 := by
  have hsda := toNat_scaleDown va
  rw [BitVec.le_def] at hstart
  rw [Vma.filePart]
  split
  · rename_i hlower
    have hlt := BitVec.lt_def.mp hlower.1
    dsimp only
    omega
  · split
    · rename_i hfirst
      have hle := BitVec.le_def.mp hfirst
      dsimp only
      omega
    · split <;> (dsimp only; omega)

variable (hfile : va < vma.startAddr + vma.pFilesz)

include hfile

/-- A file that goes on behind the faulting address does not wrap around. -/
theorem Vma.toNat_bss :
    (vma.startAddr + vma.pFilesz).toNat = vma.startAddr.toNat + vma.pFilesz.toNat := by
  rw [BitVec.le_def] at hstart
  rw [BitVec.lt_def, BitVec.toNat_add] at hfile
  rw [BitVec.toNat_add]
  omega

/-- On the page of the faulting address, the copy writes the file. -/
theorem Vma.filePart_spec (hv : (vpage va).InUser) {w : Word} (hw : w.toNat / 4096 = va.toNat / 4096) :
    ((vma.filePart va).2.1.toNat ≤ w.toNat ∧ w.toNat < (vma.filePart va).2.1.toNat + (vma.filePart va).2.2 ↔
      (vma.startAddr ≤ w ∧ w < vma.startAddr + vma.pFilesz) ∧
        ¬ (vma.startAddr = 4096 ∧ scaleDown va = 4096)) ∧
    (vma.filePart va).1 + (w - (vma.filePart va).2.1) = vma.tarfsBase + (w - vma.startAddr) := by
  have hbss := vma.toNat_bss hstart hfile
  have hsda := toNat_scaleDown va
  have hu := inUser_iff.mp hv
  have hnext : (scaleDown va + 4096).toNat = va.toNat / 4096 * 4096 + 4096 := by
    rw [BitVec.toNat_add, hsda]
    have h4096 : (4096 : Word).toNat = 4096 := rfl
    omega
  have hzero : (vma.startAddr = 4096 ∧ scaleDown va = 4096) ↔
      vma.startAddr.toNat = 4096 ∧ (scaleDown va).toNat = 4096 :=
    and_congr BitVec.toNat_inj.symm BitVec.toNat_inj.symm
  rw [hzero]
  rw [BitVec.le_def] at hstart ⊢
  rw [BitVec.lt_def, hbss] at hfile ⊢
  rw [Vma.filePart]
  simp only [gt_iff_lt, BitVec.lt_def, BitVec.le_def, hnext, hbss]
  split
  · -- The file begins and ends on the page.
    refine ⟨?_, rfl⟩
    dsimp only
    omega
  · split
    · -- The file begins on the page and goes on behind it, or begins at its start.
      refine ⟨?_, rfl⟩
      dsimp only
      have hroom : (4096 - vma.startAddr).toNat = (2^64 - vma.startAddr.toNat + 4096) % 2^64 :=
        BitVec.toNat_sub ..
      rw [apply_ite BitVec.toNat, hroom]
      split_ifs
      · omega
      · omega
    · have hsum : vma.tarfsBase + (scaleDown va - vma.startAddr) + (w - scaleDown va) =
          vma.tarfsBase + (w - vma.startAddr) := by
        rw [BitVec.add_assoc, sub_add_sub_cancel']
      split
      · refine ⟨?_, hsum⟩
        dsimp only
        rw [BitVec.toNat_sub_of_le (BitVec.le_def.mpr (by omega)), hbss]
        omega
      · refine ⟨?_, hsum⟩
        dsimp only
        omega

end FilePart

namespace Mm

variable {s s' : Mm} {roots : Finset ℕ} {held : ℕ → ℕ} {g r : ℕ} {va : Word} {wp : Bool} {tar : Word → Byte}
  {sp : Space}

/-! ## The handler -/

/-- A nested activation on a later page keeps the page. -/
theorem Own.pageFaultNested (hr : r ∈ roots) (hv : (vpage va).InUser) (hpml : sp.pml4 = convertVA r) :
    ∀ (active : ℕ) (s s' : Mm) (code x : Word), code ≠ 7 → (vpage x).InUser → Later va x →
      s.Own roots r (vpage va) g → s.pageFaultNested wp tar sp active code x = some s' →
      s'.Own roots r (vpage va) g ∧ ∀ o < 4096, s'.mem g o = s.mem g o
  | 0, _, _, _, _, _, _, _, _, hs => by cases hs
  | active + 1, s, s', code, x, hcode, hx, hlater, h, hs => by
    have hfresh : ∀ {data : Block} {s₁ : Mm}, s.mapFresh sp.pml4 (scaleDown x) data = some s₁ →
        s₁.Own roots r (vpage va) g ∧ s₁.mem g = s.mem g := fun {data s₁} h₁ => by
      rw [hpml] at h₁
      refine h.mapFresh hr hv ?_ ?_ h₁
      · rwa [vpage_scaleDown]
      · rw [vpage_scaleDown]
        exact hlater.vpage_ne
    rw [Mm.pageFaultNested] at hs
    cases hvma : checkVma sp.vmas x with
    | none =>
      rw [hvma] at hs
      cases hs
    | some vma =>
      rw [hvma] at hs
      dsimp only at hs
      rw [if_neg hcode] at hs
      split_ifs at hs with htype hfile
      · obtain ⟨s₁, h₁, hs⟩ := Option.bind_eq_some_iff.mp hs
        obtain ⟨hown₁, hmem₁⟩ := hfresh h₁
        have hdest := vma.filePart_destination (checkVma_start hvma)
        obtain ⟨hblock, hlt⟩ := hlater
        rw [hpml] at hs
        obtain ⟨hown, -, hmem⟩ := hown₁.memcopyKernel hr hv (by omega) (by omega)
          (fun s₁ s₂ code y hcode hy hly hown hf =>
            Own.pageFaultNested hr hv hpml active s₁ s₂ code y hcode hy hly hown hf) _ s' hs
        refine ⟨hown, fun o ho => ?_⟩
        rw [hmem o ho, if_neg (by omega), hmem₁]
      · obtain ⟨hown, hmem⟩ := hfresh hs
        exact ⟨hown, fun o _ => by rw [hmem]⟩
      · obtain ⟨hown, hmem⟩ := hfresh hs
        exact ⟨hown, fun o _ => by rw [hmem]⟩
      · obtain rfl := Option.some.inj hs
        exact ⟨h, fun _ _ => rfl⟩

/-- With an error code other than 7, the handler leaves on the page of the faulting address what it loads
there, except for the VMAs of the heap. -/
theorem Accounted.pageFaultNested_load {active : ℕ} {errorCode : Word} {vma : Vma}
    (h : s.Accounted roots held) (hr : r ∈ roots) (hv : (vpage va).InUser) (hpml : sp.pml4 = convertVA r)
    (hvma : checkVma sp.vmas va = some vma) (hcode : errorCode ≠ 7)
    (htype : vma.vmtype = .text ∨ vma.vmtype = .data ∨ vma.vmtype = .stack)
    (hs : s.pageFaultNested wp tar sp active errorCode va = some s') :
    ∀ w : Word, scaleDown w = scaleDown va → s'.readByte sp.pml4 w = some (vma.loadedByte tar va w) := by
  intro w hw
  have hpage : w.toNat / 4096 = va.toNat / 4096 := by
    rw [← frameOf_eq_div, ← frameOf_eq_div, ← frameOf_scaleDown w, hw, frameOf_scaleDown]
  have hwv := vpage_eq_of_div hpage
  have hoff : pageOff w = w.toNat % 4096 := toNat_and_pageOff w
  cases active with
  | zero => cases hs
  | succ active =>
    rw [Mm.pageFaultNested, hvma] at hs
    dsimp only at hs
    rw [if_neg hcode, hpml] at hs
    rw [hpml]
    have hfresh : ∀ {s₁ : Mm}, s.mapFresh (convertVA r) (scaleDown va) Bytes.zero = some s₁ →
        ∃ g, s₁.Own roots r (vpage va) g ∧ s₁.mem g = Bytes.zero := fun {s₁} h₁ => by
      rw [← vpage_scaleDown va]
      exact h.own_mapFresh hr (by rwa [vpage_scaleDown]) h₁
    have hzero : ∀ {s₁ : Mm}, s.mapFresh (convertVA r) (scaleDown va) Bytes.zero = some s₁ →
        s₁.readByte (convertVA r) w = some 0 := fun {s₁} h₁ => by
      obtain ⟨g, hown, hmem⟩ := hfresh h₁
      rw [hown.readByte hr hwv, hmem]
      rfl
    rw [Vma.loadedByte]
    split_ifs at hs with hprogram hfile hstack
    · obtain ⟨s₁, h₁, hs⟩ := Option.bind_eq_some_iff.mp hs
      obtain ⟨g, hown₁, hmem₁⟩ := hfresh h₁
      have hstart := checkVma_start hvma
      have hdest := vma.filePart_destination hstart
      obtain ⟨hown, -, hmem⟩ := hown₁.memcopyKernel hr hv (by omega) (by omega)
        (fun s₁ s₂ code y hcode hy hly hown hf =>
          Own.pageFaultNested hr hv hpml active s₁ s₂ code y hcode hy hly hown hf) _ s' hs
      obtain ⟨hrange, hsource⟩ := vma.filePart_spec hstart hfile hv hpage
      have haddr : va.toNat / 4096 * 4096 + pageOff w = w.toNat := by omega
      rw [hown.readByte hr hwv, hmem _ (by omega), haddr, hmem₁]
      refine congrArg some ?_
      by_cases hcopied : (vma.filePart va).2.1.toNat ≤ w.toNat ∧
          w.toNat < (vma.filePart va).2.1.toNat + (vma.filePart va).2.2
      · have hdist : BitVec.ofNat 64 (w.toNat - (vma.filePart va).2.1.toNat) = w - (vma.filePart va).2.1 := by
          apply BitVec.eq_of_toNat_eq
          rw [BitVec.toNat_ofNat, BitVec.toNat_sub_of_le (BitVec.le_def.mpr hcopied.1)]
          have hlt := w.isLt
          omega
        rw [if_pos hcopied, if_pos ⟨hprogram, hfile, hrange.mp hcopied⟩, hdist, hsource]
      · rw [if_neg hcopied, if_neg fun hc => hcopied (hrange.mpr hc.2.2)]
        rfl
    · rw [hzero hs, if_neg fun hc => hfile hc.2.1]
    · rw [hzero hs, if_neg fun hc => hprogram hc.1]
    · rcases htype with htext | hdata | hstack'
      · exact absurd (.inl htext) hprogram
      · exact absurd (.inr hdata) hprogram
      · exact absurd hstack' hstack

/-- A fault in a VMA of the heap is only reported. -/
theorem pageFaultNested_of_heap {active : ℕ} {errorCode : Word} {vma : Vma}
    (hvma : checkVma sp.vmas va = some vma) (hcode : errorCode ≠ 7)
    (hheap : vma.vmtype = .heap ∨ vma.vmtype = .anon)
    (hs : s.pageFaultNested wp tar sp active errorCode va = some s') : s' = s := by
  cases active with
  | zero => cases hs
  | succ active =>
    rw [Mm.pageFaultNested, hvma] at hs
    dsimp only at hs
    have hprogram : ¬ (vma.vmtype = .text ∨ vma.vmtype = .data) := by
      rcases hheap with ht | ht <;> rw [ht] <;> decide
    have hstack : vma.vmtype ≠ .stack := by
      rcases hheap with ht | ht <;> rw [ht] <;> decide
    rw [if_neg hcode, if_neg hprogram, if_neg hstack] at hs
    exact (Option.some.inj hs).symm

/-- What is read at an address is on its page. -/
theorem readByte_eq_view (hr : r < 2^52) (w : Word) :
    s.readByte (convertVA r) w = (s.view r (vpage w)).map fun b => b (pageOff w) := by
  rw [readByte, getPteEntry_eq hr, view, Option.map_map]
  rfl

/-- A write to a present page in user mode, error code 7, keeps what the page has. -/
theorem Accounted.view_cowFault (h : s.Accounted roots held) (hr : r ∈ roots) (hv : (vpage va).InUser)
    (hs : s.cowFault (convertVA r) va = some s') : s'.view r (vpage va) = s.view r (vpage va) := by
  rw [Mm.cowFault, getPteEntry_eq (h.root_lt hr)] at hs
  cases he : s.leaf r (vpage va) with
  | none =>
    simp only [he, Option.some.injEq] at hs
    rw [hs]
  | some e =>
    simp only [he, getPageFromPA_eq] at hs
    have hview : s.view r (vpage va) = some (s.mem (frameOf e)) := by rw [view, he, Option.map_some]
    split_ifs at hs
    · -- The page gets another entry with the same frame.
      obtain ⟨s₁, held₁, t, hgrown, ht, rfl⟩ := h.setMapping hr hv hs
      have he₁ := (hgrown.leaf r hr _ hv).trans he
      have hnot := hgrown.account.not_isTable hr hv he₁
      have hset := (hgrown.account.setsView_setEntry (e := ownEntry e) hr hv ht (present_ownEntry e)
        (by rwa [frameOf_ownEntry])).1
      refine hset.trans ?_
      rw [← h.sameViews_grown hgrown r hr _ hv, view, he₁, Option.map_some, frameOf_ownEntry]
    · -- The page gets a fresh frame with what the other has.
      cases hg : s.freePageHead with
      | none =>
        have hnone : s.pageAlloc = none := by simp [pageAlloc, hg]
        simp [hnone] at hs
      | some g =>
        have hb := h.lt_two_pow (h.head hg).1
        simp only [(alloc_eq hg).1, kframe_convertVA hb, convertVA_sub_kernBase, Option.bind_eq_bind,
          Option.bind_some, Option.bind_eq_some_iff, Option.some.injEq] at hs
        obtain ⟨s₁, hs₁, rfl⟩ := hs
        have hne : frameOf e ≠ g := fun hc => h.refCount_leaf_ne hr hv he (hc ▸ (h.head hg).2.1)
        have hcopy : (s.takeHead g (convertVA g)).mem (frameOf e) = s.mem (frameOf e) := by
          rw [takeHead_eq hb]
          exact Function.update_of_ne hne ..
        have hfresh : s.mapFresh (convertVA r) va (s.mem (frameOf e)) = some s₁ := by
          simp only [Mm.mapFresh, (alloc_eq hg).2.1, frameOf_getPA hb, Option.bind_eq_bind, Option.bind_some,
            ← hcopy, hs₁]
        obtain ⟨g, held', -, hm⟩ := h.mapFresh hr hv hfresh
        exact (hm.setsView h hr hv).1.trans hview.symm
    · rw [Option.some.inj hs]

/-- A fault keeps what the task reads from the page if and only if the error code is 7, the VMA is one of the
heap, or the page already has what the handler loads there. -/
theorem present_fault_keeps_iff (wp : Bool) (tar : Word → Byte) (s s' : Mm) (roots : Finset ℕ)
    (held : ℕ → ℕ) (r : ℕ) (sp : Space) (active : ℕ) (errorCode va : Word) (vma : Vma)
    (h : s.Accounted roots held) (hr : r ∈ roots) (hpml : sp.pml4 = convertVA r) (hv : (vpage va).InUser)
    (hvma : checkVma sp.vmas va = some vma)
    (hs : s.pageFaultNested wp tar sp active errorCode va = some s') :
    (∀ w, scaleDown w = scaleDown va → s'.readByte sp.pml4 w = s.readByte sp.pml4 w) ↔
      errorCode = 7 ∨ (vma.vmtype = .heap ∨ vma.vmtype = .anon) ∨
        ∀ w, scaleDown w = scaleDown va → s.readByte sp.pml4 w = some (vma.loadedByte tar va w) := by
  by_cases hcode : errorCode = 7
  · refine iff_of_true (fun w hw => ?_) (.inl hcode)
    have hwv : vpage w = vpage va := by rw [← vpage_scaleDown w, hw, vpage_scaleDown]
    cases active with
    | zero => cases hs
    | succ active =>
      rw [pageFaultNested, hvma] at hs
      dsimp only at hs
      rw [if_pos hcode, hpml] at hs
      rw [hpml, readByte_eq_view (h.root_lt hr), readByte_eq_view (h.root_lt hr), hwv,
        h.view_cowFault hr hv hs]
  · by_cases htype : vma.vmtype = .text ∨ vma.vmtype = .data ∨ vma.vmtype = .stack
    · have hload := h.pageFaultNested_load hr hv hpml hvma hcode htype hs
      have hheap : ¬ (vma.vmtype = .heap ∨ vma.vmtype = .anon) := by
        rcases htype with ht | ht | ht <;> rw [ht] <;> decide
      rw [or_iff_right hcode, or_iff_right hheap]
      refine forall_congr' fun w => imp_congr_right fun hw => ?_
      rw [hload w hw]
      exact eq_comm
    · have hheap : vma.vmtype = .heap ∨ vma.vmtype = .anon := by
        cases hvmtype : vma.vmtype <;> simp [hvmtype] at htype ⊢
      refine iff_of_true (fun w _ => ?_) (.inr (.inl hheap))
      rw [pageFaultNested_of_heap hvma hcode hheap hs]

/-- A task with a stack of 16 pages. -/
def stackSpace : Space := ⟨convertVA 0 - kernBase, [⟨0x400000, 0x410000, 6, .stack, 0, 0⟩]⟩

/-- A page of the stack that has been written to, and a fault on it. -/
theorem exists_stack_fault {errorCode : Word}
    (hsome : ((roomy.mapFresh (convertVA 0) 0x401000 fun _ => 9).bind fun s =>
      s.pageFaultNested true (fun _ => 0) stackSpace 1 errorCode 0x401234).isSome) :
    ∃ (s s' : Mm) (held : ℕ → ℕ), s.Accounted {0} held ∧ s.readByte (convertVA 0) 0x401234 = some 9 ∧
      s.pageFaultNested true (fun _ => 0) stackSpace 1 errorCode 0x401234 = some s' := by
  obtain ⟨s', hs'⟩ := Option.isSome_iff_exists.mp hsome
  obtain ⟨s, hs, hs'⟩ := Option.bind_eq_some_iff.mp hs'
  have hmem : (0 : ℕ) ∈ ({0} : Finset ℕ) := Finset.mem_singleton_self 0
  have hv : (vpage 0x401000).InUser := by decide
  obtain ⟨g, held, ha, hm⟩ := accounted_roomy.mapFresh hmem hv hs
  refine ⟨s, s', held, ha, ?_, hs'⟩
  have hpage : vpage 0x401234 = vpage 0x401000 := by decide
  rw [readByte_eq_view (by decide), hpage, (hm.setsView accounted_roomy hmem hv).1, Option.map_some]

theorem present_fault_keeps_iff_stack : ∃ s s' : Mm, s.readByte (convertVA 0) 0x401234 = some 9 ∧
    s.pageFaultNested true (fun _ => 0) stackSpace 1 7 0x401234 = some s' ∧
    ∀ w, scaleDown w = scaleDown 0x401234 → s'.readByte stackSpace.pml4 w = s.readByte stackSpace.pml4 w := by
  obtain ⟨s, s', held, ha, hread, hs⟩ := @exists_stack_fault 7 (by decide +kernel)
  exact ⟨s, s', hread, hs, (present_fault_keeps_iff true (fun _ => 0) s s' {0} held 0 stackSpace 1 7 0x401234
    ⟨0x400000, 0x410000, 6, .stack, 0, 0⟩ ha (by decide) (by decide) (by decide) rfl hs).mpr (.inl rfl)⟩

/-- A write of the kernel to a present page of the stack: the page is lost. -/
theorem kernel_write_loses_page : ¬ ∀ (wp : Bool) (tar : Word → Byte) (s s' : Mm) (roots : Finset ℕ)
    (held : ℕ → ℕ) (r : ℕ) (sp : Space) (active : ℕ) (errorCode va : Word) (vma : Vma),
    s.Accounted roots held → r ∈ roots → sp.pml4 = convertVA r → (vpage va).InUser →
    checkVma sp.vmas va = some vma → (vma.vmtype = .text ∨ vma.vmtype = .data ∨ vma.vmtype = .stack) →
    (s.getPteEntry sp.pml4 va).isSome → errorCode &&& 1 = 1 →
    s.pageFaultNested wp tar sp active errorCode va = some s' →
    ∀ w, scaleDown w = scaleDown va → s'.readByte sp.pml4 w = s.readByte sp.pml4 w := by
  intro hall
  obtain ⟨s, s', held, ha, hread, hs⟩ := @exists_stack_fault 3 (by decide +kernel)
  have hpml : stackSpace.pml4 = convertVA 0 := by decide
  have hpresent : (s.getPteEntry stackSpace.pml4 0x401234).isSome := by
    rw [readByte, ← hpml] at hread
    exact Option.isSome_iff_exists.mpr ((Option.map_eq_some_iff.mp hread).imp fun e he => he.1)
  have hkeeps := hall true (fun _ => 0) s s' {0} held 0 stackSpace 1 3 0x401234 _ ha (by decide) hpml
    (by decide) rfl (.inr (.inr rfl)) hpresent (by decide) hs 0x401234 rfl
  -- The handler has mapped a fresh frame over the page.
  have hload := ha.pageFaultNested_load (by decide) (by decide) hpml rfl (by decide) (.inr (.inr rfl)) hs
    0x401234 rfl
  rw [hload, hpml, hread] at hkeeps
  exact absurd hkeeps (by decide)

end Mm

end Nascent
