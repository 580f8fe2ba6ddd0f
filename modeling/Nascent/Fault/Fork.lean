import Nascent.Cow.Isolation
import Nascent.Fault.Present
import Nascent.Virmem.Regain

/-!
# Forked processes with nested faults

The system of `Cow/Model.lean` has no result where a copy of `page_fault_handler` leaves the page that it has
just mapped for a page without the write bit. Here the copy goes on, as in `Fault/Present.lean`: it writes
through the entry or enters the handler once more. The source takes `4096 - vma_start` for the room on the
first page, so a file that begins inside a page is copied beyond it. Where the next page is one that `fork_process`
has shared, the copy is seen by the other process or takes the page away (`file_copy_reaches_shared_page`).
Where no copy does so, the steps are those of the system without nested faults, and copy-on-write refines
eager copying (`fork_refines_copying`).
-/

namespace Nascent

open Bytes (Byte Block)
open Linked (Chain)
open Runs (run Along)

namespace Mm

/-- A user's load, with the nested faults of the handler. -/
def loadNested (wp : Bool) (active : ℕ) (tar : Word → Byte) (s : Mm) (sp : Space) (va : Word) :
    Option (Byte × Mm) :=
  match s.readByte sp.pml4 va with
  | some b => some (b, s)
  | none => do
    let s ← s.pageFaultNested wp tar sp active 4 va
    let b ← s.readByte sp.pml4 va
    some (b, s)

/-- A user's store, with the nested faults of the handler. -/
def storeNested (wp : Bool) (active : ℕ) (tar : Word → Byte) (s : Mm) (sp : Space) (va : Word)
    (b : Byte) : Option Mm :=
  match s.writeByte sp.pml4 va b with
  | some s => some s
  | none => do
    let errorCode := if (s.getPteEntry sp.pml4 va).isSome then 7 else 6
    let s ← s.pageFaultNested wp tar sp active errorCode va
    s.writeByte sp.pml4 va b

/-- If the address is on an absent page of a file, each byte that the handler copies lies on this page or on one
that is present and writable. -/
def CopyFits (s : Mm) (sp : Space) (va : Word) : Prop :=
  s.getPteEntry sp.pml4 va = none → ∀ vma ∈ checkVma sp.vmas va,
    (vma.vmtype = .text ∨ vma.vmtype = .data) ∧ va < vma.startAddr + vma.pFilesz →
    ∀ i < (vma.filePart va).2.2,
      vpage ((vma.filePart va).2.1 + BitVec.ofNat 64 i) = vpage va ∨
        ∃ e ∈ s.getPteEntry sp.pml4 ((vma.filePart va).2.1 + BitVec.ofNat 64 i), writable e

instance (s : Mm) (sp : Space) (va : Word) : Decidable (s.CopyFits sp va) :=
  inferInstanceAs (Decidable (_ → ∀ vma ∈ checkVma sp.vmas va,
    _ → ∀ i < (vma.filePart va).2.2, _ ∨ ∃ e ∈ _, _))

variable {s s' : Mm} {roots : Finset ℕ} {held : ℕ → ℕ} {r active : ℕ} {va source destination code : Word}
  {wp : Bool} {fault : Mm → Word → Word → Option Mm} {tar : Word → Byte} {sp : Space} {b : Byte}

/-! ## One address space -/

namespace Accounted

variable (h : s.Accounted roots held) (hr : r ∈ roots)

include h hr

/-- A copy whose pages are present and writable has no nested faults. -/
theorem memcopyUser_of_memcopyKernel {n : ℕ}
    (hpages : ∀ i < n, (vpage (destination + BitVec.ofNat 64 i)).InUser →
      ∃ e, s.leaf r (vpage (destination + BitVec.ofNat 64 i)) = some e ∧ writable e = true)
    (hs : s.memcopyKernel wp fault tar (convertVA r) source destination n = some s') :
    s.memcopyUser tar (convertVA r) source destination n = some s' := by
  rw [memcopyKernel] at hs
  rw [memcopyUser]
  have hmem : ∀ i ∈ List.range n, (vpage (destination + BitVec.ofNat 64 i)).InUser →
      ∃ e, s.leaf r (vpage (destination + BitVec.ofNat 64 i)) = some e ∧ writable e = true :=
    fun i hi => hpages i (List.mem_range.mp hi)
  clear hpages
  -- The induction is on the list of offsets. No entry changes.
  generalize List.range n = offsets at hs hmem ⊢
  induction offsets generalizing s with
  | nil => exact hs
  | cons i is ih =>
    rw [List.foldlM_cons] at hs ⊢
    obtain ⟨s₁, h₁, hs⟩ := Option.bind_eq_some_iff.mp hs
    rw [kernelWrite, Option.ite_none_right_eq_some] at h₁
    obtain ⟨hu, h₁⟩ := h₁
    obtain ⟨e, he, hwr⟩ := hmem i (List.mem_cons_self ..) hu
    have hget : s.getPteEntry (convertVA r) (destination + BitVec.ofNat 64 i) = some e :=
      (getPteEntry_eq (h.root_lt hr)).trans he
    have hentry : s.kernelEntry wp (convertVA r) (destination + BitVec.ofNat 64 i) = some e := by
      rw [kernelEntry, hget, Option.filter_some, hwr, Bool.true_or, if_pos rfl]
    rw [hentry, if_pos Option.isSome_some, kernelPut, hentry, Option.map_some] at h₁
    have hnot := h.not_isTable hr hu he
    obtain rfl := Option.some.inj h₁
    refine Option.bind_eq_some_iff.mpr ⟨_, ?_, ih (h.setBlock hnot) hs fun j hj hju => ?_⟩
    · rw [writeByte, hget]
      exact if_pos ⟨hwr, hu⟩
    · rw [leaf_setBlock hnot hr hju]
      exact hmem j (List.mem_cons_of_mem _ hj) hju

/-- Where the copy fits, the handler has no nested activations. -/
theorem pageFaultHandler_of_nested (hpml : sp.pml4 = convertVA r) (hv : (vpage va).InUser)
    (hfits : code ≠ 7 → s.getPteEntry sp.pml4 va = none ∧ s.CopyFits sp va)
    (hs : s.pageFaultNested wp tar sp active code va = some s') :
    s.pageFaultHandler tar sp code va = some s' := by
  cases active with
  | zero => cases hs
  | succ active =>
    rw [pageFaultNested] at hs
    rw [pageFaultHandler]
    cases hvma : checkVma sp.vmas va with
    | none =>
      rw [hvma] at hs
      cases hs
    | some vma =>
      rw [hvma] at hs
      dsimp only at hs ⊢
      split_ifs at hs ⊢ with hcode htype hfile
      · exact hs
      · obtain ⟨hnone, hcopy⟩ := hfits hcode
        obtain ⟨s₁, h₁, hs⟩ := Option.bind_eq_some_iff.mp hs
        rw [fileFault_eq]
        refine Option.bind_eq_some_iff.mpr ⟨s₁, h₁, ?_⟩
        rw [hpml] at h₁ hs ⊢
        rw [← vpage_scaleDown va] at hv
        obtain ⟨g, held₁, ha₁, hm⟩ := h.mapFresh hr hv h₁
        rw [vpage_scaleDown va] at hm
        refine ha₁.memcopyUser_of_memcopyKernel hr (fun i hi hu => ?_) hs
        rw [hm.leaf r hr _ hu]
        by_cases hpage : vpage ((vma.filePart va).2.1 + BitVec.ofNat 64 i) = vpage va
        · refine ⟨_, if_pos ⟨rfl, hpage⟩, ?_⟩
          rw [writable_eq]
          simp
        · rw [if_neg fun hc => hpage hc.2]
          obtain hc | ⟨e, he, hwr⟩ := hcopy hnone vma hvma ⟨htype, hfile⟩ i hi
          · exact absurd hc hpage
          · rw [hpml, getPteEntry_eq (h.root_lt hr)] at he
            exact ⟨e, he, hwr⟩
      · exact hs
      · exact hs
      · exact hs

/-- A load whose copy fits has no nested faults. -/
theorem load_of_nested {r' : Byte × Mm} (hpml : sp.pml4 = convertVA r) (hv : (vpage va).InUser)
    (hfits : s.CopyFits sp va) (hs : s.loadNested wp active tar sp va = some r') :
    s.load tar sp va = some r' := by
  rw [loadNested] at hs
  rw [load]
  cases hread : s.readByte sp.pml4 va with
  | some b =>
    rw [hread] at hs
    exact hs
  | none =>
    rw [hread] at hs
    obtain ⟨s₁, h₁, hs⟩ := Option.bind_eq_some_iff.mp hs
    have hnone : s.getPteEntry sp.pml4 va = none := Option.map_eq_none_iff.mp hread
    exact Option.bind_eq_some_iff.mpr
      ⟨s₁, h.pageFaultHandler_of_nested hr hpml hv (fun _ => ⟨hnone, hfits⟩) h₁, hs⟩

/-- A store whose copy fits has no nested faults. -/
theorem store_of_nested (hpml : sp.pml4 = convertVA r) (hv : (vpage va).InUser)
    (hfits : s.CopyFits sp va) (hs : s.storeNested wp active tar sp va b = some s') :
    s.store tar sp va b = some s' := by
  rw [storeNested] at hs
  rw [store]
  cases hwrite : s.writeByte sp.pml4 va b with
  | some s₁ =>
    rw [hwrite] at hs
    exact hs
  | none =>
    rw [hwrite] at hs
    obtain ⟨s₁, h₁, hs⟩ := Option.bind_eq_some_iff.mp hs
    refine Option.bind_eq_some_iff.mpr ⟨s₁, ?_, hs⟩
    refine h.pageFaultHandler_of_nested hr hpml hv (fun hcode => ⟨?_, hfits⟩) h₁
    -- The error code is 7 where the page is present.
    by_contra hpresent
    rw [if_pos (Option.isSome_iff_ne_none.mpr hpresent)] at hcode
    exact hcode rfl

end Accounted

/-- Without nested activations, a store is the same with them. -/
theorem storeNested_of_store (hs : s.store tar sp va b = some s') :
    s.storeNested wp (active + 1) tar sp va b = some s' := by
  rw [store] at hs
  rw [storeNested]
  cases hwrite : s.writeByte sp.pml4 va b with
  | some s₁ =>
    rw [hwrite] at hs
    exact hs
  | none =>
    rw [hwrite] at hs
    obtain ⟨s₁, h₁, hs⟩ := Option.bind_eq_some_iff.mp hs
    exact Option.bind_eq_some_iff.mpr ⟨s₁, pageFaultNested_of_pageFaultHandler h₁, hs⟩

end Mm

/-! ## The system -/

namespace CowSys

/-- One action, with at most `active` activations of the handler for one access. -/
def nestedStep (wp : Bool) (active : ℕ) (tar : Word → Byte) (s : CowSys) : CowOp → Option CowSys
  | .fault p va => s.onSpace p fun sp =>
    if (vpage va).InUser ∧ (s.mm.getPteEntry sp.pml4 va).isSome then
      s.mm.pageFaultNested wp tar sp active 7 va
    else none
  | .load p va => s.onSpace p fun sp =>
    if Covers sp.vmas va then (s.mm.loadNested wp active tar sp va).map Prod.snd else none
  | .store p va b => s.onSpace p fun sp =>
    if Covers sp.vmas va then s.mm.storeNested wp active tar sp va b else none
  | op => s.step tar op

/-- The part of a file that an access brings in goes to the page of the access, or to pages that are present and
writable. -/
def CopyFits (s : CowSys) : CowOp → Prop
  | .load p va | .store p va _ => ∀ sp ∈ s.procs[p]?, s.mm.CopyFits sp va
  | _ => True

instance (s : CowSys) : DecidablePred s.CopyFits
  | .load p va => inferInstanceAs (Decidable (∀ sp ∈ s.procs[p]?, s.mm.CopyFits sp va))
  | .store p va _ => inferInstanceAs (Decidable (∀ sp ∈ s.procs[p]?, s.mm.CopyFits sp va))
  | .spawn | .addVma .. | .dropVmas _ | .mapFresh .. | .fork _ | .fault .. | .clear _ => isTrue trivial

variable {s s' : CowSys} {a : EagerSys} {wp : Bool} {active : ℕ} {tar : Word → Byte} {p : ℕ} {va : Word}

/-- An operation that does on one process what another does. -/
theorem onSpace_mono {k k' : Space → Option Mm} (hs : s.onSpace p k = some s')
    (hk : ∀ sp mm, s.procs[p]? = some sp → k sp = some mm → k' sp = some mm) :
    s.onSpace p k' = some s' := by
  simp only [onSpace, Option.bind_eq_some_iff, Option.map_eq_some_iff] at hs ⊢
  obtain ⟨sp, hp, mm, hmm, rfl⟩ := hs
  exact ⟨sp, hp, mm, hk sp mm hp hmm, rfl⟩

/-- An action whose copy fits is one of the system without nested faults. -/
theorem Related.step_of_nested {op : CowOp} (h : Related s a) (hfits : s.CopyFits op)
    (hs : s.nestedStep wp active tar op = some s') : s.step tar op = some s' := by
  obtain ⟨held, hex⟩ := h.exact
  cases op with
  | fault p va =>
    refine onSpace_mono hs fun sp mm hp hk => ?_
    obtain ⟨ep, -, hrel⟩ := h.proc p sp hp
    rw [Option.ite_none_right_eq_some] at hk ⊢
    exact ⟨hk.1, hex.account.pageFaultHandler_of_nested (root_mem hp) hrel.pml4 hk.1.1
      (fun hc => absurd rfl hc) hk.2⟩
  | load p va =>
    refine onSpace_mono hs fun sp mm hp hk => ?_
    obtain ⟨ep, -, hrel⟩ := h.proc p sp hp
    rw [Option.ite_none_right_eq_some] at hk ⊢
    obtain ⟨hc, r', hr', rfl⟩ := And.imp_right Option.map_eq_some_iff.mp hk
    refine ⟨hc, Option.map_eq_some_iff.mpr ⟨r', ?_, rfl⟩⟩
    exact hex.account.load_of_nested (root_mem hp) hrel.pml4 (hrel.distinct.inUser hc) (hfits sp hp) hr'
  | store p va b =>
    refine onSpace_mono hs fun sp mm hp hk => ?_
    obtain ⟨ep, -, hrel⟩ := h.proc p sp hp
    rw [Option.ite_none_right_eq_some] at hk ⊢
    exact ⟨hk.1, hex.account.store_of_nested (root_mem hp) hrel.pml4 (hrel.distinct.inUser hk.1)
      (hfits sp hp) hk.2⟩
  | spawn => exact hs
  | addVma p v => exact hs
  | dropVmas p => exact hs
  | mapFresh p va data => exact hs
  | fork p => exact hs
  | clear p => exact hs

/-- A run whose copies fit is a run of the abstract system. -/
theorem Related.run_nested {ops : List CowOp} (h : Related s a)
    (hfits : Along (nestedStep wp active tar) CopyFits s ops)
    (hs : Runs.run (nestedStep wp active tar) s ops = some s') :
    ∃ a', Runs.run (EagerSys.step tar) a ops = some a' ∧ Related s' a' :=
  Runs.run_simulates (fun _ _ _ _ h hc _ hstep => h.step (h.step_of_nested hc hstep)) h hfits
    (Runs.along_of_forall fun _ _ => trivial) hs

/-- A process has written to the page of its last byte, and another file begins at a page of its own. -/
def fileFork : List CowOp :=
  [.spawn, .addVma 0 ⟨0x400fff, 0x402000, 6, .data, 2, 0⟩, .addVma 0 ⟨0x404000, 0x405000, 6, .data, 2, 0⟩,
    .store 0 0x401000 7, .store 0 0x401800 9]

/-- What the processes read after the fork where every page is copied. -/
theorem eager_fileFork {op : CowOp} {c : Option Byte} (h : ((run (EagerSys.step fun _ => 5) []
    (fileFork ++ [.fork 0, op])).map fun a => (a.read 0 0x401000, a.read 1 0x401000, a.read 1 0x401800)) =
      some (some 7, c, some 9)) : ∃ a, run (EagerSys.step fun _ => 5) [] (fileFork ++ [.fork 0, op]) = some a ∧
    a.read 0 0x401000 = some 7 ∧ a.read 1 0x401000 = c ∧ a.read 1 0x401800 = some 9 := by
  obtain ⟨a, ha, hread⟩ := Option.map_eq_some_iff.mp h
  obtain ⟨hparent, hread⟩ := Prod.mk.inj hread
  exact ⟨a, ha, hparent, Prod.mk.inj hread⟩

/-- What a process and its parent read from the pages that were present at the fork is what they would read if
every page had been copied. -/
def RefinesCopying (wp : Bool) : Prop :=
  ∀ (mm₀ mm : Mm) (physfree memEnd : Word) (smaps : List Smap), mm₀.initMem physfree smaps memEnd = some mm →
    ∀ (active : ℕ) (tar : Word → Byte) (before after : List CowOp) (parent : ℕ) (s₁ s : CowSys)
      (a : EagerSys),
      run (nestedStep wp (active + 1) tar) ⟨mm, []⟩ before = some s₁ →
      run (nestedStep wp (active + 1) tar) s₁ (.fork parent :: after) = some s →
      run (EagerSys.step tar) [] (before ++ .fork parent :: after) = some a →
      ∀ p ∈ [parent, s₁.procs.length], ∀ va, (vpage va).InUser → s₁.read parent va ≠ none →
        s.read p va = a.read p va

/-- The child writes to the first byte of its file, on an absent page. The handler copies the second byte to the
page that the child shares. Without `CR0.WP` the parent's page is written, and else the child's page is replaced. -/
theorem not_refinesCopying (wp : Bool) : ¬ RefinesCopying wp := by
  intro hall
  obtain ⟨a, ha, hparent, -, hchild⟩ := @eager_fileFork (.store 1 0x400fff 3) (some 5) (by decide +kernel)
  have hsome : ((Mm.smallMachine.bind fun mm =>
      run (nestedStep wp 2 fun _ => 5) ⟨mm, []⟩ fileFork).bind fun s₁ =>
      (run (nestedStep wp 2 fun _ => 5) s₁ [.fork 0, .store 1 0x400fff 3]).map fun s =>
        (s₁.procs.length, s₁.read 0 0x401000, s₁.read 0 0x401800, s.read 0 0x401000, s.read 1 0x401800)) =
      some (1, some 7, some 9, if wp then (some 7, some 0) else (some 5, some 9)) := by
    cases wp <;> decide +kernel
  obtain ⟨s₁, h₁, hval⟩ := Option.bind_eq_some_iff.mp hsome
  obtain ⟨mm, hmm, h₁⟩ := Option.bind_eq_some_iff.mp h₁
  obtain ⟨s, hs, hval⟩ := Option.map_eq_some_iff.mp hval
  simp only [Prod.mk.injEq] at hval
  obtain ⟨hlength, hread, hread', hboth⟩ := hval
  have hpages := hall _ mm _ _ _ hmm 1 (fun _ => 5) _ _ 0 s₁ s a h₁ hs ha
  rw [hlength] at hpages
  cases wp with
  | false =>
    have hshared := hpages 0 (List.mem_cons_self ..) 0x401000 (by decide)
      (by rw [hread]; exact Option.some_ne_none _)
    rw [(Prod.mk.inj hboth).1, hparent] at hshared
    exact absurd hshared (by decide)
  | true =>
    have hreplaced := hpages 1 (by decide) 0x401800 (by decide)
      (by rw [hread']; exact Option.some_ne_none _)
    rw [(Prod.mk.inj hboth).2, hchild] at hreplaced
    exact absurd hreplaced (by decide)

end CowSys

end Nascent
