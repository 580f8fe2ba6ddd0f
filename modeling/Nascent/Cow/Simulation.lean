import Mathlib.Data.Finset.Dedup
import Nascent.Cow.Eager
import Nascent.Cow.Operations
import Nascent.Lib.Runs

/-!
# The shared system follows the eager one

The simulation of the abstract system by the concrete one. `Shows` is the state in the middle of an
operation on one address space: its views are the pages of the abstract process, and the views of
the others are as they were. Each function of the accesses and of the fault handler keeps it, step
by step with its abstract counterpart. `Related` puts the processes together, and `Related.step` is
the simulation of one action.
-/

namespace Nascent

open Bytes (Byte Block)

variable {va : Word} {v : VPage}

/-! ## Addresses and VMAs -/

/-- The start of a page lies on the page. -/
theorem vpage_scaleDown (va : Word) : vpage (scaleDown va) = vpage va := by
  have h := toNat_scaleDown va
  simp only [vpage, VPage.mk.injEq, Fin.ext_iff, vidx_val, h]
  omega

/-- `ScaleUp` rounds up, with wrap-around. -/
theorem toNat_scaleUp (a : Word) : (scaleUp a).toNat = (a.toNat + 4095) / 4096 * 4096 % 2^64 := by
  have hmod : (a % pageSize).toNat = a.toNat % 4096 := by rw [BitVec.toNat_umod]; rfl
  have hsize : (pageSize : Word).toNat = 4096 := rfl
  have hlt := a.isLt
  rw [scaleUp]
  split_ifs with h
  · have hne : a.toNat % 4096 ≠ 0 := fun hc => h (BitVec.eq_of_toNat_eq (by rw [hmod, hc]; rfl))
    rw [BitVec.toNat_add, BitVec.toNat_sub, hmod, hsize]
    omega
  · have hz : a.toNat % 4096 = 0 := by
      rw [not_not] at h
      rw [← hmod, h]
      rfl
    omega

/-- The loop of `fork_process` runs over the pages of a VMA. -/
theorem Vma.cnt_eq {vma : Vma} (hle : vma.startAddr ≤ vma.endAddr) (hbound : vma.span ≤ 2^19) :
    vma.cnt = vma.span := by
  have hle' : vma.startAddr.toNat ≤ vma.endAddr.toNat := hle
  have hend := vma.endAddr.isLt
  have hsub : (scaleUp vma.endAddr - scaleDown vma.startAddr).toNat = vma.span * 4096 := by
    rw [Vma.span] at hbound ⊢
    rw [BitVec.toNat_sub, toNat_scaleDown, toNat_scaleUp]
    omega
  have hdiv : ((scaleUp vma.endAddr - scaleDown vma.startAddr) / pageSize).toNat = vma.span := by
    rw [BitVec.toNat_udiv, hsub]
    exact Nat.mul_div_cancel _ (by decide)
  have hint : (((scaleUp vma.endAddr - scaleDown vma.startAddr) / pageSize).setWidth 32).toNat =
      vma.span := by
    rw [BitVec.toNat_setWidth, hdiv]
    omega
  rw [Vma.cnt, BitVec.toInt_eq_toNat_of_lt (by rw [hint]; omega), hint]
  rfl

/-- The loop of `fork_process` visits every page of a VMA. -/
theorem vpage_mem_pages {vma : Vma} (hle : vma.startAddr ≤ vma.endAddr) (hbound : vma.span ≤ 2^19)
    (hs : vma.startAddr ≤ va) (he : va < vma.endAddr) : vpage va ∈ vma.pages.map vpage := by
  have hs' : vma.startAddr.toNat ≤ va.toNat := hs
  have he' : va.toNat < vma.endAddr.toNat := he
  have hcnt := Vma.cnt_eq hle hbound
  rw [Vma.span] at hcnt hbound
  obtain ⟨i, hi⟩ : ∃ i, va.toNat / 4096 = vma.startAddr.toNat / 4096 + i :=
    ⟨va.toNat / 4096 - vma.startAddr.toNat / 4096, by omega⟩
  refine List.mem_map.mpr ⟨scaleDown vma.startAddr + pageOffset i,
    List.mem_map.mpr ⟨i, List.mem_range.mpr (by omega), rfl⟩, vpage_eq_of_div ?_⟩
  rw [BitVec.toNat_add, toNat_scaleDown, toNat_pageOffset (by omega)]
  have := va.isLt
  omega

/-- An address in the VMAs lies on one of their pages. -/
theorem Distinct.vpage_mem {vmas : List Vma} (h : Distinct vmas) (hc : Covers vmas va) :
    vpage va ∈ vmaPages vmas := by
  obtain ⟨vma, hm, hs, he⟩ := hc
  obtain ⟨hle, hbound⟩ := h.1 vma hm
  obtain ⟨a, ha, hav⟩ := List.mem_map.mp (vpage_mem_pages hle hbound hs he)
  exact List.mem_map.mpr ⟨a, List.mem_flatMap.mpr ⟨vma, hm, ha⟩, hav⟩

/-- An address in the VMAs lies in the user half. -/
theorem Distinct.inUser {vmas : List Vma} (h : Distinct vmas) (hc : Covers vmas va) :
    (vpage va).InUser := h.2.1 _ (h.vpage_mem hc)

theorem distinct_nil : Distinct [] := by
  refine ⟨?_, ?_, ?_⟩
  · simp
  · simp [vmaPages]
  · simp [vmaPages]

/-! ## One address space -/

namespace Mm

variable {s₀ s s' : Mm} {roots : Finset ℕ} {r : ℕ} {m m' : Pages} {tar : Word → Byte} {sp : Space}

/-- The counts are exact, the address space in frame `r` shows the pages `m`, and the others show
what they did in the state `s₀`. -/
structure Shows (s₀ s : Mm) (roots : Finset ℕ) (r : ℕ) (m : Pages) : Prop where
  /-- The address space. -/
  root : r ∈ roots
  /-- The counts. -/
  exact : ∃ held, s.Exact roots held
  /-- Its pages. -/
  own : ∀ v : VPage, v.InUser → s.view r v = m v
  /-- The pages of the others. -/
  other : ∀ n ∈ roots, n ≠ r → ∀ v : VPage, v.InUser → s.view n v = s₀.view n v

namespace Shows

variable (h : Shows s₀ s roots r m)

include h

/-- The kernel's address of the PML4 is good. -/
theorem root_lt : r < 2^52 := by
  obtain ⟨held, hex⟩ := h.exact
  exact hex.account.root_lt h.root

/-- An operation that changes no view. -/
theorem same (hex : ∃ held, s'.Exact roots held) (hv : SameViews s s' roots) :
    Shows s₀ s' roots r m :=
  ⟨h.root, hex, fun v hu => (hv r h.root v hu).trans (h.own v hu), fun n hn hne v hu =>
    (hv n hn v hu).trans (h.other n hn hne v hu)⟩

/-- An operation that changes the view of one page. -/
theorem sets {b : Option Block} (hex : ∃ held, s'.Exact roots held)
    (hv : SetsView s s' roots r v b) : Shows s₀ s' roots r (Function.update m v b) := by
  refine ⟨h.root, hex, fun w hw => ?_, fun n hn hne w hw => ?_⟩
  · by_cases hwv : w = v
    · rw [hwv, hv.1, Function.update_self]
    · rw [hv.2 r h.root w hw fun hc => hwv hc.2, Function.update_of_ne hwv, h.own w hw]
  · rw [hv.2 n hn w hw fun hc => hne hc.1, h.other n hn hne w hw]

/-- A page is present in both or in neither. -/
theorem leaf_eq_none (hu : v.InUser) : s.leaf r v = none ↔ m v = none := by
  rw [← h.own v hu, view, Option.map_eq_none_iff]

/-- A read. -/
theorem readByte (hu : (vpage va).InUser) : s.readByte (convertVA r) va = m.readByte va := by
  rw [Mm.readByte, getPteEntry_eq h.root_lt, Pages.readByte, ← h.own _ hu, view, Option.map_map]
  rfl

/-- A write. -/
theorem writeByte {b : Byte} (hs : s.writeByte (convertVA r) va b = some s') :
    ∃ m', m.writeByte va b = some m' ∧ Shows s₀ s' roots r m' := by
  obtain ⟨held, hex⟩ := h.exact
  obtain ⟨hex', hu, blk, hblk, hv⟩ := hex.writeByte h.root hs
  refine ⟨_, ?_, h.sets ⟨held, hex'⟩ hv⟩
  rw [Pages.writeByte, ← h.own _ hu, hblk, Option.map_some]

/-- A copy from the archive. -/
theorem memcopyUser {source destination : Word} {n : ℕ}
    (hs : s.memcopyUser tar (convertVA r) source destination n = some s') :
    ∃ m', m.memcopyUser tar source destination n = some m' ∧ Shows s₀ s' roots r m' := by
  rw [Mm.memcopyUser] at hs
  rw [Pages.memcopyUser]
  -- The induction is on the list of offsets.
  generalize List.range n = offsets at hs ⊢
  induction offsets generalizing s m with
  | nil =>
    obtain rfl := Option.some.inj hs
    exact ⟨m, rfl, h⟩
  | cons i is ih =>
    rw [List.foldlM_cons] at hs
    obtain ⟨s₁, hs₁, hs⟩ := Option.bind_eq_some_iff.mp hs
    obtain ⟨m₁, hm₁, h₁⟩ := h.writeByte hs₁
    obtain ⟨m', hm', h'⟩ := ih h₁ hs
    refine ⟨m', ?_, h'⟩
    rw [List.foldlM_cons, hm₁]
    exact hm'

/-- A fresh page. -/
theorem mapFresh {data : Block} (hu : (vpage va).InUser) (hnone : m (vpage va) = none)
    (hs : s.mapFresh (convertVA r) va data = some s') :
    Shows s₀ s' roots r (m.mapFresh va data) ∧
      ∃ e, s'.leaf r (vpage va) = some e ∧ writable e = true := by
  obtain ⟨held, hex⟩ := h.exact
  obtain ⟨held', hex', hv, hwr⟩ := hex.mapFresh h.root hu ((h.leaf_eq_none hu).mpr hnone) hs
  exact ⟨h.sets ⟨held', hex'⟩ hv, hwr⟩

/-- The fault of a page of a file. -/
theorem fileFault {vma : Vma} (hu : (vpage va).InUser) (hnone : m (vpage va) = none)
    (hs : s.fileFault tar (convertVA r) va vma = some s') :
    ∃ m', m.fileFault tar va vma = some m' ∧ Shows s₀ s' roots r m' := by
  simp only [Mm.fileFault, Option.bind_eq_bind, Option.bind_eq_some_iff] at hs
  obtain ⟨s₁, hs₁, hs⟩ := hs
  have hpage := vpage_scaleDown va
  obtain ⟨h₁, -⟩ := h.mapFresh (hpage.symm ▸ hu) (hpage.symm ▸ hnone) hs₁
  rw [Pages.fileFault]
  split_ifs at hs ⊢
  · exact h₁.memcopyUser hs
  · exact h₁.memcopyUser hs
  · exact h₁.memcopyUser hs
  · exact h₁.memcopyUser hs
  · exact h₁.memcopyUser hs

/-- The fault of a page that is not present. -/
theorem pageFault {code : Word} (hcode : code ≠ 7) (hpml : sp.pml4 = convertVA r)
    (hu : (vpage va).InUser) (hnone : m (vpage va) = none)
    (hs : s.pageFaultHandler tar sp code va = some s') :
    ∃ m', m.pageFault tar sp.vmas va = some m' ∧ Shows s₀ s' roots r m' := by
  have hpage := vpage_scaleDown va
  rw [Mm.pageFaultHandler, hpml] at hs
  rw [Pages.pageFault]
  cases hc : checkVma sp.vmas va with
  | none => simp [hc] at hs
  | some vma =>
    simp only [hc, if_neg hcode] at hs ⊢
    split_ifs at hs ⊢
    · exact h.fileFault hu hnone hs
    · exact ⟨_, rfl, (h.mapFresh (hpage.symm ▸ hu) (hpage.symm ▸ hnone) hs).1⟩
    · exact ⟨_, rfl, (h.mapFresh (hpage.symm ▸ hu) (hpage.symm ▸ hnone) hs).1⟩
    · obtain rfl := Option.some.inj hs
      exact ⟨m, rfl, h⟩

/-- The fault of a present page. -/
theorem cowFault (hpml : sp.pml4 = convertVA r) (hu : (vpage va).InUser)
    (hs : s.pageFaultHandler tar sp 7 va = some s') : Shows s₀ s' roots r m := by
  rw [Mm.pageFaultHandler, hpml] at hs
  cases hc : checkVma sp.vmas va with
  | none => simp [hc] at hs
  | some vma =>
    simp only [hc, if_true] at hs
    obtain ⟨held, hex⟩ := h.exact
    obtain ⟨held', hex', hv, -⟩ := hex.cowFault h.root hu hs
    exact h.same ⟨held', hex'⟩ hv

/-- A load. -/
theorem load {b : Byte} (hpml : sp.pml4 = convertVA r) (hu : (vpage va).InUser)
    (hs : s.load tar sp va = some (b, s')) :
    ∃ m', m.load tar sp.vmas va = some (b, m') ∧ Shows s₀ s' roots r m' := by
  rw [Mm.load, hpml, h.readByte hu] at hs
  rw [Pages.load]
  cases hb : m.readByte va with
  | some b' =>
    simp only [hb, Option.some.injEq, Prod.mk.injEq] at hs ⊢
    obtain ⟨rfl, rfl⟩ := hs
    exact ⟨m, ⟨rfl, rfl⟩, h⟩
  | none =>
    simp only [hb, Option.bind_eq_bind, Option.bind_eq_some_iff, Option.some.injEq,
      Prod.mk.injEq] at hs ⊢
    obtain ⟨s₁, hs₁, b', hb', rfl, rfl⟩ := hs
    obtain ⟨m₁, hm₁, h₁⟩ := h.pageFault (by decide) hpml hu (Option.map_eq_none_iff.mp hb) hs₁
    exact ⟨m₁, ⟨m₁, hm₁, b', (h₁.readByte hu).symm.trans hb', rfl, rfl⟩, h₁⟩

/-- A store. -/
theorem store {b : Byte} (hpml : sp.pml4 = convertVA r) (hu : (vpage va).InUser)
    (hs : s.store tar sp va b = some s') :
    ∃ m', m.store tar sp.vmas va b = some m' ∧ Shows s₀ s' roots r m' := by
  rw [Mm.store, hpml] at hs
  rw [Pages.store]
  cases hw : s.writeByte (convertVA r) va b with
  | some s₁ =>
    simp only [hw, Option.some.injEq] at hs
    subst hs
    obtain ⟨m', hm', h'⟩ := h.writeByte hw
    exact ⟨m', by rw [hm'], h'⟩
  | none =>
    simp only [hw, Option.bind_eq_bind, Option.bind_eq_some_iff] at hs
    obtain ⟨s₁, hs₁, hs⟩ := hs
    cases hm : m (vpage va) with
    | none =>
      have hnone : (s.getPteEntry (convertVA r) va).isSome = false := by
        rw [getPteEntry_eq h.root_lt, (h.leaf_eq_none hu).mpr hm]
        rfl
      simp only [hnone, Bool.false_eq_true, if_false] at hs₁
      obtain ⟨m₁, hm₁, h₁⟩ := h.pageFault (by decide) hpml hu hm hs₁
      obtain ⟨m', hm', h'⟩ := h₁.writeByte hs
      refine ⟨m', ?_, h'⟩
      have hwm : m.writeByte va b = none := by rw [Pages.writeByte, hm, Option.map_none]
      simp only [hwm, hm₁, Option.bind_eq_bind, Option.bind_some, hm']
    | some blk =>
      -- The page is there: the fault changes no view.
      have hsome : (s.getPteEntry (convertVA r) va).isSome = true := by
        rw [getPteEntry_eq h.root_lt, Option.isSome_iff_ne_none, Ne, h.leaf_eq_none hu, hm]
        simp
      simp only [hsome, if_true] at hs₁
      obtain ⟨m', hm', h'⟩ := (h.cowFault hpml hu hs₁).writeByte hs
      exact ⟨m', by rw [hm'], h'⟩

end Shows

end Mm

/-! ## The processes -/

/-- The frame of the PML4. -/
def Space.root (sp : Space) : ℕ := frameOf sp.cr3

namespace CowSys

variable {s s' : CowSys} {a a' : EagerSys} {tar : Word → Byte} {p : ℕ} {sp : Space} {mm : Mm}

/-- The address spaces. -/
def roots (s : CowSys) : Finset ℕ := (s.procs.map Space.root).toFinset

/-- What a process reads at an address. -/
def read (s : CowSys) (p : ℕ) (va : Word) : Option Byte :=
  s.procs[p]?.bind fun sp => s.mm.readByte sp.pml4 va

/-- The relation between a process and its abstract counterpart. -/
structure ProcRelated (mm : Mm) (sp : Space) (ep : EagerProc) : Prop where
  /-- `cr3` is the physical address of a frame. -/
  cr3 : sp.cr3 = getPA sp.root
  /-- The VMAs cover distinct pages. -/
  distinct : Distinct sp.vmas
  /-- The VMAs are the same. -/
  vmas : ep.vmas = sp.vmas
  /-- The process sees the pages of its counterpart. -/
  view : ∀ v : VPage, v.InUser → mm.view sp.root v = ep.pages v

/-- The relation between the two systems. -/
structure Related (s : CowSys) (a : EagerSys) : Prop where
  /-- The counts are exact. -/
  exact : ∃ held, s.mm.Exact s.roots held
  /-- No two processes have the same PML4. -/
  nodup : (s.procs.map Space.root).Nodup
  /-- There are as many processes. -/
  length : a.length = s.procs.length
  /-- The processes are related one by one. -/
  proc : ∀ (p : ℕ) (sp : Space), s.procs[p]? = some sp →
    ∃ ep, a[p]? = some ep ∧ ProcRelated s.mm sp ep

theorem root_mem (hp : s.procs[p]? = some sp) : sp.root ∈ s.roots :=
  List.mem_toFinset.mpr (List.mem_map.mpr ⟨sp, List.mem_of_getElem? hp, rfl⟩)

theorem ProcRelated.pml4 {ep : EagerProc} (h : ProcRelated mm sp ep) :
    sp.pml4 = convertVA sp.root := by
  rw [Space.pml4, h.cr3, Mm.getPA_add_kernBase]

namespace Related

variable (h : Related s a)

include h

/-- Two processes with the same PML4 are one. -/
theorem eq_of_root {q : ℕ} {sq : Space} (hp : s.procs[p]? = some sp) (hq : s.procs[q]? = some sq)
    (hr : sq.root = sp.root) : q = p := by
  have hlt : q < (s.procs.map Space.root).length := by
    rw [List.length_map]
    exact (List.getElem?_eq_some_iff.mp hq).1
  refine (List.getElem?_inj hlt h.nodup).mp ?_
  rw [List.getElem?_map, List.getElem?_map, hp, hq, Option.map_some, Option.map_some, hr]

/-- An operation on one process. -/
theorem onSpace {ep : EagerProc} {m : Pages} (hp : s.procs[p]? = some sp) (hep : a[p]? = some ep)
    (hrel : ProcRelated s.mm sp ep) (hs : Mm.Shows s.mm mm s.roots sp.root m) :
    Related ⟨mm, s.procs⟩ (a.set p { ep with pages := m }) := by
  refine ⟨hs.exact, h.nodup, by rw [List.length_set, h.length], fun q sq hq => ?_⟩
  by_cases hqp : q = p
  · subst hqp
    obtain rfl : sp = sq := Option.some.inj (hp.symm.trans hq)
    refine ⟨{ ep with pages := m }, ?_, hrel.cr3, hrel.distinct, hrel.vmas, hs.own⟩
    rw [List.getElem?_set_self (List.getElem?_eq_some_iff.mp hep).1]
  · obtain ⟨eq, heq, hrelq⟩ := h.proc q sq hq
    refine ⟨eq, ?_, hrelq.cr3, hrelq.distinct, hrelq.vmas, fun v hv => ?_⟩
    · rw [List.getElem?_set_ne fun hc => hqp hc.symm, heq]
    · have hne : sq.root ≠ sp.root := fun hr => hqp (h.eq_of_root hp hq hr)
      exact (hs.other _ (root_mem hq) hne v hv).trans (hrelq.view v hv)

/-- A new process. -/
theorem append {g : ℕ} {ep : EagerProc} (hg : g < 2^52) (hgr : g ∉ s.roots)
    (hex : ∃ held, mm.Exact (insert g s.roots) held) (hv : Mm.SameViews s.mm mm s.roots)
    (hcr3 : sp.cr3 = getPA g) (hd : Distinct sp.vmas) (hvmas : ep.vmas = sp.vmas)
    (hnew : ∀ v : VPage, v.InUser → mm.view g v = ep.pages v) :
    Related ⟨mm, s.procs ++ [sp]⟩ (a ++ [ep]) := by
  have hroot : sp.root = g := by rw [Space.root, hcr3, frameOf_getPA hg]
  have hroots : CowSys.roots ⟨mm, s.procs ++ [sp]⟩ = insert g s.roots := by
    ext n
    simp [CowSys.roots, hroot]
  refine ⟨hroots ▸ hex, ?_, by simp [h.length], fun q sq hq => ?_⟩
  · rw [List.map_append, List.map_singleton, hroot]
    refine List.nodup_append.mpr ⟨h.nodup, List.nodup_singleton g, fun n hn m hm => ?_⟩
    rintro rfl
    exact hgr (List.mem_toFinset.mpr (List.mem_singleton.mp hm ▸ hn))
  · by_cases hlt : q < s.procs.length
    · rw [List.getElem?_append_left hlt] at hq
      obtain ⟨eq, heq, hrel⟩ := h.proc q sq hq
      refine ⟨eq, ?_, hrel.cr3, hrel.distinct, hrel.vmas, fun v hu => ?_⟩
      · rw [List.getElem?_append_left (h.length ▸ hlt), heq]
      · exact (hv _ (root_mem hq) v hu).trans (hrel.view v hu)
    · have hlen : q = s.procs.length := by
        have := (List.getElem?_eq_some_iff.mp hq).1
        simp at this
        omega
      subst hlen
      rw [List.getElem?_append_right (le_refl _), Nat.sub_self] at hq
      obtain rfl : sp = sq := Option.some.inj hq
      refine ⟨ep, ?_, ?_, hd, hvmas, ?_⟩
      · rw [← h.length, List.getElem?_append_right (le_refl _), Nat.sub_self]
        rfl
      · rw [hroot, hcr3]
      · rw [hroot]
        exact hnew

/-- A change of the VMAs of one process. -/
theorem setVmas {vmas : List Vma} {ep : EagerProc} (hp : s.procs[p]? = some sp)
    (hep : a[p]? = some ep) (hrel : ProcRelated s.mm sp ep) (hd : Distinct vmas) :
    Related ⟨s.mm, s.procs.set p { sp with vmas := vmas }⟩
      (a.set p { ep with vmas := vmas }) := by
  have hlt := (List.getElem?_eq_some_iff.mp hp).1
  have hmap : (s.procs.set p { sp with vmas := vmas }).map Space.root = s.procs.map Space.root := by
    refine List.ext_getElem? fun i => ?_
    rw [List.getElem?_map, List.getElem?_map]
    by_cases hip : i = p
    · rw [hip, List.getElem?_set_self hlt, hp]
      rfl
    · rw [List.getElem?_set_ne fun hc => hip hc.symm]
  have hroots : CowSys.roots ⟨s.mm, s.procs.set p { sp with vmas := vmas }⟩ = s.roots := by
    rw [CowSys.roots, hmap, CowSys.roots]
  refine ⟨hroots ▸ h.exact, hmap ▸ h.nodup, by simp [h.length], fun q sq hq => ?_⟩
  by_cases hqp : q = p
  · subst hqp
    rw [List.getElem?_set_self hlt] at hq
    obtain rfl := Option.some.inj hq
    refine ⟨{ ep with vmas := vmas }, ?_, hrel.cr3, hd, rfl, hrel.view⟩
    rw [List.getElem?_set_self (List.getElem?_eq_some_iff.mp hep).1]
  · rw [List.getElem?_set_ne fun hc => hqp hc.symm] at hq
    obtain ⟨eq, heq, hrelq⟩ := h.proc q sq hq
    exact ⟨eq, by rw [List.getElem?_set_ne fun hc => hqp hc.symm, heq], hrelq⟩

end Related

/-! ## `fork_process` -/

/-- The loop of `fork_process` over a list of addresses on distinct pages: the child sees there what
the parent does. -/
theorem forkPages {s s' : Mm} {roots : Finset ℕ} {r c : ℕ} {vas : List Word} (hr : r ∈ roots)
    (hc : c ∈ roots) (hrc : r ≠ c) (hex : ∃ held, s.Exact roots held)
    (hu : ∀ w ∈ vas.map vpage, w.InUser) (hnd : (vas.map vpage).Nodup)
    (hnone : ∀ w ∈ vas.map vpage, s.view c w = none)
    (hs : vas.foldlM (Mm.forkPage (convertVA r) (convertVA c)) s = some s') :
    (∃ held, s'.Exact roots held) ∧
      (∀ n ∈ roots, n ≠ c → ∀ w : VPage, w.InUser → s'.view n w = s.view n w) ∧
      ∀ w : VPage, w.InUser →
        s'.view c w = if w ∈ vas.map vpage then s.view r w else s.view c w := by
  induction vas generalizing s with
  | nil =>
    obtain rfl := Option.some.inj hs
    exact ⟨hex, fun _ _ _ _ _ => rfl, fun w _ => by simp⟩
  | cons va vas ih =>
    rw [List.foldlM_cons] at hs
    obtain ⟨s₁, hs₁, hs⟩ := Option.bind_eq_some_iff.mp hs
    simp only [List.map_cons, List.nodup_cons, List.mem_cons, forall_eq_or_imp] at hu hnd hnone
    obtain ⟨held, hex⟩ := hex
    obtain ⟨held₁, hex₁, hset⟩ := hex.forkPage hr hc hu.1 hnone.1 hs₁
    have hother : ∀ w : VPage, w.InUser → w ≠ vpage va → s₁.view c w = s.view c w :=
      fun w hw hne => hset.2 c hc w hw fun hcon => hne hcon.2
    have hparent : ∀ n ∈ roots, n ≠ c → ∀ w : VPage, w.InUser → s₁.view n w = s.view n w :=
      fun n hn hne w hw => hset.2 n hn w hw fun hcon => hne hcon.1
    obtain ⟨hex', hsame, hchild⟩ := ih ⟨held₁, hex₁⟩ hu.2 hnd.2 (fun w hw => by
      have hne : w ≠ vpage va := fun hcon => hnd.1 (hcon ▸ hw)
      rw [hother w (hu.2 w hw) hne]
      exact hnone.2 w hw) hs
    refine ⟨hex', fun n hn hne w hw => ?_, fun w hw => ?_⟩
    · rw [hsame n hn hne w hw, hparent n hn hne w hw]
    · rw [hchild w hw, hparent r hr hrc w hw]
      simp only [List.map_cons, List.mem_cons]
      by_cases hmem : w ∈ vas.map vpage
      · rw [if_pos hmem, if_pos (.inr hmem)]
      · rw [if_neg hmem]
        by_cases hwv : w = vpage va
        · rw [if_pos (.inl hwv), hwv, hset.1]
        · rw [if_neg (by tauto), hother w hw hwv]

/-- A loop over lists is one loop over all of them. -/
theorem foldlM_flatMap {σ α β : Type} (f : σ → β → Option σ) (g : α → List β) (l : List α) (s : σ) :
    l.foldlM (fun s a => (g a).foldlM f s) s = (l.flatMap g).foldlM f s := by
  induction l generalizing s with
  | nil => rfl
  | cons x l ih =>
    rw [List.foldlM_cons, List.flatMap_cons, List.foldlM_append]
    exact congrArg _ (funext fun s' => ih s')

/-- `fork_process` makes a process that sees a copy of each present page of the VMAs. -/
theorem Related.fork {ep : EagerProc} {child : Space} (h : Related s a)
    (hp : s.procs[p]? = some sp) (hrel : ProcRelated s.mm sp ep)
    (hs : s.mm.forkProcess sp = some (child, mm)) :
    Related ⟨mm, s.procs ++ [child]⟩ (a ++ [ep.fork]) := by
  obtain ⟨held, hex⟩ := h.exact
  simp only [Mm.forkProcess, Option.bind_eq_bind, Option.bind_eq_some_iff, Prod.exists,
    Option.some.injEq, Prod.mk.injEq] at hs
  obtain ⟨pml, s₁, hs₁, s₂, hs₂, rfl, rfl⟩ := hs
  -- The new address space.
  obtain ⟨g, held₁, rfl, hg, hgr, hex₁, hv₁, hnew⟩ := hex.fetchFreePcb hs₁
  have hcr3 := convertVA_sub_kernBase g
  have hpml : Space.pml4 ⟨convertVA g - kernBase, sp.vmas⟩ = convertVA g := by
    rw [Space.pml4, hcr3, Mm.getPA_add_kernBase]
  have hr := root_mem hp
  have hne : sp.root ≠ g := fun hc => hgr (hc ▸ hr)
  -- The loop over the pages of the VMAs.
  rw [foldlM_flatMap, hrel.pml4, hpml] at hs₂
  obtain ⟨hex₂, hsame, hchild⟩ := forkPages (Finset.mem_insert_of_mem hr) (Finset.mem_insert_self ..)
    hne ⟨held₁, hex₁⟩ hrel.distinct.2.1 hrel.distinct.2.2
    (fun w hw => hnew w (hrel.distinct.2.1 w hw)) hs₂
  refine h.append hg hgr hex₂ (fun n hn w hw => ?_) hcr3 hrel.distinct ?_ fun w hw => ?_
  · have hng : n ≠ g := fun hc => hgr (hc ▸ hn)
    rw [hsame n (Finset.mem_insert_of_mem hn) hng w hw, hv₁ n hn w hw]
  · rw [EagerProc.fork, hrel.vmas]
  · rw [hchild w hw, EagerProc.fork]
    show _ = if w ∈ vmaPages ep.vmas then ep.pages w else none
    rw [hrel.vmas, hnew w hw, hv₁ _ hr w hw, hrel.view w hw]
    rfl

/-! ## The simulation -/

/-- An operation on one process that both systems do in the same way. -/
theorem Related.onSpace_step {k : Space → Option Mm} {k' : EagerProc → Option Pages}
    (h : Related s a) (hs : s.onSpace p k = some s')
    (hk : ∀ sp ep mm, ProcRelated s.mm sp ep →
      Mm.Shows s.mm s.mm s.roots sp.root ep.pages → k sp = some mm →
      ∃ m, k' ep = some m ∧ Mm.Shows s.mm mm s.roots sp.root m) :
    ∃ a', EagerSys.onProc a p k' = some a' ∧ Related s' a' := by
  simp only [CowSys.onSpace, Option.bind_eq_some_iff, Option.map_eq_some_iff] at hs
  obtain ⟨sp, hp, mm, hmm, rfl⟩ := hs
  obtain ⟨ep, hep, hrel⟩ := h.proc p sp hp
  obtain ⟨m, hm, hshows⟩ := hk sp ep mm hrel
    ⟨root_mem hp, h.exact, hrel.view, fun _ _ _ _ _ => rfl⟩ hmm
  refine ⟨a.set p { ep with pages := m }, ?_, h.onSpace hp hep hrel hshows⟩
  rw [EagerSys.onProc, hep, Option.bind_some, hm, Option.map_some]

/-- Every action of the concrete system is an action of the abstract one. -/
theorem Related.step {op : CowOp} (h : Related s a) (hs : s.step tar op = some s') :
    ∃ a', EagerSys.step tar a op = some a' ∧ Related s' a' := by
  cases op with
  | spawn =>
    obtain ⟨held, hex⟩ := h.exact
    obtain ⟨⟨pml, mm⟩, hmm, rfl⟩ := Option.map_eq_some_iff.mp hs
    obtain ⟨g, held', rfl, hg, hgr, hex', hv, hnew⟩ := hex.fetchFreePcb hmm
    exact ⟨_, rfl, h.append hg hgr ⟨held', hex'⟩ hv (convertVA_sub_kernBase g) distinct_nil rfl hnew⟩
  | addVma p v =>
    simp only [CowSys.step, Option.bind_eq_some_iff, Option.ite_none_right_eq_some,
      Option.some.injEq] at hs
    obtain ⟨sp, hp, hd, rfl⟩ := hs
    obtain ⟨ep, hep, hrel⟩ := h.proc p sp hp
    refine ⟨_, ?_, h.setVmas hp hep hrel hd⟩
    simp only [EagerSys.step, hep, Option.bind_some, hrel.vmas, if_pos hd]
  | dropVmas p =>
    obtain ⟨sp, hp, rfl⟩ := Option.map_eq_some_iff.mp hs
    obtain ⟨ep, hep, hrel⟩ := h.proc p sp hp
    refine ⟨_, ?_, h.setVmas hp hep hrel distinct_nil⟩
    simp only [EagerSys.step, hep, Option.map_some]
  | mapFresh p va data =>
    refine h.onSpace_step hs fun sp ep mm hrel hsh hk => ?_
    simp only [Option.ite_none_right_eq_some] at hk
    obtain ⟨⟨hnone, hu⟩, hk⟩ := hk
    rw [hrel.pml4] at hnone hk
    rw [Mm.getPteEntry_eq hsh.root_lt, Option.isNone_iff_eq_none, hsh.leaf_eq_none hu] at hnone
    refine ⟨_, ?_, (hsh.mapFresh hu hnone hk).1⟩
    rw [if_pos ⟨by rw [hnone]; rfl, hu⟩]
  | fork p =>
    simp only [CowSys.step, Option.bind_eq_some_iff, Option.map_eq_some_iff, Prod.exists] at hs
    obtain ⟨sp, hp, child, mm, hmm, rfl⟩ := hs
    obtain ⟨ep, hep, hrel⟩ := h.proc p sp hp
    refine ⟨_, ?_, h.fork hp hrel hmm⟩
    simp only [EagerSys.step, hep, Option.map_some]
  | fault p va =>
    refine h.onSpace_step hs fun sp ep mm hrel hsh hk => ?_
    simp only [Option.ite_none_right_eq_some] at hk
    obtain ⟨⟨hu, hsome⟩, hk⟩ := hk
    rw [hrel.pml4, Mm.getPteEntry_eq hsh.root_lt, Option.isSome_iff_ne_none, Ne,
      hsh.leaf_eq_none hu] at hsome
    refine ⟨ep.pages, ?_, hsh.cowFault hrel.pml4 hu hk⟩
    rw [if_pos ⟨hu, Option.isSome_iff_ne_none.mpr hsome⟩]
  | load p va =>
    refine h.onSpace_step hs fun sp ep mm hrel hsh hk => ?_
    simp only [Option.ite_none_right_eq_some, Option.map_eq_some_iff, Prod.exists] at hk
    obtain ⟨hc, b, mm', hk, rfl⟩ := hk
    obtain ⟨m, hm, hsh'⟩ := hsh.load hrel.pml4 (hrel.distinct.inUser hc) hk
    refine ⟨m, ?_, hsh'⟩
    rw [hrel.vmas, if_pos hc, hm, Option.map_some]
  | store p va b =>
    refine h.onSpace_step hs fun sp ep mm hrel hsh hk => ?_
    simp only [Option.ite_none_right_eq_some] at hk
    obtain ⟨hc, hk⟩ := hk
    obtain ⟨m, hm, hsh'⟩ := hsh.store hrel.pml4 (hrel.distinct.inUser hc) hk
    refine ⟨m, ?_, hsh'⟩
    rw [hrel.vmas, if_pos hc, hm]
  | clear p =>
    refine h.onSpace_step hs fun sp ep mm hrel hsh hk => ?_
    obtain rfl := Option.some.inj hk
    obtain ⟨held, hex⟩ := hsh.exact
    rw [hrel.pml4]
    obtain ⟨held', hex', hv⟩ := hex.clearMapping hsh.root
    refine ⟨fun _ => none, rfl, hsh.root, ⟨held', hex'⟩, fun v hu => ?_, fun n hn hne v hu => ?_⟩
    · rw [hv _ hsh.root v hu, if_pos rfl]
    · rw [hv n hn v hu, if_neg hne]

/-- Every run of the concrete system is a run of the abstract one. -/
theorem Related.run {ops : List CowOp} (h : Related s a)
    (hs : Runs.run (CowSys.step tar) s ops = some s') :
    ∃ a', Runs.run (EagerSys.step tar) a ops = some a' ∧ Related s' a' :=
  Runs.run_simulates (fun _ _ _ _ h _ _ hstep => h.step hstep) h
    (Runs.along_of_forall fun _ _ => trivial) (Runs.along_of_forall fun _ _ => trivial) hs

end CowSys

end Nascent
