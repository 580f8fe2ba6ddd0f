import Nascent.Cow.Simulation
import Nascent.Virmem.DirectMap

/-!
# Sharing is not visible

What follows from the simulation of `Cow/Simulation.lean`, whose relation holds at boot and is kept by
every action. Reference counts are exact, related systems read the same, a store is seen by the process
that makes it and by no other, and a store to a present page goes through while there is a free frame.
-/

namespace Nascent

open Bytes (Byte Block)
open Runs (run Visits)

namespace Mm

variable {s : Mm} {roots : Finset ℕ} {held : ℕ → ℕ} {r : ℕ} {va : Word}

/-- A state without address spaces, with a free list, has an account. -/
theorem exact_empty {l : List ℕ} (h : s.FreeChain l) : s.Exact ∅ s.refCount := by
  refine ⟨accounted_empty h, fun f hf => ?_, fun n hn => ?_⟩
  · obtain ⟨n, -, -, hn, -⟩ := exists_of_leafCount_pos hf
    exact absurd hn (Finset.notMem_empty n)
  · exact absurd hn (Finset.notMem_empty n)

/-- With a free frame, the fault of a present page is handled. -/
theorem Exact.cowFault_isSome (h : s.Exact roots held) (hr : r ∈ roots) (hv : (vpage va).InUser)
    (hfree : s.freePageHead ≠ none) : (s.cowFault (convertVA r) va).isSome := by
  obtain ⟨g, hg⟩ := Option.ne_none_iff_exists'.mp hfree
  rw [Mm.cowFault, getPteEntry_eq (h.account.root_lt hr)]
  cases he : s.leaf r (vpage va) with
  | none => rfl
  | some e =>
    obtain ⟨t, ht⟩ := Exact.exists_table he
    simp only [getPageFromPA_eq]
    split_ifs
    · rw [setMapping_of_table (h.account.root_lt hr) ht]
      rfl
    · -- The page table is still there after the allocation of the copy.
      have hb := h.account.lt_two_pow (h.account.head hg).1
      obtain ⟨s₁, hs₁, h₁, -, -, -, -, hleaf⟩ :=
        h.alloc ((s.takeHead g (convertVA g)).mem (frameOf e)) hg
      obtain ⟨t₁, ht₁⟩ := Exact.exists_table ((hleaf r hr _ hv).trans he)
      simp only [(alloc_eq hg).1, kframe_convertVA hb, Option.bind_eq_bind, Option.bind_some, hs₁,
        setMapping_of_table (h₁.account.root_lt hr) ht₁, Option.isSome_some]
    · rfl

end Mm

/-- The VMA of an address is found. -/
theorem Covers.checkVma {vmas : List Vma} {va : Word} (h : Covers vmas va) :
    (checkVma vmas va).isSome := by
  obtain ⟨v, hm, hs, he⟩ := h
  rw [Nascent.checkVma, List.find?_isSome]
  refine ⟨v, hm, ?_⟩
  simp only [Bool.and_eq_true, decide_eq_true_eq]
  exact ⟨hs, BitVec.le_of_lt he⟩

/-! ## A store of the abstract system -/

namespace Pages

variable {m m' : Pages} {va : Word} {b : Byte}

/-- A write is read back. -/
theorem readByte_writeByte (h : m.writeByte va b = some m') : m'.readByte va = some b := by
  obtain ⟨blk, -, rfl⟩ := Option.map_eq_some_iff.mp h
  rw [readByte, Function.update_self, Option.map_some, Function.update_self]

/-- A write changes no other byte. -/
theorem readByte_writeByte_of_ne {w : Word} (h : m.writeByte va b = some m')
    (hw : (vpage w, pageOff w) ≠ (vpage va, pageOff va)) : m'.readByte w = m.readByte w := by
  obtain ⟨blk, hblk, rfl⟩ := Option.map_eq_some_iff.mp h
  rw [readByte, readByte]
  by_cases hv : vpage w = vpage va
  · have ho : pageOff w ≠ pageOff va := fun ho => hw (by rw [hv, ho])
    rw [hv, Function.update_self, hblk, Option.map_some, Option.map_some,
      Function.update_of_ne ho]
  · rw [Function.update_of_ne hv]

/-- A store is read back. -/
theorem readByte_store {tar : Word → Byte} {vmas : List Vma}
    (h : m.store tar vmas va b = some m') : m'.readByte va = some b := by
  rw [store] at h
  cases hw : m.writeByte va b with
  | some m₁ =>
    rw [hw] at h
    exact readByte_writeByte (hw.trans h)
  | none =>
    rw [hw] at h
    obtain ⟨m₁, -, h⟩ := Option.bind_eq_some_iff.mp h
    exact readByte_writeByte h

/-- A store to a present page changes no other byte. -/
theorem readByte_store_of_ne {tar : Word → Byte} {vmas : List Vma} {w : Word}
    (h : m.store tar vmas va b = some m') (hread : m.readByte va ≠ none)
    (hw : (vpage w, pageOff w) ≠ (vpage va, pageOff va)) : m'.readByte w = m.readByte w := by
  have hpresent : m (vpage va) ≠ none := fun hc => hread (by rw [readByte, hc]; rfl)
  obtain ⟨blk, hblk⟩ := Option.ne_none_iff_exists'.mp hpresent
  have hwrite : m.writeByte va b = some m' := by
    rw [store, writeByte, hblk] at h
    rw [writeByte, hblk]
    exact h
  exact readByte_writeByte_of_ne hwrite hw

end Pages

/-- An operation on one process does not change what the others read. -/
theorem EagerSys.read_onProc_of_ne {a a' : EagerSys} {p q : ℕ} {w : Word}
    {k : EagerProc → Option Pages} (h : onProc a p k = some a') (hq : q ≠ p) :
    a'.read q w = a.read q w := by
  simp only [onProc, Option.bind_eq_some_iff, Option.map_eq_some_iff] at h
  obtain ⟨ep, -, m, -, rfl⟩ := h
  rw [read, read, List.getElem?_set_ne hq.symm]

/-- What a store in the abstract system does. -/
theorem EagerSys.store_cases {a a' : EagerSys} {tar : Word → Byte} {p : ℕ} {va : Word} {b : Byte}
    (h : step tar a (.store p va b) = some a') : a'.read p va = some b ∧
      (∀ q w, q ≠ p → a'.read q w = a.read q w) ∧
      (a.read p va ≠ none → ∀ w, (vpage w, pageOff w) ≠ (vpage va, pageOff va) →
        a'.read p w = a.read p w) := by
  have hothers : ∀ q w, q ≠ p → a'.read q w = a.read q w := fun q w hq => read_onProc_of_ne h hq
  simp only [step, onProc, Option.bind_eq_some_iff, Option.map_eq_some_iff,
    Option.ite_none_right_eq_some] at h
  obtain ⟨ep, hep, m, ⟨-, hm⟩, rfl⟩ := h
  have hlt := (List.getElem?_eq_some_iff.mp hep).1
  refine ⟨?_, hothers, fun hread w hw => ?_⟩
  · rw [read, List.getElem?_set_self hlt]
    exact Pages.readByte_store hm
  · rw [read, hep] at hread
    rw [read, read, List.getElem?_set_self hlt, hep]
    exact Pages.readByte_store_of_ne hm hread hw

namespace CowSys

variable {s s' : CowSys} {a : EagerSys} {tar : Word → Byte} {p : ℕ} {va : Word}

/-- The two systems are related at boot. -/
theorem related_boot {s₀ mm : Mm} {physfree memEnd : Word} {smaps : List Smap}
    (h : s₀.initMem physfree smaps memEnd = some mm) : Related ⟨mm, []⟩ [] := by
  obtain ⟨k, hd, -⟩ := Mm.direct_initMem h
  obtain ⟨l, hl⟩ := hd.inUse.free
  refine ⟨⟨_, Mm.exact_empty hl⟩, List.nodup_nil, rfl, fun p sp hp => ?_⟩
  simp at hp

/-- Related systems read the same. -/
theorem Related.read (h : Related s a) (hu : (vpage va).InUser) : s.read p va = a.read p va := by
  rw [CowSys.read, EagerSys.read]
  cases hp : s.procs[p]? with
  | none =>
    have hnone : a[p]? = none := by
      rw [List.getElem?_eq_none_iff, h.length]
      exact List.getElem?_eq_none_iff.mp hp
    rw [hnone]
    rfl
  | some sp =>
    obtain ⟨ep, hep, hrel⟩ := h.proc p sp hp
    rw [hep, Option.bind_some, Option.bind_some, hrel.pml4]
    exact Mm.Shows.readByte ⟨root_mem hp, h.exact, hrel.view, fun _ _ _ _ _ => rfl⟩ hu

/-- A store to a present page goes through while there is a free frame. -/
theorem Related.store_isSome {sp : Space} {b : Byte} (h : Related s a)
    (hp : s.procs[p]? = some sp) (hc : Covers sp.vmas va) (hread : s.read p va ≠ none)
    (hfree : s.mm.freePageHead ≠ none) : (s.step tar (.store p va b)).isSome := by
  obtain ⟨ep, -, hrel⟩ := h.proc p sp hp
  obtain ⟨held, hex⟩ := h.exact
  have hu := hrel.distinct.inUser hc
  have hr := root_mem hp
  have hlt := hex.account.root_lt hr
  rw [CowSys.read, hp, Option.bind_some, hrel.pml4, Mm.readByte, Mm.getPteEntry_eq hlt, Ne,
    Option.map_eq_none_iff] at hread
  -- A write to a present, writable page goes through.
  have hwrite : ∀ {mm : Mm} {e : Word}, mm.leaf sp.root (vpage va) = some e → writable e = true →
      (mm.writeByte (convertVA sp.root) va b).isSome := by
    intro mm e he hwr
    rw [Mm.writeByte, Mm.getPteEntry_eq hlt, he]
    simp only [if_pos (And.intro hwr hu), Option.isSome_some]
  obtain ⟨e, he⟩ := Option.ne_none_iff_exists'.mp hread
  rw [CowSys.step, CowSys.onSpace, hp, Option.bind_some, Option.isSome_map, if_pos hc, Mm.store,
    hrel.pml4]
  cases hw : s.mm.writeByte (convertVA sp.root) va b with
  | some mm => rfl
  | none =>
    -- After the fault the page is writable.
    obtain ⟨vma, hvma⟩ := Option.isSome_iff_exists.mp hc.checkVma
    obtain ⟨mm, hmm⟩ := Option.isSome_iff_exists.mp (hex.cowFault_isSome hr hu hfree)
    obtain ⟨-, -, -, hwr⟩ := hex.cowFault hr hu hmm
    obtain ⟨e', he', hwr'⟩ := hwr hread
    have hcode : (s.mm.getPteEntry (convertVA sp.root) va).isSome = true := by
      rw [Mm.getPteEntry_eq hlt, he]
      rfl
    have hfault : s.mm.pageFaultHandler tar sp 7 va = some mm := by
      rw [Mm.pageFaultHandler, hvma, hrel.pml4]
      exact (if_pos rfl).trans hmm
    simp only [hcode, if_true, hfault, Option.bind_eq_bind, Option.bind_some]
    exact hwrite he' hwr'

/-- A store is seen by the process that makes it, and by no other. -/
theorem Related.store {b : Byte} (h : Related s a) (hs : s.step tar (.store p va b) = some s') :
    s'.read p va = some b ∧
      (∀ q w, q ≠ p → (vpage w).InUser → s'.read q w = s.read q w) ∧
      (s.read p va ≠ none → ∀ w, (vpage w).InUser →
        (vpage w, pageOff w) ≠ (vpage va, pageOff va) → s'.read p w = s.read p w) := by
  have hu : (vpage va).InUser := by
    simp only [CowSys.step, CowSys.onSpace, Option.bind_eq_some_iff, Option.map_eq_some_iff,
      Option.ite_none_right_eq_some] at hs
    obtain ⟨sp, hp, mm, ⟨hc, -⟩, -⟩ := hs
    obtain ⟨ep, -, hrel⟩ := h.proc p sp hp
    exact hrel.distinct.inUser hc
  obtain ⟨a', ha', h'⟩ := h.step hs
  obtain ⟨hown, hothers, hrest⟩ := EagerSys.store_cases ha'
  refine ⟨(h'.read hu).trans hown, fun q w hq hw => ?_, fun hread w hw hne => ?_⟩
  · rw [h'.read hw, h.read hw, hothers q w hq]
  · rw [h.read hu] at hread
    rw [h'.read hw, h.read hw, hrest hread w hne]

/-! ## Every run from boot -/

/-- In every state of every run from boot, the count of a mapped frame is the number of entries of
user pages that refer to it, and a frame with a count of 0 is not mapped. -/
theorem refCount_eq_leafCount (mm₀ mm : Mm) (physfree memEnd : Word) (smaps : List Smap)
    (hboot : mm₀.initMem physfree smaps memEnd = some mm) (tar : Word → Byte) (ops : List CowOp)
    (s : CowSys) (hv : Visits (step tar) ⟨mm, []⟩ ops s) (f : ℕ) :
    (0 < s.mm.leafCount s.roots f → s.mm.refCount f = s.mm.leafCount s.roots f) ∧
      (s.mm.refCount f = 0 → s.mm.leafCount s.roots f = 0) := by
  obtain ⟨bs, cs, -, hrun⟩ := hv
  obtain ⟨a, -, h⟩ := (related_boot hboot).run hrun
  obtain ⟨held, hex⟩ := h.exact
  refine ⟨hex.refCount_eq, fun h0 => ?_⟩
  by_contra hne
  have := hex.refCount_eq (Nat.pos_of_ne_zero hne)
  omega

/-- A process with one page is forked. -/
def smallFork : List CowOp :=
  [.spawn, .addVma 0 ⟨0x400000, 0x401000, 0, .stack, 0, 0⟩, .mapFresh 0 0x400000 fun _ => 7, .fork 0]

/-- After the fork, the count of the shared frame is the number of its entries. -/
theorem refCount_eq_leafCount_fork : ∃ mm s f, Mm.smallMachine = some mm ∧
    run (step fun _ => 0) ⟨mm, []⟩ smallFork = some s ∧
    0 < s.mm.leafCount s.roots f ∧ s.mm.refCount f = s.mm.leafCount s.roots f := by
  have hsome : (Mm.smallMachine.bind fun mm => run (step fun _ => 0) ⟨mm, []⟩ smallFork).isSome := by
    decide +kernel
  obtain ⟨s, hs⟩ := Option.isSome_iff_exists.mp hsome
  obtain ⟨mm, hmm, hrun⟩ := Option.bind_eq_some_iff.mp hs
  -- The child reads the page, so there is an entry for it.
  have heager : ((run (EagerSys.step fun _ => 0) [] smallFork).map fun a => a.read 1 0x400010) =
      some (some 7) := by decide +kernel
  have hu : (vpage 0x400010).InUser := by decide
  obtain ⟨a, ha, h⟩ := (related_boot hmm).run hrun
  rw [ha, Option.map_some, Option.some.injEq, ← h.read hu] at heager
  obtain ⟨sp, hp, hread⟩ := Option.bind_eq_some_iff.mp heager
  obtain ⟨ep, -, hrel⟩ := h.proc 1 sp hp
  obtain ⟨held, hex⟩ := h.exact
  obtain ⟨e, he, -⟩ := Option.map_eq_some_iff.mp hread
  rw [hrel.pml4, Mm.getPteEntry_eq (hex.account.root_lt (root_mem hp))] at he
  have hpos := Mm.leafCount_pos (root_mem hp) hu he
  exact ⟨mm, s, frameOf e, hmm, hrun, hpos,
    (refCount_eq_leafCount _ mm _ _ _ hmm _ _ s (Runs.visits_of_run hrun) _).1 hpos⟩

end CowSys

end Nascent
