import Nascent.Virmem.Map

/-!
# The direct map at boot

`init_mem` takes a frame for the kernel's PML4 and maps every page of the machine at `KERNBASE`
plus its physical address. The loop is a run of `set_mapping` calls on one PML4, so `Paged` carries
through it, and the pages mapped so far keep their entries since the addresses lie on distinct
pages. `Direct` is the state after `n` pages; it also says that the kernel's tables are in use, which
is what keeps them from being handed out later.
-/

namespace Nascent

open Linked (Chain)

namespace Mm

variable {s s' : Mm} {k n r t : ℕ} {l : List ℕ} {q : List Idx} {va : Word}

/-- The tables below a PML4 are in use, and the rest of the memory is in order. -/
structure InUse (s : Mm) (r : ℕ) : Prop where
  /-- The free list. -/
  free : ∃ l, s.FreeChain l
  /-- The tables have a positive count. -/
  used : ∀ t, s.IsTable (Below r) t → t < s.pageCount ∧ s.refCount t ≠ 0

/-- A step of `set_mapping` down the tree keeps the tables in use. -/
theorem InUse.step {s₁ s₂ : Mm} {i : Idx} {t' : ℕ} {v : VPage} (hq : q ++ [i] <+: v.dir)
    (h : s₁.InUse r) (hdes : s.Descent r l q t s₁) (hd : DirStep s₁ t i s₂ t') : s₂.InUse r := by
  cases hd with
  | follow => exact h
  | fresh habs _ hg =>
    obtain ⟨lf, hlf⟩ := h.free
    obtain ⟨k, -, hp⟩ := hdes.paged
    have hO := positions_below r
    have hlen := hq.length_le
    simp only [VPage.dir, List.length_append, List.length_cons, List.length_nil] at hlen
    have habs' : child (s₁.tbl t i) = none := by rw [child, habs]; rfl
    -- The fresh frame is the head of the free list.
    obtain ⟨l', rfl⟩ : ∃ l', lf = t' :: l' := by
      have hstart := hlf.chain.start_eq
      rw [hg] at hstart
      exact List.head?_eq_some_iff.mp hstart.symm
    have hlt := hlf.lt t' (List.mem_cons_self ..)
    have hb := hlf.lt_two_pow hlt
    have hnot : ¬ s₁.IsTable (Below r) t' := fun ht =>
      (h.used t' ht).2 (hlf.unused t' (List.mem_cons_self ..))
    refine ⟨⟨l', hlf.takeHead.congr rfl rfl rfl hlf.takeHead.unused⟩, ?_⟩
    rintro t₁ ⟨n, p, hn, hw⟩
    rw [table_install hO hp.separate ⟨rfl, by omega⟩ hdes.table hnot hb habs' hn] at hw
    have hrc : (s₁.install t i t').refCount = Function.update s₁.refCount t' 1 := by
      rw [install, takeHead_eq hb]
      rfl
    rw [hrc]
    by_cases htt : t₁ = t'
    · rw [htt, Function.update_self]
      exact ⟨hlt, Nat.one_ne_zero⟩
    · rw [Function.update_of_ne htt]
      split_ifs at hw
      · exact (htt (Option.some.inj hw).symm).elim
      · exact h.used t₁ ⟨n, p, hn, hw⟩

/-- `set_mapping` on a PML4 keeps its tables in use, and the number of frames. -/
theorem InUse.setMapping {phyaddr flags : Word} (h : s.InUse r) (hp : s.Paged r l)
    (hs : s.setMapping (convertVA r) va phyaddr flags = some s') :
    s'.InUse r ∧ s'.pageCount = s.pageCount ∧ s'.kpmlAddr = s.kpmlAddr := by
  obtain ⟨t, s₁, ⟨hd, hu, hc⟩, rfl⟩ := setMapping_cases
    (P := fun q t s₁ => s.Descent r l q t s₁ ∧ s₁.InUse r ∧
      (s₁.pageCount = s.pageCount ∧ s₁.kpmlAddr = s.kpmlAddr)) hp.root
    (fun _ _ _ hd _ => hd.1.head_lt) (fun q i t s₁ s₂ t' hq hd hs => by
      refine ⟨hd.1.step_dir hq hs, hd.2.1.step hq hd.1 hs, ?_⟩
      cases hs with
      | follow => exact hd.2.2
      | fresh => exact hd.2.2) ⟨hp.descent, h, rfl, rfl⟩ hs
  obtain ⟨lf, hlf⟩ := hu.free
  obtain ⟨j, -, hp₁⟩ := hd.paged
  refine ⟨⟨⟨lf, hlf.congr rfl rfl rfl hlf.unused⟩, ?_⟩, hc⟩
  rintro t₁ ⟨n, p, hn, hw⟩
  rw [table_setLeaf (positions_below r) hp₁.separate ⟨rfl, le_refl _⟩ hd.table hn] at hw
  exact hu.used t₁ ⟨n, p, hn, hw⟩

/-! ## The loop -/

/-- The first `n` pages are mapped at `KERNBASE` plus their physical addresses, in the PML4 in frame
`k`. -/
structure Direct (s : Mm) (k n : ℕ) : Prop where
  /-- The tables are separated, and off the free list. -/
  paged : ∃ l, s.Paged k l
  /-- They are in use. -/
  inUse : s.InUse k
  /-- The entries of the pages. Beyond 2 GiB, the addresses of the loop are not those of the pages. -/
  mapped : n ≤ 2^19 → ∀ f < n, s.pageMap k (vpage (kernBase + getPA f)) = some (getPA f ||| 7)

/-- The addresses of the direct map lie on distinct pages. -/
theorem vpage_direct_inj {f g : ℕ} (hf : f < 2^19) (hg : g < 2^19)
    (h : vpage (kernBase + getPA f) = vpage (kernBase + getPA g)) : f = g := by
  have hK : kernBase.toNat = 0xffffffff80000000 := rfl
  have hval : ∀ f, f < 2^19 → (kernBase + getPA f).toNat = 0xffffffff80000000 + f * 4096 := by
    intro f hf
    rw [BitVec.toNat_add, toNat_getPA (by omega), hK]
    omega
  simp only [vpage, VPage.mk.injEq, Fin.ext_iff, vidx_val, hval f hf, hval g hg] at h
  omega

/-- One more page. -/
theorem Direct.mapDirect (h : s.Direct k n) (hs : mapDirect (convertVA k) s n = some s') :
    s'.Direct k (n + 1) ∧ s'.pageCount = s.pageCount ∧ s'.kpmlAddr = s.kpmlAddr := by
  obtain ⟨l, hp⟩ := h.paged
  obtain ⟨⟨j, -, hp'⟩, hmap⟩ := hp.setMapping hs
  obtain ⟨hu, hc⟩ := h.inUse.setMapping hp hs
  refine ⟨⟨⟨_, hp'⟩, hu, fun hn f hf => ?_⟩, hc⟩
  have hzero : (0 : Word) + getPA n = getPA n := BitVec.zero_add _
  rw [hmap, pageOffset_eq_getPA (by omega), hzero]
  rcases Nat.lt_succ_iff_lt_or_eq.mp hf with hf | rfl
  · have hne : vpage (kernBase + getPA f) ≠ vpage (kernBase + getPA n) := fun heq =>
      Nat.ne_of_lt hf (vpage_direct_inj (by omega) (by omega) heq)
    rw [Function.update_of_ne hne, h.mapped (by omega) f hf]
  · rw [Function.update_self, present?, if_pos (present_or_seven _)]

/-- All pages. -/
theorem Direct.createVirPhyMapping (h : s.Direct k 0)
    (hs : s.createVirPhyMapping (convertVA k) = some s') :
    s'.Direct k s'.pageCount ∧ s'.kpmlAddr = s.kpmlAddr ∧ s'.pageCount = s.pageCount := by
  rw [Mm.createVirPhyMapping] at hs
  -- The induction is on the number of pages mapped.
  have hloop : ∀ n s', (List.range n).foldlM (Mm.mapDirect (convertVA k)) s = some s' →
      s'.Direct k n ∧ s'.pageCount = s.pageCount ∧ s'.kpmlAddr = s.kpmlAddr := by
    intro n
    induction n with
    | zero =>
      intro s' hs'
      obtain rfl := Option.some.inj hs'
      exact ⟨h, rfl, rfl⟩
    | succ n ih =>
      intro s' hs'
      rw [Runs.foldlM_range_succ] at hs'
      obtain ⟨s₁, hs₁, hs'⟩ := Option.bind_eq_some_iff.mp hs'
      obtain ⟨h₁, hpc, hk⟩ := ih s₁ hs₁
      obtain ⟨h₂, hpc₂, hk₂⟩ := h₁.mapDirect hs'
      exact ⟨h₂, hpc₂.trans hpc, hk₂.trans hk⟩
  obtain ⟨h', hpc, hk⟩ := hloop _ s' hs
  exact ⟨hpc ▸ h', hk, hpc⟩

/-! ## `init_mem` -/

/-- `init_mem` maps every page of the machine directly, and leaves the kernel's tables in use. -/
theorem direct_initMem {physfree memEnd : Word} {smaps : List Smap}
    (hs : s.initMem physfree smaps memEnd = some s') :
    ∃ k, s'.Direct k s'.pageCount ∧ s'.kpmlAddr = convertVA k ∧
      s'.pageCount = bootCount memEnd := by
  simp only [initMem, Option.bind_eq_bind, Option.bind_eq_some_iff, Prod.exists] at hs
  obtain ⟨page1, s₂, hs₂, hs⟩ := hs
  -- The free list at boot, and its head.
  have hl := freeChain_createPageList (s := { s with freePageHead := none, freePageEnd := none })
    rfl rfl physfree smaps memEnd
  have hpc := (createPageList_spec (s := { s with freePageHead := none, freePageEnd := none })
    rfl rfl physfree smaps memEnd).2
  generalize createPageList { s with freePageHead := none, freePageEnd := none } physfree smaps
    memEnd = s₁ at *
  generalize (List.range (bootCount memEnd)).filter _ = l at hl
  cases l with
  | nil =>
    have hhead : s₁.freePageHead = none := hl.chain
    simp [pageAlloc, hhead] at hs₂
  | cons k l =>
    rw [(alloc_eq hl.chain.1).1] at hs₂
    obtain ⟨rfl, rfl⟩ := Prod.mk.inj (Option.some.inj hs₂)
    have hlt := hl.lt k (List.mem_cons_self ..)
    have hb := hl.lt_two_pow hlt
    have hnd := (List.nodup_cons.mp hl.chain.nodup).1
    have htake := hl.takeHead
    have hzero : (s₁.takeHead k (convertVA k)).mem k = Bytes.zero := by
      rw [takeHead_eq hb]
      exact Function.update_self ..
    have hone : (s₁.takeHead k (convertVA k)).refCount k = 1 := by
      rw [takeHead_eq hb]
      exact Function.update_self ..
    have hstart : Direct { s₁.takeHead k (convertVA k) with kpmlAddr := convertVA k } k 0 := by
      refine ⟨⟨l, htake.chain, fun f hf => htake.lt_two_pow (htake.lt f hf), hb, ?_, ?_⟩,
        ⟨⟨l, htake.congr rfl rfl rfl htake.unused⟩, ?_⟩, fun _ f hf => absurd hf (Nat.not_lt_zero f)⟩
      · intro n p n' p' t hn hn' hw hw'
        exact ⟨hn.1.trans hn'.1.symm,
          (table_of_zero hzero hn hw).1.trans (table_of_zero hzero hn' hw').1.symm⟩
      · rintro t ⟨n, p, hn, hw⟩
        rw [(table_of_zero hzero hn hw).2]
        exact hnd
      · rintro t ⟨n, p, hn, hw⟩
        rw [(table_of_zero hzero hn hw).2]
        exact ⟨hlt, by rw [hone]; exact Nat.one_ne_zero⟩
    obtain ⟨hd, hk, hpc'⟩ := hstart.createVirPhyMapping hs
    exact ⟨k, hd, hk, hpc'.trans hpc⟩

/-- A machine with 24 frames. The kernel and `pages` take the first two, and the kernel's tables the
next four. -/
def smallMachine : Option Mm :=
  initMem ⟨fun _ => Bytes.zero, fun _ => 0, fun _ => none, none, none, 0, 0⟩ 0x1000
    [⟨0, 0x100000, 1⟩] 0x18000

end Mm

end Nascent
