import Nascent.Virmem.Teardown

/-!
# A teardown gives frames back

`clear_mapping` is a series of releases and of writes to entries. A relation that each of them meets holds
between the states before and after a teardown (`Teardown.clearMapping`). One such relation is that the frames
that the allocators can take are the same: a release puts its frame behind that of `free_page_end`, in the place
of the one that the release before has put there, or leaves the list alone (`Stock.clearMapping`).
-/

namespace Nascent

namespace Mm

variable {s s' s₁ s₂ : Mm} {roots : Finset ℕ} {held : ℕ → ℕ} {f r t : ℕ} {i : Idx} {l : List ℕ}
  {q : List Idx} {K : Mm → Mm → Prop}

/-! ## The steps of a teardown -/

/-- A relation that the releases and the writes of a teardown meet. -/
structure Teardown (roots : Finset ℕ) (K : Mm → Mm → Prop) : Prop where
  /-- It holds where nothing happens. -/
  refl : ∀ s, K s s
  /-- It composes. -/
  trans : ∀ s s₁ s₂, K s s₁ → K s₁ s₂ → K s s₂
  /-- An entry is zeroed. -/
  setEntry : ∀ s t i, K s (s.setEntry t i 0)
  /-- A frame in use is released. -/
  freePage : ∀ s held f, Accounted s roots held → f < s.pageCount → s.refCount f ≠ 0 →
    K s (s.freePage (convertVA f))

/-- What a loop of `clear_mapping` over the table at a path of `k` indices meets. -/
def Meets (roots : Finset ℕ) (K : Mm → Mm → Prop) (k : ℕ) (clear : Word → Mm → Mm) : Prop :=
  ∀ s held r q t, Accounted s roots held → User roots r q → q.length = k → s.table r q = some t →
    K s (clear (convertVA t) s)

/-- What one entry of a loop meets. -/
def MeetsEntry (roots : Finset ℕ) (K : Mm → Mm → Prop) (below : Word → Mm → Mm) (r : ℕ) (q : List Idx)
    (i : Idx) : Prop :=
  ∀ s held t, Accounted s roots held → s.table r q = some t → K s (clearEntry below (convertVA t) s i)

namespace Teardown

variable (hK : Teardown roots K)

include hK

/-- The loop meets what its entries meet. -/
theorem clearLoop {below : Word → Mm → Mm} (hq : User roots r q) {n : ℕ} (hn : n ≤ 512)
    (hclear : ∀ i : Idx, (i : ℕ) < n → ClearsEntry roots below r q i)
    (hentry : ∀ i : Idx, (i : ℕ) < n → MeetsEntry roots K below r q i)
    (h : s.Accounted roots held) (hw : s.table r q = some t) : K s (clearLoop below n (convertVA t) s) := by
  induction n with
  | zero => exact hK.refl s
  | succ n ih =>
    have hclear' : ∀ i : Idx, (i : ℕ) < n → ClearsEntry roots below r q i := fun i hi => hclear i (by omega)
    have hbefore := ih (by omega) hclear' fun i hi => hentry i (by omega)
    have hp := pruned_clearLoop hq (by omega) hclear' h hw
    obtain ⟨held₁, ha, -⟩ := hp.account
    have hw₁ : (Mm.clearLoop below n (convertVA t) s).table r q = some t := by
      rw [hp.table_kept r q hq, hw]
      rintro ⟨-, i, -, hle⟩
      have := hle.length_le
      rw [List.length_append, List.length_singleton] at this
      omega
    have hstep := hentry ⟨n, by omega⟩ (Nat.lt_succ_self n) _ held₁ t ha hw₁
    have hloop : Mm.clearLoop below (n + 1) (convertVA t) s =
        clearEntry below (convertVA t) (Mm.clearLoop below n (convertVA t) s) n := by
      simp only [Mm.clearLoop, List.range_succ, List.foldl_append, List.foldl_cons, List.foldl_nil]
    rw [hloop]
    exact hK.trans _ _ _ hbefore hstep

/-- The entries of a page table. -/
theorem entry_page (hq : User roots r q) (hlen : q.length = 3) (i : Idx) :
    MeetsEntry roots K (fun _ s => s) r q i := by
  intro s held t h hw
  obtain ⟨v, rfl, rfl⟩ := exists_page hlen i
  have hv : v.InUser := fun hv => hq.2.2 (congrArg some hv)
  rw [clearEntry_eq (h.lt_two_pow (h.table t ⟨r, v.dir, hq, hw⟩).1)]
  cases hp : present (s.tbl t v.pte) with
  | false => exact hK.setEntry s t v.pte
  | true =>
    have he : s.leaf r v = some (s.tbl t v.pte) := by
      rw [leaf, hw, Option.bind_some, present?, hp]
      rfl
    have hlt := h.frameOf_leaf_lt hq.1 hv he
    have hused : s.refCount (frameOf (s.tbl t v.pte)) ≠ 0 := by
      have hpos := leafCount_pos hq.1 hv he
      rw [h.count _ hlt]
      omega
    exact hK.trans _ _ _ (hK.freePage s held _ h hlt hused) (hK.setEntry _ t v.pte)

/-- The entries of an upper table, with the loop below. -/
theorem entry_table {below : Word → Mm → Mm} (hq : User roots r (q ++ [i]))
    (hclears : Clears roots (q.length + 1) below) (hmeets : Meets roots K (q.length + 1) below) :
    MeetsEntry roots K below r q i := by
  intro s held t h hw
  have hq' : User roots r q := (positions_user roots).prefixClosed r q [i] hq
  cases hp : present (s.tbl t i) with
  | false =>
    rw [clearEntry_eq (h.lt_two_pow (h.table t ⟨r, q, hq', hw⟩).1), hp]
    exact hK.setEntry s t i
  | true =>
    obtain ⟨t', s₁, rfl, heq, hpr, hw', -, hw₁', -, hne⟩ := hclears.entry h hq hw hp
    obtain ⟨held₁, ha, -⟩ := hpr.account
    obtain ⟨hlt, hone, -⟩ := ha.table t' ⟨r, _, hq, hw₁'⟩
    rw [heq, ← freePage_setEntry_comm (ha.lt_two_pow hlt) hne]
    have hbelow := hmeets s held r (q ++ [i]) t' h hq (by simp) hw'
    refine hK.trans _ _ _ hbelow (hK.trans _ _ _ (hK.freePage _ held₁ t' ha hlt ?_) (hK.setEntry _ t i))
    rw [hone]
    exact one_ne_zero

/-- The loop over a page table. -/
theorem clearPte : Meets roots K 3 clearPte := by
  intro s held r q t h hq hlen hw
  exact hK.clearLoop hq le_rfl (fun i _ => clearsEntry_page hq hlen i) (fun i _ => hK.entry_page hq hlen i) h hw

/-- The loop over an upper table other than the PML4. -/
theorem loop {k : ℕ} {below : Word → Mm → Mm} (hclears : Clears roots (k + 1) below)
    (hmeets : Meets roots K (k + 1) below) (h0 : 0 < k) (hk : k ≤ 2) :
    Meets roots K k (Mm.clearLoop below 512) := by
  intro s held r q t h hq hlen hw
  have hentry : ∀ i : Idx, User roots r (q ++ [i]) := by
    intro i
    refine ⟨hq.1, ?_, ?_⟩
    · rw [List.length_append, List.length_singleton]
      omega
    · cases q with
      | nil =>
        rw [List.length_nil] at hlen
        omega
      | cons j q => exact hq.2.2
  exact hK.clearLoop hq le_rfl (fun i _ => clearsEntry_table (hentry i) (hlen ▸ hclears))
    (fun i _ => hK.entry_table (hentry i) (hlen ▸ hclears) (hlen ▸ hmeets)) h hw

/-- A teardown meets what its steps meet. -/
theorem clearMapping (h : s.Accounted roots held) (hr : r ∈ roots) : K s (s.clearMapping (convertVA r)) := by
  have hq : User roots r [] := ⟨hr, by simp, by simp⟩
  have hpde : Clears roots 2 clearPde := clears_clearPte.loop (by omega) le_rfl
  have hpdpte : Clears roots 1 clearPdpte := hpde.loop (by omega) (by omega)
  have hmeets : Meets roots K 1 clearPdpte :=
    hK.loop hpde (hK.loop clears_clearPte hK.clearPte (by omega) le_rfl) (by omega) (by omega)
  rw [Mm.clearMapping, scldn_convertVA (h.root_lt hr)]
  have hentry : ∀ i : Idx, (i : ℕ) < 511 → User roots r ([] ++ [i]) := by
    refine fun i hi => ⟨hr, by simp, fun hhead => ?_⟩
    have : i = kernelIdx := Option.some.inj hhead
    rw [this] at hi
    exact absurd hi (by decide)
  exact hK.clearLoop hq (by omega) (fun i hi => clearsEntry_table (hentry i hi) hpdpte)
    (fun i hi => hK.entry_table (hentry i hi) hpdpte hmeets) h rfl

end Teardown

/-! ## The free list -/

/-- The frames that the allocators can take: the first part of the free list, up to the frame of `free_page_end`. A frame
that `free_page` links behind this one has a kernel address in the link, on which an allocator faults. -/
structure Stock (s : Mm) (l : List ℕ) : Prop where
  /-- It is the first part of the list. -/
  chain : ∃ l', s.FreeChain (l ++ l')
  /-- It ends with the frame of `free_page_end`. -/
  last : ∀ e ∈ l.getLast?, s.freePageEnd = some e

namespace Stock

/-- An allocation takes the head. -/
theorem takeHead (h : s.Stock (f :: l)) : (s.takeHead f (convertVA f)).Stock l := by
  obtain ⟨l', hchain⟩ := h.chain
  refine ⟨⟨l', hchain.takeHead⟩, fun e he => h.last e ?_⟩
  rw [List.getLast?_cons, he]
  exact rfl

/-- The fields of the list. -/
theorem congr (h : s.Stock l) (hn : s'.next = s.next) (hh : s'.freePageHead = s.freePageHead)
    (hp : s'.pageCount = s.pageCount) (he : s'.freePageEnd = s.freePageEnd)
    (hr : ∀ g, s.refCount g = 0 → s'.refCount g = 0) : s'.Stock l := by
  obtain ⟨l', hchain⟩ := h.chain
  exact ⟨⟨l', hchain.congr hn hh hp fun g hg => hr g (hchain.unused g hg)⟩, fun e hl => he.trans (h.last e hl)⟩

/-- A frame that is added to the list stands behind the stock, or is not on the list. -/
theorem addToFreePages {l' : List ℕ} (h : s.Stock l) (hchain : s.FreeChain (l ++ l')) (hnot : f ∉ l ++ l')
    (h0 : s.refCount f = 0) (hlt : f < s.pageCount) : (s.addToFreePages f).Stock l := by
  refine ⟨?_, h.last⟩
  rcases List.eq_nil_or_concat' l with rfl | ⟨k, e, rfl⟩
  · obtain ⟨l'', hl'', -⟩ := hchain.addToFreePages hnot h0 hlt
    exact ⟨l'', hl''⟩
  · have hend : s.freePageEnd = some e := h.last e (by simp)
    rcases chain_addToFreePages hchain.chain hnot with ⟨l₁, l₂, e', heq, he, hc⟩ | ⟨hoff, -⟩
    · obtain rfl : e = e' := Option.some.inj (hend.symm.trans he)
      -- The frame of `free_page_end` is where the stock ends.
      have hnodup := hchain.chain.nodup
      rw [List.append_assoc, List.singleton_append] at heq hnodup
      have hk : e ∉ k := fun hm => (List.nodup_append.mp hnodup).2.2 e hm e (List.mem_cons_self ..) rfl
      have hl' : e ∉ l' := (List.nodup_cons.mp (List.nodup_append.mp hnodup).2.1).1
      obtain ⟨rfl, -, rfl⟩ := (List.append_cons_inj_of_notMem hk hl').mp heq
      have hsub : ∀ g ∈ k ++ [e, f], g ∈ (k ++ [e]) ++ l' ∨ g = f := by
        intro g hg
        simp only [List.mem_append, List.mem_cons, List.not_mem_nil, or_false] at hg ⊢
        tauto
      have hsplit : k ++ [e, f] = (k ++ [e]) ++ [f] := by rw [List.append_assoc, List.singleton_append]
      refine ⟨[f], hsplit ▸ ⟨hc, fun g hg => ?_, fun g hg => ?_, hchain.bound⟩⟩
      · exact (hsub g hg).elim (hchain.unused g) fun hgf => hgf ▸ h0
      · exact (hsub g hg).elim (hchain.lt g) fun hgf => hgf ▸ hlt
    · exact absurd hend (hoff e (by simp))

/-- A release of a frame in use. -/
theorem freePage (h : s.Stock l) (hlt : f < s.pageCount) (h0 : s.refCount f ≠ 0) :
    (s.freePage (convertVA f)).Stock l := by
  obtain ⟨l', hchain⟩ := h.chain
  have hb := hchain.lt_two_pow hlt
  have hzero : ∀ x g, s.refCount g = 0 → Function.update s.refCount f x g = 0 := fun x g hg => by
    have hne : g ≠ f := fun hgf => h0 (by rw [← hgf, hg])
    rwa [Function.update_of_ne hne]
  by_cases hr : 1 < s.refCount f
  · rw [freePage_of_shared hb hr]
    exact h.congr rfl rfl rfl rfl (hzero _)
  · rw [freePage_of_last hb (by omega)]
    exact addToFreePages (s := { s with
      refCount := Function.update s.refCount f 0
      mem := Function.update s.mem f Bytes.zero }) (h.congr rfl rfl rfl rfl (hzero 0))
      (hchain.congr rfl rfl rfl fun g hg => hzero 0 g (hchain.unused g hg)) (hchain.notMem h0)
      (Function.update_self ..) hlt

end Stock

/-- The stock is kept. -/
theorem teardown_stock (roots : Finset ℕ) : Teardown roots fun s s' => ∀ l, s.Stock l → s'.Stock l where
  refl := fun _ _ hl => hl
  trans := fun _ _ _ h₁ h₂ l hl => h₂ l (h₁ l hl)
  setEntry := fun _ _ _ _ hl => hl.congr rfl rfl rfl rfl fun _ hg => hg
  freePage := fun _ _ _ _ hlt h0 _ hl => hl.freePage hlt h0

/-- A teardown keeps the frames that the allocators can take. -/
theorem Stock.clearMapping (hl : s.Stock l) (h : s.Accounted roots held) (hr : r ∈ roots) :
    (s.clearMapping (convertVA r)).Stock l :=
  (teardown_stock roots).clearMapping h hr l hl

end Mm

end Nascent
