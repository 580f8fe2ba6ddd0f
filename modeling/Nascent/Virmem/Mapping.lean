import Nascent.Virmem.Account

/-!
# `set_mapping` under the account

`set_mapping` allocates the tables that are missing and then writes one entry. `Grown` is what the
first part does to the state: frames of the free list have become tables, and nothing that was in
use has changed. An allocation on its own is such a change too. The second part is `setLeaf` of
`Virmem/Account.lean`, for the caller to apply, since it decides about references.
-/

namespace Nascent

namespace Mm

variable {s s' s₁ s₂ : Mm} {roots : Finset ℕ} {held held₁ held₂ : ℕ → ℕ} {f g r t : ℕ} {v : VPage}
  {i : Idx} {q : List Idx} {va : Word}

/-- The state `s₁` is the state `s` after allocations, some of them as tables. -/
structure Grown (s : Mm) (roots : Finset ℕ) (held : ℕ → ℕ) (s₁ : Mm) (held₁ : ℕ → ℕ) : Prop where
  /-- The account balances. -/
  account : s₁.Accounted roots held₁
  /-- No entry of a page changes. -/
  leaf : ∀ n ∈ roots, ∀ v : VPage, v.InUser → s₁.leaf n v = s.leaf n v
  /-- The references to a frame in use stay. -/
  used : ∀ f, s.refCount f ≠ 0 → s₁.refCount f = s.refCount f ∧ held₁ f = held f
  /-- A frame in use does not become a table. -/
  not_isTable : ∀ f, s.refCount f ≠ 0 → ¬ s.IsTable (User roots) f → ¬ s₁.IsTable (User roots) f
  /-- Frames in use other than tables keep their contents. -/
  mem : ∀ f, s.refCount f ≠ 0 → ¬ s.IsTable (User roots) f → s₁.mem f = s.mem f
  /-- The kernel's entry in each PML4 stays. -/
  kernel : ∀ n ∈ roots, s₁.tbl n kernelIdx = s.tbl n kernelIdx
  /-- The number of frames and the kernel's own PML4 stay. -/
  consts : s₁.pageCount = s.pageCount ∧ s₁.kpmlAddr = s.kpmlAddr

theorem Grown.refl (h : s.Accounted roots held) : s.Grown roots held s held :=
  ⟨h, fun _ _ _ _ => rfl, fun _ _ => ⟨rfl, rfl⟩, fun _ _ hf => hf, fun _ _ _ => rfl, fun _ _ => rfl,
    rfl, rfl⟩

theorem Grown.trans (h₁ : s.Grown roots held s₁ held₁) (h₂ : s₁.Grown roots held₁ s₂ held₂) :
    s.Grown roots held s₂ held₂ := by
  have hused : ∀ f, s.refCount f ≠ 0 → s₁.refCount f ≠ 0 := fun f hf => by
    rw [(h₁.used f hf).1]
    exact hf
  refine ⟨h₂.account, fun n hn v hv => ?_, fun f hf => ?_, fun f hf hnot => ?_, fun f hf hnot => ?_,
    fun n hn => ?_, ?_, ?_⟩
  · rw [h₂.leaf n hn v hv, h₁.leaf n hn v hv]
  · rw [(h₂.used f (hused f hf)).1, (h₂.used f (hused f hf)).2]
    exact h₁.used f hf
  · exact h₂.not_isTable f (hused f hf) (h₁.not_isTable f hf hnot)
  · rw [h₂.mem f (hused f hf) (h₁.not_isTable f hf hnot), h₁.mem f hf hnot]
  · rw [h₂.kernel n hn, h₁.kernel n hn]
  · rw [h₂.consts.1, h₁.consts.1]
  · rw [h₂.consts.2, h₁.consts.2]

/-- The number of entries that refer to a frame does not change. -/
theorem Grown.leafCount (h : s.Grown roots held s₁ held₁) (f : ℕ) :
    s₁.leafCount roots f = s.leafCount roots f := leafCount_congr h.leaf

/-- The kernel holds the only reference to the frame, which is not a table. -/
structure Loose (s : Mm) (roots : Finset ℕ) (held : ℕ → ℕ) (f : ℕ) : Prop where
  /-- A frame of the machine. -/
  lt : f < s.pageCount
  /-- No table. -/
  not_isTable : ¬ s.IsTable (User roots) f
  /-- The kernel's reference. -/
  held_eq : held f = 1
  /-- No entry refers to the frame. -/
  leafCount_eq : s.leafCount roots f = 0

/-- A loose frame stays loose, with its contents, while others are allocated. -/
theorem Loose.grown (hl : s.Loose roots held f) (h : s.Accounted roots held)
    (hg : s.Grown roots held s₁ held₁) : s₁.Loose roots held₁ f ∧ s₁.mem f = s.mem f := by
  have h0 : s.refCount f ≠ 0 := by
    rw [h.count f hl.lt, hl.held_eq]
    omega
  refine ⟨⟨?_, hg.not_isTable f h0 hl.not_isTable, ?_, ?_⟩, hg.mem f h0 hl.not_isTable⟩
  · rw [hg.consts.1]
    exact hl.lt
  · rw [(hg.used f h0).2, hl.held_eq]
  · rw [hg.leafCount, hl.leafCount_eq]

namespace Accounted

variable (h : s.Accounted roots held)

include h

/-- An allocation gives a loose frame, and changes nothing that was in use. -/
theorem grown_alloc (hg : s.freePageHead = some g) :
    s.Grown roots held (s.takeHead g (convertVA g)) (Function.update held g 1) ∧
      (s.takeHead g (convertVA g)).Loose roots (Function.update held g 1) g := by
  obtain ⟨hlt, h0, -⟩ := h.head hg
  obtain ⟨hleaf, -, hnot⟩ := h.of_refCount_zero hlt h0
  have hb := h.lt_two_pow hlt
  have hO := positions_user roots
  have hne : ∀ f, s.refCount f ≠ 0 → f ≠ g := fun f hf hfg => hf (hfg ▸ h0)
  have htbl := h.tbl_takeHead hg
  have hsame := fun n (hn : n ∈ roots) (v : VPage) (hv : v.InUser) =>
    leaf_frame hO htbl (user_dir hn hv)
  refine ⟨⟨h.alloc hg, hsame, fun f hf => ?_, fun f _ hf ht => hf ((isTable_frame hO htbl).mp ht),
    fun f hf _ => ?_, fun n hn => congrFun (htbl n (isTable_root hn)) _, rfl, rfl⟩,
    hlt, fun ht => hnot ((isTable_frame hO htbl).mp ht), Function.update_self .., ?_⟩
  · rw [takeHead_eq hb]
    exact ⟨Function.update_of_ne (hne f hf) .., Function.update_of_ne (hne f hf) ..⟩
  · rw [takeHead_eq hb]
    exact Function.update_of_ne (hne f hf) ..
  · rw [leafCount_congr hsame, hleaf]

/-- A fresh table. -/
theorem grown_install (hq : User roots r (q ++ [i])) (hw : s.table r q = some t)
    (habs : child (s.tbl t i) = none) (hg : s.freePageHead = some g) :
    s.Grown roots held (s.install t i g) (Function.update held g 1) := by
  obtain ⟨hlt, h0, -⟩ := h.head hg
  obtain ⟨-, -, hnot⟩ := h.of_refCount_zero hlt h0
  have hb := h.lt_two_pow hlt
  have hO := positions_user roots
  have hq' : User roots r q := hO.prefixClosed r q [i] hq
  have hlen : q.length ≤ 2 := by
    have := hq.2.1
    rw [List.length_append, List.length_singleton] at this
    omega
  have ht : s.IsTable (User roots) t := ⟨r, q, hq', hw⟩
  have hgt : g ≠ t := fun hgt => hnot (hgt ▸ ht)
  have hne : ∀ f, s.refCount f ≠ 0 → f ≠ g := fun f hf hfg => hf (hfg ▸ h0)
  refine ⟨h.install hq' hw hlen habs hg, fun n hn v hv =>
    leaf_install hO h.separate hq' hw hnot hb habs hlen (user_dir hn hv), fun f hf => ⟨?_, ?_⟩,
    fun f hf hnf => ?_, fun f hf hnf => ?_, fun n hn => ?_, rfl, rfl⟩
  · rw [Mm.install, takeHead_eq hb]
    exact Function.update_of_ne (hne f hf) ..
  · exact Function.update_of_ne (hne f hf) ..
  · rintro ⟨n, p, hn, hp⟩
    rw [table_install hO h.separate hq' hw hnot hb habs hn] at hp
    split_ifs at hp
    · exact hne f hf (Option.some.inj hp).symm
    · exact hnf ⟨n, p, hn, hp⟩
  · have hft : f ≠ t := fun hft => hnf (hft ▸ ht)
    rw [Mm.install, takeHead_eq hb]
    show Function.update (Function.update s.mem g _) t _ f = s.mem f
    rw [Function.update_of_ne hft, Function.update_of_ne (hne f hf)]
  · have hng : n ≠ g := fun hng => hnot (hng ▸ isTable_root hn)
    rw [tbl_install hb hgt, if_neg, if_neg hng]
    rintro ⟨rfl, rfl⟩
    -- The table would be a PML4, and the entry the kernel's.
    obtain ⟨-, rfl⟩ := h.separate _ _ _ _ _ ⟨hn, by simp, by simp⟩ hq'
      (rfl : s.table n [] = some n) hw
    exact hq.2.2 rfl

/-- `set_mapping` of a user page: the missing tables, and the entry. -/
theorem setMapping {phyaddr flags : Word} (hr : r ∈ roots) (hv : (vpage va).InUser)
    (hs : s.setMapping (convertVA r) va phyaddr flags = some s') :
    ∃ s₁ held₁ t, s.Grown roots held s₁ held₁ ∧ s₁.table r (vpage va).dir = some t ∧
      s' = s₁.setEntry t (vpage va).pte (phyaddr ||| flags) := by
  have hO := positions_user roots
  have hb := h.root_lt hr
  have huser : ∀ q, q <+: (vpage va).dir → User roots r q := by
    rintro q ⟨p, hp⟩
    exact hO.prefixClosed r q p (hp ▸ user_dir hr hv)
  -- The state in the middle of the walk.
  obtain ⟨t, s₁, ⟨⟨held₁, hgrown⟩, hw⟩, rfl⟩ := setMapping_cases
    (P := fun q t s₁ => (∃ held₁, s.Grown roots held s₁ held₁) ∧ s₁.table r q = some t) hb
    (by
      rintro q t s₁ ⟨⟨held₁, hgrown⟩, -⟩ g hg
      exact hgrown.account.lt_two_pow (hgrown.account.head hg).1)
    (by
      rintro q i t s₁ s₂ t' hq ⟨⟨held₁, hgrown⟩, hw⟩ hd
      cases hd with
      | follow hp =>
        refine ⟨⟨held₁, hgrown⟩, ?_⟩
        rw [Mm.table, Radix.walk_snoc_of hw, child, if_pos hp]
      | fresh habs _ hg =>
        have habs' : child (s₁.tbl t i) = none := by rw [child, habs]; rfl
        have ha := hgrown.account
        obtain ⟨hlt, h0, -⟩ := ha.head hg
        obtain ⟨-, -, hnot⟩ := ha.of_refCount_zero hlt h0
        have hq' := huser _ hq
        refine ⟨⟨_, hgrown.trans (ha.grown_install hq' hw habs' hg)⟩, ?_⟩
        rw [table_install hO ha.separate (hO.prefixClosed r q [i] hq') hw hnot (ha.lt_two_pow hlt)
          habs' hq', if_pos ⟨rfl, rfl⟩])
    ⟨⟨held, .refl h⟩, rfl⟩ hs
  exact ⟨s₁, held₁, t, hgrown, hw, rfl⟩

end Accounted

/-- `create_new_pml_table` takes the head of the free list, and writes the kernel's entry. -/
theorem createNewPmlTable_eq (hg : s.freePageHead = some g) (hb : g < 2^52) :
    s.createNewPmlTable = some (convertVA g,
      s.newPml g ((s.takeHead g (convertVA g)).kread (s.kpmlAddr + 8 * 511))) := by
  have hslot : ∀ e, (s.takeHead g (convertVA g)).kwrite (convertVA g + 8 * 511) e =
      (s.takeHead g (convertVA g)).setEntry g kernelIdx e := fun e => by
    obtain ⟨h1, h2⟩ := slot_eq (o := 511) hb (by decide)
    rw [kwrite, h1, h2]
    rfl
  simp only [createNewPmlTable, (alloc_eq hg).1, Option.bind_eq_bind, Option.bind_some, hslot]
  rfl

end Mm

end Nascent
