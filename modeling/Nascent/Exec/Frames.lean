import Nascent.Exec.Overlap

/-!
# What loading takes

`elf_read` maps a frame at each page of a segment, with the tables that are missing on the way to it, and then
copies to the pages. None of this is checked beforehand. The loop over the program headers goes through if and
only if the free list has a frame for each page and for each missing table, and each byte is copied to a page
with the write bit (`Loading.run`, `Loading.exists_run`). `Loading` is what holds between two headers.
-/

namespace Nascent

open Bytes (Byte)

namespace Mm

variable {s s₁ s' : Mm} {roots : Finset ℕ} {held : ℕ → ℕ} {r k N n : ℕ} {Q : Finset (List Idx)} {v : VPage}
  {va source destination : Word} {b : Byte} {tar : Word → Byte}

/-- The page has an entry with the write bit. -/
def Writes (s : Mm) (r : ℕ) (v : VPage) : Prop := ∃ e, s.leaf r v = some e ∧ writable e = true

/-- A byte can be copied to the address. -/
def Takes (s : Mm) (r : ℕ) (va : Word) : Prop := (vpage va).InUser ∧ s.Writes r (vpage va)

namespace Spent

variable (h : s.Spent roots r N k Q s₁ held) (hr : r ∈ roots)

include h hr

/-- A write goes through where the byte can be copied. -/
theorem writeByte (htakes : s₁.Takes r va) (b : Byte) : (s₁.writeByte (convertVA r) va b).isSome := by
  obtain ⟨hv, e, he, hwr⟩ := htakes
  unfold Mm.writeByte
  rw [getPteEntry_eq (h.account.root_lt hr), he]
  dsimp only
  rw [if_pos ⟨hwr, hv⟩]
  rfl

/-- It takes no frame, and keeps the entries. -/
theorem of_writeByte (hs : s₁.writeByte (convertVA r) va b = some s') : s.Spent roots r N k Q s' held ∧
    (∀ v : VPage, v.InUser → s'.leaf r v = s₁.leaf r v) ∧ s₁.Takes r va := by
  unfold Mm.writeByte at hs
  rw [getPteEntry_eq (h.account.root_lt hr)] at hs
  cases he : s₁.leaf r (vpage va) with
  | none =>
    rw [he] at hs
    cases hs
  | some e =>
    rw [he] at hs
    dsimp only at hs
    split at hs
    · rename_i hcond
      obtain rfl := Option.some.inj hs
      have hnot := h.account.not_isTable hr hcond.2 he
      exact ⟨h.setBlock hnot, fun v hv => leaf_setBlock hnot hr hv, hcond.2, e, he, hcond.1⟩
    · cases hs

/-- A copy takes no frame and keeps the entries, and its bytes could all be copied. -/
theorem of_memcopyUser (hs : s₁.memcopyUser tar (convertVA r) source destination n = some s') :
    s.Spent roots r N k Q s' held ∧ (∀ v : VPage, v.InUser → s'.leaf r v = s₁.leaf r v) ∧
      ∀ i < n, s₁.Takes r (destination + BitVec.ofNat 64 i) := by
  induction n generalizing s' with
  | zero =>
    obtain rfl := Option.some.inj hs
    exact ⟨h, fun _ _ => rfl, fun i hi => absurd hi (Nat.not_lt_zero i)⟩
  | succ n ih =>
    unfold Mm.memcopyUser at hs
    rw [Runs.foldlM_range_succ] at hs
    obtain ⟨s₂, hs₂, hs⟩ := Option.bind_eq_some_iff.mp hs
    obtain ⟨h₂, hleaf₂, htakes⟩ := ih hs₂
    obtain ⟨h', hleaf', hv, e, he, hwr⟩ := h₂.of_writeByte hr hs
    refine ⟨h', fun v hv => (hleaf' v hv).trans (hleaf₂ v hv), fun i hi => ?_⟩
    rcases Nat.lt_succ_iff_lt_or_eq.mp hi with hlt | rfl
    · exact htakes i hlt
    · exact ⟨hv, e, (hleaf₂ _ hv).symm.trans he, hwr⟩

/-- A copy goes through where its bytes can all be copied. -/
theorem memcopyUser (tar : Word → Byte) (source : Word)
    (htakes : ∀ i < n, s₁.Takes r (destination + BitVec.ofNat 64 i)) :
    (s₁.memcopyUser tar (convertVA r) source destination n).isSome := by
  induction n with
  | zero => rfl
  | succ n ih =>
    obtain ⟨s₂, hs₂⟩ := Option.isSome_iff_exists.mp (ih fun i hi => htakes i (Nat.lt_succ_of_lt hi))
    obtain ⟨h₂, hleaf₂, -⟩ := h.of_memcopyUser hr hs₂
    obtain ⟨hv, e, he, hwr⟩ := htakes n (Nat.lt_succ_self n)
    have hlast : (s₂.writeByte (convertVA r) (destination + BitVec.ofNat 64 n)
        (tar (source + BitVec.ofNat 64 n))).isSome :=
      h₂.writeByte hr ⟨hv, e, (hleaf₂ _ hv).trans he, hwr⟩ _
    unfold Mm.memcopyUser at hs₂ ⊢
    rw [Runs.foldlM_range_succ, hs₂]
    exact hlast

end Spent

/-- A page keeps its write bit with its entry. -/
theorem writes_congr (hleaf : s'.leaf r v = s.leaf r v) : s'.Writes r v ↔ s.Writes r v := by
  unfold Writes
  rw [hleaf]

/-- The page of a fresh frame has the write bit, and the others keep what they have. -/
theorem Accounted.writes_mapFresh {data : Bytes.Block} (h : s.Accounted roots held) (hr : r ∈ roots)
    (hva : (vpage va).InUser) (hs : s.mapFresh (convertVA r) va data = some s') (hv : v.InUser) :
    s'.Writes r v ↔ s.Writes r v ∨ v = vpage va := by
  obtain ⟨g, held', -, hm⟩ := h.mapFresh hr hva hs
  have hleaf := hm.leaf r hr v hv
  by_cases hpage : v = vpage va
  · rw [if_pos ⟨rfl, hpage⟩] at hleaf
    have hwr : writable (getPA g ||| 7) = true := by
      rw [writable_eq]
      simp
    exact iff_of_true ⟨_, hleaf, hwr⟩ (.inr hpage)
  · rw [if_neg fun hc => hpage hc.2] at hleaf
    exact (writes_congr hleaf).trans (or_iff_left hpage).symm

end Mm

namespace Proc

open Memory (Mem)

variable {m : Mem} {elf stop pres : Word} {s₀ s s' : Mm} {roots : Finset ℕ} {held : ℕ → ℕ} {r k N n : ℕ}
  {Q : Finset (List Idx)} {ph : Phdr}

/-! ## The pages of a segment -/

/-- The pages of the first repetitions of the loop from an address on. -/
def stepPages (pres : Word) (n : ℕ) : List VPage := (List.range n).map fun i => vpage (stepAddr pres i)

theorem stepPages_succ : stepPages pres (n + 1) = vpage pres :: stepPages (pres + 4096) n := by
  have hrest : stepPages (pres + 4096) n = (List.range n).map fun i => vpage (stepAddr pres (i + 1)) :=
    List.map_congr_left fun i _ => congrArg vpage (stepAddr_succ pres i)
  rw [hrest, stepPages, List.range_succ_eq_map, List.map_cons, stepAddr_zero, List.map_map]
  rfl

/-- One repetition of the loop maps a fresh frame. -/
theorem mapSegment_succ {fuel : ℕ} (h : s.Accounted roots held) (hlt : pres < stop) :
    mapSegment (convertVA r) stop (fuel + 1) pres s =
      (s.mapFresh (convertVA r) (scaleDown pres) Bytes.zero).bind
        (mapSegment (convertVA r) stop fuel (pres + 4096)) := by
  rw [← h.mapFresh_zero, mapSegment, if_pos hlt]
  simp only [Option.bind_eq_bind, Option.bind_assoc]

/-- The next repetition is at user addresses too. -/
theorem user_next (huser : ∀ a, pres ≤ a → a < stop → (vpage a).InUser) (hlt : pres < stop) :
    ∀ a, pres + 4096 ≤ a → a < stop → (vpage a).InUser := by
  have hnext : (pres + 4096).toNat = pres.toNat + 4096 := by
    have h4096 : (4096 : Word).toNat = 4096 := rfl
    have hpres := inUser_iff.mp (huser pres (BitVec.le_refl _) hlt)
    have hword := pres.isLt
    rw [BitVec.toNat_add, h4096]
    omega
  refine fun a hle hlt' => huser a ?_ hlt'
  rw [BitVec.le_def] at hle ⊢
  omega

/-- Where the loop comes to its end, it has spent a frame for each page, and those of their tables. -/
theorem of_mapSegment (hr : r ∈ roots) : ∀ {fuel : ℕ} {pres : Word} {s : Mm} {held : ℕ → ℕ} {k : ℕ}
    {Q : Finset (List Idx)}, s₀.Spent roots r N k Q s held →
    (∀ a, pres ≤ a → a < stop → (vpage a).InUser) →
    mapSegment (convertVA r) stop fuel pres s = some s' →
    ∃ n < fuel, (∀ i < n, stepAddr pres i < stop) ∧ ¬ stepAddr pres n < stop ∧
      (∃ held', s₀.Spent roots r N (k + n) (Q ∪ pathsTo (stepPages pres n)) s' held') ∧
      ∀ v : VPage, v.InUser → (s'.Writes r v ↔ s.Writes r v ∨ v ∈ stepPages pres n)
  | 0, _, _, _, _, _, _, _, hs => by cases hs
  | fuel + 1, pres, s, held, k, Q, h, huser, hs => by
    by_cases hlt : pres < stop
    · rw [mapSegment_succ h.account hlt] at hs
      obtain ⟨s₁, hs₁, hs⟩ := Option.bind_eq_some_iff.mp hs
      have hpres : (vpage (scaleDown pres)).InUser := by
        rw [vpage_scaleDown]
        exact huser pres (BitVec.le_refl _) hlt
      obtain ⟨held₁, h₁⟩ := h.of_mapFresh hr hpres hs₁
      obtain ⟨n, hn, hsteps, hstop, ⟨held', h'⟩, hwrites⟩ := of_mapSegment hr h₁ (user_next huser hlt) hs
      refine ⟨n + 1, Nat.succ_lt_succ hn, forall_step_succ (P := (· < stop)).mpr ⟨hlt, hsteps⟩, ?_,
        ⟨held', ?_⟩, fun v hv => ?_⟩
      · rwa [← stepAddr_succ]
      · rwa [vpage_scaleDown, Finset.union_assoc, ← pathsTo_cons, ← stepPages_succ, Nat.add_assoc,
          Nat.add_comm 1] at h'
      · rw [hwrites v hv, h.account.writes_mapFresh hr hpres hs₁ hv, vpage_scaleDown, stepPages_succ,
          List.mem_cons, or_assoc]
    · rw [mapSegment, if_neg hlt] at hs
      obtain rfl := Option.some.inj hs
      refine ⟨0, Nat.succ_pos _, fun i hi => absurd hi (Nat.not_lt_zero i), by rwa [stepAddr_zero],
        ⟨held, ?_⟩, fun v _ => ?_⟩
      · rwa [stepPages, List.range_zero, List.map_nil, pathsTo_nil, Finset.union_empty]
      · rw [stepPages, List.range_zero, List.map_nil]
        exact (or_iff_left List.not_mem_nil).symm

/-- With the frames for its pages and their tables, the loop comes to its end. -/
theorem exists_mapSegment {fuel : ℕ} (h : s₀.Spent roots r N k Q s held) (hr : r ∈ roots)
    (huser : ∀ a, pres ≤ a → a < stop → (vpage a).InUser) (hfuel : n < fuel)
    (hsteps : ∀ i < n, stepAddr pres i < stop) (hstop : ¬ stepAddr pres n < stop)
    (hN : k + n + (s₀.missing r (Q ∪ pathsTo (stepPages pres n))).card ≤ N) :
    (mapSegment (convertVA r) stop fuel pres s).isSome := by
  induction fuel generalizing n pres s held k Q with
  | zero => exact absurd hfuel (Nat.not_lt_zero n)
  | succ fuel ih =>
    cases n with
    | zero =>
      rw [stepAddr_zero] at hstop
      rw [mapSegment, if_neg hstop]
      rfl
    | succ n =>
      obtain ⟨hlt, hsteps⟩ := forall_step_succ (P := (· < stop)).mp hsteps
      rw [stepPages_succ, pathsTo_cons, ← Finset.union_assoc, ← vpage_scaleDown] at hN
      have hpres : (vpage (scaleDown pres)).InUser := by
        rw [vpage_scaleDown]
        exact huser pres (BitVec.le_refl _) hlt
      have hfirst : (s₀.missing r (Q ∪ (vpage (scaleDown pres)).paths)).card ≤
          (s₀.missing r (Q ∪ (vpage (scaleDown pres)).paths ∪ pathsTo (stepPages (pres + 4096) n))).card :=
        Mm.missing_mono Finset.subset_union_left
      obtain ⟨s₁, hs₁⟩ := Option.isSome_iff_exists.mp (h.mapFresh Bytes.zero hr hpres (by omega))
      obtain ⟨held₁, h₁⟩ := h.of_mapFresh hr hpres hs₁
      rw [← stepAddr_succ] at hstop
      rw [mapSegment_succ h.account hlt, hs₁]
      exact ih h₁ (user_next huser hlt) (Nat.lt_of_succ_lt_succ hfuel) hsteps hstop (by omega)

namespace Phdr

variable (ph)

/-- The address is one to which `elf_read` copies: the contents of the file, or zeros behind them. -/
def Copies (a : Word) : Prop := a - ph.vaddr < ph.filesz ∨ (a - (ph.vaddr + ph.filesz)).toNat < ph.bssSize

/-- The segment and what is copied lie at user addresses. -/
structure AtUser : Prop where
  /-- The segment. -/
  mem : ∀ a, ph.Contains a → UserAddr a
  /-- What is copied. -/
  copied : ∀ a, ph.Copies a → UserAddr a

variable {ph}

theorem mappedPages_eq : ph.mappedPages = stepPages ph.vaddr ph.stepCount := rfl

theorem length_mappedPages : ph.mappedPages.length = ph.stepCount := by
  rw [mappedPages, List.length_map, List.length_range]

/-- The loop of a segment at user addresses stops behind it. -/
theorem AtUser.stepCount_spec (h : ph.AtUser) :
    (∀ i < ph.stepCount, stepAddr ph.vaddr i < ph.endAddr) ∧ ¬ stepAddr ph.vaddr ph.stepCount < ph.endAddr := by
  have hwrap := no_wrap h.mem
  refine Proc.stepCount_spec hwrap ?_
  rcases Nat.eq_zero_or_pos ph.memsz.toNat with hzero | hpos
  · rw [stepCount]
    omega
  · have hend := end_le h.mem hpos
    rw [stepCount]
    omega

end Phdr

/-- The addresses of a copy. -/
theorem forall_add_iff {P : Word → Prop} {base : Word} (hn : n ≤ 2^64) :
    (∀ i < n, P (base + BitVec.ofNat 64 i)) ↔ ∀ a, (a - base).toNat < n → P a := by
  constructor
  · intro h a ha
    have hP := h _ ha
    rwa [BitVec.ofNat_toNat, BitVec.setWidth_eq, BitVec.add_comm, BitVec.sub_add_cancel] at hP
  · intro h i hi
    refine h _ ?_
    rw [BitVec.add_comm, BitVec.add_sub_cancel, BitVec.toNat_ofNat, Nat.mod_eq_of_lt (by omega)]
    exact hi

theorem bssSize_lt : ph.bssSize < 2^31 := by
  have hlt := ((ph.memsz - ph.filesz).setWidth 32).toInt_lt
  unfold Phdr.bssSize
  omega

/-- The two copies take no frame and keep the entries, and all their bytes could be copied. -/
theorem of_fillSegment (h : s₀.Spent roots r N k Q s held) (hr : r ∈ roots)
    (hs : fillSegment m elf (convertVA r) ph s = some s') : s₀.Spent roots r N k Q s' held ∧
      (∀ v : VPage, v.InUser → s'.leaf r v = s.leaf r v) ∧ ∀ a, ph.Copies a → s.Takes r a := by
  obtain ⟨s₁, hs₁, hs⟩ := Option.bind_eq_some_iff.mp hs
  obtain ⟨h₁, hleaf₁, hfile⟩ := h.of_memcopyUser hr hs₁
  obtain ⟨h', hleaf', hclear⟩ := h₁.of_memcopyUser hr hs
  have hbss : ph.bssSize < 2^31 := bssSize_lt
  refine ⟨h', fun v hv => (hleaf' v hv).trans (hleaf₁ v hv), ?_⟩
  rintro a (ha | ha)
  · exact (forall_add_iff (P := s.Takes r) ph.filesz.isLt.le).mp hfile a ha
  · obtain ⟨hv, hw⟩ := (forall_add_iff (P := s₁.Takes r) (by omega)).mp hclear a ha
    exact ⟨hv, (Mm.writes_congr (hleaf₁ _ hv)).mp hw⟩

/-- The two copies go through where all their bytes can be copied. -/
theorem exists_fillSegment (h : s₀.Spent roots r N k Q s held) (hr : r ∈ roots)
    (htakes : ∀ a, ph.Copies a → s.Takes r a) : (fillSegment m elf (convertVA r) ph s).isSome := by
  have hbss : ph.bssSize < 2^31 := bssSize_lt
  have hfile := (forall_add_iff (P := s.Takes r) ph.filesz.isLt.le).mpr fun a ha => htakes a (.inl ha)
  obtain ⟨s₁, hs₁⟩ := Option.isSome_iff_exists.mp (h.memcopyUser hr m (elf + ph.offset) hfile)
  obtain ⟨h₁, hleaf₁, -⟩ := h.of_memcopyUser hr hs₁
  have hclear := (forall_add_iff (P := s₁.Takes r) (n := ph.bssSize) (by omega)).mpr fun a ha => by
    obtain ⟨hv, hw⟩ := htakes a (.inr ha)
    exact ⟨hv, (Mm.writes_congr (hleaf₁ _ hv)).mpr hw⟩
  unfold fillSegment
  rw [hs₁, Option.bind_eq_bind, Option.bind_some]
  exact h₁.memcopyUser hr _ _ hclear

/-! ## The loop over the program headers -/

/-- The pages that are mapped for some segments, each as often as it is mapped. -/
def pagesOf (phs : List Phdr) : List VPage := phs.flatMap Phdr.mappedPages

theorem pagesOf_append (phs qhs : List Phdr) : pagesOf (phs ++ qhs) = pagesOf phs ++ pagesOf qhs :=
  List.flatMap_append

theorem pagesOf_concat (phs : List Phdr) (ph : Phdr) : pagesOf (phs ++ [ph]) = pagesOf phs ++ ph.mappedPages := by
  rw [pagesOf_append, pagesOf, pagesOf, List.flatMap_singleton]

/-- The frames that some pages take: one for each, and one for each table that is missing. -/
def cost (s : Mm) (r : ℕ) (pages : List VPage) : ℕ := pages.length + (s.missing r (pathsTo pages)).card

theorem cost_mono (s : Mm) (r : ℕ) (pages more : List VPage) : cost s r pages ≤ cost s r (pages ++ more) := by
  have hle : (s.missing r (pathsTo pages)).card ≤ (s.missing r (pathsTo (pages ++ more))).card := by
    rw [pathsTo_append]
    exact Mm.missing_mono Finset.subset_union_left
  unfold cost
  rw [List.length_append]
  omega

/-- What is copied for a segment goes to pages with the write bit: those that the address space has, and those
that are mapped for the segments `done` and for this one. -/
def Phdr.CoveredBy (s : Mm) (r : ℕ) (done : List Phdr) (ph : Phdr) : Prop :=
  ∀ a, ph.Copies a → s.Writes r (vpage a) ∨ vpage a ∈ pagesOf (done ++ [ph])

/-- What is copied for each segment goes to such pages. -/
def Covered (s : Mm) (r : ℕ) : List Phdr → List Phdr → Prop
  | _, [] => True
  | done, ph :: phs => ph.CoveredBy s r done ∧ Covered s r (done ++ [ph]) phs

/-- The state of `elf_read` after the segments `done`, from the memory `s₀` with `N` free frames, the
`mm_struct` `r₀`, and the list `free` of free VMAs. -/
structure Loading (s₀ : Mm) (roots : Finset ℕ) (r N : ℕ) (r₀ : MmStruct) (free : List ℕ) (done : List Phdr)
    (l : Load) : Prop where
  /-- The frames of the pages and of their tables are spent. -/
  spent : ∃ held, s₀.Spent roots r N (pagesOf done).length (pathsTo (pagesOf done)) l.pools.mm held
  /-- The pages have the write bit. -/
  writes : ∀ v : VPage, v.InUser → (l.pools.mm.Writes r v ↔ s₀.Writes r v ∨ v ∈ pagesOf done)
  /-- Each segment has a VMA, while there are some. -/
  vmas : l.mm.vmas = r₀.vmas ++ free.take done.length
  /-- The others are free. -/
  freeVmas : l.pools.freeVmas = free.drop done.length

/-- `fetch_free_vma` takes the head of the list, where there is one. -/
theorem fetchFreeVma_spec (p : Pools) (v : Vma) : (p.fetchFreeVma v).1.toList = p.freeVmas.take 1 ∧
    (p.fetchFreeVma v).2.freeVmas = p.freeVmas.drop 1 ∧ (p.fetchFreeVma v).2.mm = p.mm := by
  unfold Pools.fetchFreeVma
  cases hfree : p.freeVmas with
  | nil => exact ⟨rfl, hfree, rfl⟩
  | cons v vs => exact ⟨rfl, rfl, rfl⟩

variable {l l' : Load} {junk : Word × Word} {r₀ : MmStruct} {free : List ℕ} {done : List Phdr}

/-- A segment takes a VMA, where there is one. -/
theorem loadSegment_vmas {pml : Word} (hload : ph.isLoad = true)
    (hs : loadSegment m elf pml l (ph, junk) = .ok l') :
    l'.mm.vmas = l.mm.vmas ++ l.pools.freeVmas.take 1 ∧ l'.pools.freeVmas = l.pools.freeVmas.drop 1 := by
  rw [loadSegment, if_pos hload] at hs
  obtain ⟨hvma, hfree, -⟩ := fetchFreeVma_spec l.pools
    ⟨ph.vaddr, ph.endAddr, ph.type.setWidth 64, ph.vmType, junk.1, junk.2⟩
  generalize l.pools.fetchFreeVma _ = fetched at hs hvma hfree
  obtain ⟨mm, -, hs⟩ := bind_eq_ok hs
  obtain ⟨mm', -, hs⟩ := bind_eq_ok hs
  obtain rfl := Except.ok.inj hs
  exact ⟨congrArg (l.mm.vmas ++ ·) hvma, hfree⟩

/-- A segment is loaded where its pages are mapped and its copies go through. -/
theorem exists_loadSegment {pml : Word} (hload : ph.isLoad = true)
    (hmap : mapSegment pml ph.endAddr (l.pools.mm.pageCount + 1) ph.vaddr l.pools.mm = some s)
    (hfill : (fillSegment m elf pml ph s).isSome) : ∃ l', loadSegment m elf pml l (ph, junk) = .ok l' := by
  obtain ⟨s', hs'⟩ := Option.isSome_iff_exists.mp hfill
  obtain ⟨-, -, hmm⟩ := fetchFreeVma_spec l.pools
    ⟨ph.vaddr, ph.endAddr, ph.type.setWidth 64, ph.vmType, junk.1, junk.2⟩
  rw [loadSegment, if_pos hload]
  generalize l.pools.fetchFreeVma _ = fetched at hmm
  dsimp only
  rw [hmm, hmap]
  change ∃ l', (mapped (fillSegment m elf pml ph s) >>= fun mm => pure _) = Except.ok l'
  rw [hs']
  exact ⟨_, rfl⟩

namespace Loading

variable (h : Loading s₀ roots r N r₀ free done l) (hr : r ∈ roots)

include h hr

/-- One more segment. -/
theorem load (hph : ph.AtUser) (hload : ph.isLoad = true)
    (hs : loadSegment m elf (convertVA r) l (ph, junk) = .ok l') :
    Loading s₀ roots r N r₀ free (done ++ [ph]) l' ∧ ph.CoveredBy s₀ r done := by
  obtain ⟨s, hmap, hfill⟩ := loadSegment_ok hload hs
  obtain ⟨hvmas, hfree⟩ := loadSegment_vmas hload hs
  obtain ⟨held, hspent⟩ := h.spent
  obtain ⟨fs, hchain⟩ := hspent.account.free
  have hbound := hchain.bound
  obtain ⟨n, hn, hsteps, hstop, ⟨held', hspent'⟩, hwrites⟩ :=
    of_mapSegment hr hspent (fun a => Phdr.inUser_of_lt hph.mem) hmap
  obtain ⟨rfl, -⟩ := stepCount_eq (Phdr.no_wrap hph.mem) (by omega) hsteps hstop
  rw [← Phdr.mappedPages_eq] at hspent' hwrites
  obtain ⟨hspent'', hleaf, htakes⟩ := of_fillSegment hspent' hr hfill
  have hmapped : ∀ v : VPage, v.InUser → (s.Writes r v ↔ s₀.Writes r v ∨ v ∈ pagesOf (done ++ [ph])) := by
    intro v hv
    rw [hwrites v hv, h.writes v hv, pagesOf_concat, List.mem_append, or_assoc]
  refine ⟨⟨⟨held', ?_⟩, fun v hv => ?_, ?_, ?_⟩, fun a ha => ?_⟩
  · rwa [pagesOf_concat, List.length_append, pathsTo_append, Phdr.length_mappedPages]
  · exact (Mm.writes_congr (hleaf v hv)).trans (hmapped v hv)
  · rw [hvmas, h.vmas, h.freeVmas, List.length_append, List.length_singleton, List.append_assoc, ← List.take_add]
  · rw [hfree, h.freeVmas, List.length_append, List.length_singleton, List.drop_drop]
  · obtain ⟨hv, hw⟩ := htakes a ha
    exact (hmapped _ hv).mp hw

/-- With the frames for its pages, a segment whose copies go to pages with the write bit is loaded. -/
theorem exists_load (hph : ph.AtUser) (hload : ph.isLoad = true)
    (hN : cost s₀ r (pagesOf (done ++ [ph])) ≤ N) (hcov : ph.CoveredBy s₀ r done) :
    ∃ l', loadSegment m elf (convertVA r) l (ph, junk) = .ok l' := by
  obtain ⟨held, hspent⟩ := h.spent
  obtain ⟨hsteps, hstop⟩ := hph.stepCount_spec
  rw [cost, pagesOf_concat, List.length_append, pathsTo_append, Phdr.length_mappedPages] at hN
  -- The frames for the pages are on the free list, so there are enough repetitions.
  have hfuel : ph.stepCount < l.pools.mm.pageCount + 1 := by
    obtain ⟨fs, hchain, hlen⟩ := hspent.free
    have hle := (length_lt_of_freeChain hchain).1
    have hmono : (s₀.missing r (pathsTo (pagesOf done))).card ≤
        (s₀.missing r (pathsTo (pagesOf done) ∪ pathsTo ph.mappedPages)).card :=
      Mm.missing_mono Finset.subset_union_left
    omega
  obtain ⟨s, hmap⟩ := Option.isSome_iff_exists.mp
    (exists_mapSegment hspent hr (fun a => Phdr.inUser_of_lt hph.mem) hfuel hsteps hstop hN)
  obtain ⟨n, hn, hsteps', hstop', ⟨held', hspent'⟩, hwrites⟩ :=
    of_mapSegment hr hspent (fun a => Phdr.inUser_of_lt hph.mem) hmap
  obtain ⟨fs, hchain⟩ := hspent.account.free
  have hbound := hchain.bound
  obtain ⟨rfl, -⟩ := stepCount_eq (Phdr.no_wrap hph.mem) (by omega) hsteps' hstop'
  refine exists_loadSegment hload hmap (exists_fillSegment hspent' hr fun a ha => ?_)
  have hv := (hph.copied a ha).inUser
  refine ⟨hv, ?_⟩
  rw [hwrites _ hv, h.writes _ hv, ← Phdr.mappedPages_eq, or_assoc, ← List.mem_append, ← pagesOf_concat]
  exact hcov a ha

omit h in
/-- The loop over the headers, where it comes to its end. -/
theorem run : ∀ (xs : List (Phdr × Word × Word)) (done : List Phdr) (l : Load),
    Loading s₀ roots r N r₀ free done l → (∀ ph ∈ loads xs, ph.AtUser) →
    xs.foldlM (loadSegment m elf (convertVA r)) l = .ok l' →
    Loading s₀ roots r N r₀ free (done ++ loads xs) l' ∧ Covered s₀ r done (loads xs)
  | [], done, l, h, _, hs => by
    obtain rfl := Except.ok.inj hs
    rw [loads, List.map_nil, List.filter_nil, List.append_nil]
    exact ⟨h, trivial⟩
  | (ph, junk) :: xs, done, l, h, huser, hs => by
    rw [List.foldlM_cons] at hs
    obtain ⟨l₁, h₁, hs⟩ := bind_eq_ok hs
    by_cases hload : ph.isLoad
    · rw [loads_cons_of_pos hload] at huser ⊢
      obtain ⟨hl₁, hcov⟩ := h.load hr (huser ph (List.mem_cons_self ..)) hload h₁
      obtain ⟨hl', hcov'⟩ := run xs _ l₁ hl₁ (fun q hq => huser q (List.mem_cons_of_mem _ hq)) hs
      rw [List.append_assoc, List.singleton_append] at hl'
      exact ⟨hl', hcov, hcov'⟩
    · rw [loads_cons_of_neg hload] at huser ⊢
      rw [loadSegment, if_neg hload] at h₁
      obtain rfl := Except.ok.inj h₁
      exact run xs done l h huser hs

omit h in
/-- With the frames for all pages, the loop comes to its end. -/
theorem exists_run (m : Mem) (elf : Word) : ∀ (xs : List (Phdr × Word × Word)) (done : List Phdr) (l : Load),
    Loading s₀ roots r N r₀ free done l → (∀ ph ∈ loads xs, ph.AtUser) →
    cost s₀ r (pagesOf (done ++ loads xs)) ≤ N → Covered s₀ r done (loads xs) →
    ∃ l', xs.foldlM (loadSegment m elf (convertVA r)) l = .ok l'
  | [], _, l, _, _, _, _ => ⟨l, rfl⟩
  | (ph, junk) :: xs, done, l, h, huser, hN, hcov => by
    rw [List.foldlM_cons]
    by_cases hload : ph.isLoad
    · rw [loads_cons_of_pos hload] at huser hN hcov
      have hself := huser ph (List.mem_cons_self ..)
      rw [List.append_cons, pagesOf_append] at hN
      obtain ⟨l₁, h₁⟩ := h.exists_load hr hself hload ((cost_mono ..).trans hN) hcov.1
      obtain ⟨hl₁, -⟩ := h.load hr hself hload h₁
      rw [← pagesOf_append] at hN
      obtain ⟨l', hl'⟩ := exists_run m elf xs _ l₁ hl₁ (fun q hq => huser q (List.mem_cons_of_mem _ hq)) hN hcov.2
      rw [h₁]
      exact ⟨l', hl'⟩
    · rw [loads_cons_of_neg hload] at huser hN hcov
      rw [loadSegment, if_neg hload]
      exact exists_run m elf xs done l h huser hN hcov

end Loading

end Proc

end Nascent
