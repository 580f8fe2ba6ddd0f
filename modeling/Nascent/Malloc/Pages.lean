import Nascent.Malloc.Search

/-!
# The memory that the kernel gives to the allocator

The system call `SYS_sbrk` ignores the number of bytes it is asked for and returns one page from
`page_alloc`, which clears it. `morecore` takes the page for a block of at least 1024 units, which is
four pages. A process is modelled up to the repetitions of the loop of `malloc`, with the pages that
the kernel has returned. The blocks of the list and those of the program are inside these pages exactly
in the runs in which the body of the loop is never reached (`Process.inside_iff`).
-/

namespace Nascent.Malloc

open Heap Runs

variable {base : ℕ} {h : Heap}

/-- `PAGE_SIZE`. -/
def pageSize : ℕ := 4096

/-- The heap after `page_alloc` has cleared a page. -/
def Heap.cleared (h : Heap) (page : ℕ) : Heap :=
  { h with
    ptr := fun a => if page ≤ a ∧ a < page + pageSize then 0 else h.ptr a
    size := fun a => if page ≤ a ∧ a < page + pageSize then 0 else h.size a }

/-- The body of the loop of `malloc`, where `SYS_sbrk` returns the page. -/
def Scan.bodyPage (s : Scan) (fuel nunits page : ℕ) : Option Scan :=
  let s := s.take nunits
  let s := if s.heap.freeptr = some s.p then { s with heap := s.heap.cleared page } else s
  (s.more fuel nunits fun _ => page).map fun s => { s with prevptr := s.p, p := s.heap.ptr s.p }

/-- A process that calls the allocator. -/
structure Process where
  /-- The heap. -/
  heap : Heap
  /-- The call of `malloc` that is under way: the number of units and the state of its loop. -/
  loop : Option (ℕ × Scan)
  /-- The pointers that `malloc` has returned and that were not given back. -/
  live : List ℕ
  /-- The pages that `SYS_sbrk` has returned. -/
  pages : List ℕ

namespace Process

/-- What a process does. -/
inductive Act
  /-- `malloc` is called, up to its loop. -/
  | malloc (nbytes : ℕ)
  /-- The body of its loop, with the page that `SYS_sbrk` returns if it is called. -/
  | iterate (fuel page : ℕ)
  /-- `free` of a live pointer. -/
  | free (ap fuel : ℕ)

/-- The process before its first call. -/
def start (ptr size : ℕ → ℕ) : Process := ⟨⟨ptr, size, none⟩, none, [], []⟩

/-- The pages after the body of the loop, which calls `SYS_sbrk` where it adds a region. -/
def pagesAfter (pages : List ℕ) (page : ℕ) (before after : Scan) : List ℕ :=
  if after.regions.length = before.regions.length then pages else pages ++ [page]

/-- One action. -/
def step (base : ℕ) (p : Process) : Act → Option Process
  | .malloc nbytes =>
    if p.loop.isNone then
      some { p with heap := p.heap.init base, loop := some (unitsOf nbytes, Scan.start base p.heap) }
    else none
  | .iterate fuel page => p.loop.bind fun l => (l.2.bodyPage fuel l.1 page).map fun s =>
    { heap := s.heap
      loop := if s.isAllocating then some (l.1, s) else none
      live := if s.isAllocating then p.live else s.result :: p.live
      pages := pagesAfter p.pages page l.2 s }
  | .free ap fuel =>
    if p.loop.isNone ∧ ap ∈ p.live then
      (p.heap.free fuel ap).map fun h => { p with heap := h, live := p.live.erase ap }
    else none

/-- The address is a block of the list, or of the program. -/
def HasBlock (p : Process) (b : ℕ) : Prop :=
  (∃ f k, p.heap.freeptr = some f ∧ p.heap.ptr^[k] f = b) ∨ b + unit ∈ p.live

/-- Every byte of every block is inside a page that `SYS_sbrk` has returned. -/
def Inside (p : Process) : Prop :=
  ∀ b, p.HasBlock b → ∀ x, b ≤ x → x < p.heap.blockEnd b →
    ∃ page ∈ p.pages, page ≤ x ∧ x < page + pageSize

variable {p p' : Process} {fuel page nbytes nunits : ℕ}

/-! ## Before the first repetition -/

/-- A process in which the body of the loop has not been reached. -/
def Untouched (base : ℕ) (p : Process) : Prop :=
  p.live = [] ∧ p.pages = [] ∧
    ((p.loop = none ∧ p.heap.freeptr = none) ∨
      ∃ nunits h, 0 < nunits ∧ h.freeptr = none ∧ p.heap = h.init base ∧
        p.loop = some (nunits, Scan.start base h))

theorem unitsOf_pos (nbytes : ℕ) : 0 < unitsOf nbytes := Nat.succ_pos _

/-- The other actions do not reach the body of the loop. -/
theorem Untouched.kept {a : Act} (hp : p.Untouched base) (hstep : step base p a = some p')
    (ha : ∀ fuel page, a ≠ .iterate fuel page) : p'.Untouched base := by
  obtain ⟨hlive, hpages, hcase⟩ := hp
  cases a with
  | malloc nbytes =>
    rw [Process.step] at hstep
    rcases hcase with ⟨hloop, hfp⟩ | ⟨n, h, -, -, -, hloop⟩
    · rw [hloop, Option.isNone_none, if_pos rfl] at hstep
      obtain rfl := Option.some.inj hstep
      exact ⟨hlive, hpages, .inr ⟨_, _, unitsOf_pos nbytes, hfp, rfl, rfl⟩⟩
    · rw [hloop, Option.isNone_some, if_neg Bool.false_ne_true] at hstep
      cases hstep
  | iterate fuel page => exact absurd rfl (ha fuel page)
  | free ap fuel =>
    rw [Process.step, hlive, if_neg fun hc => absurd hc.2 List.not_mem_nil] at hstep
    cases hstep

/-- A process that has not reached the body has no memory in its blocks. -/
theorem Untouched.inside (hp : p.Untouched base) : p.Inside := by
  obtain ⟨hlive, -, hcase⟩ := hp
  intro b hb x hle hlt
  rcases hb with ⟨f, k, hf, hk⟩ | hb
  · rcases hcase with ⟨-, hfp⟩ | ⟨n, h, -, hfp, hheap, -⟩
    · rw [hfp] at hf
      cases hf
    · obtain ⟨hfp', hptr, hsize⟩ := init_of_none base hfp
      rw [hheap] at hf hk hlt
      rw [hfp'] at hf
      obtain rfl := Option.some.inj hf
      rw [show b = base from hk.symm.trans (Function.iterate_fixed hptr k)] at hle hlt
      rw [blockEnd, hsize, Nat.mul_zero, Nat.add_zero] at hlt
      omega
  · rw [hlive] at hb
    cases hb

/-! ## The first repetition -/

/-- The insertion of a block into the list of `base` alone. -/
theorem insertAfter_base {up : ℕ} (hne : up ≠ base) (hptr : h.ptr base = base)
    (hsize : h.size base = 0) :
    (h.insertAfter up base).freeptr = some base ∧ (h.insertAfter up base).ptr base = up ∧
      (h.insertAfter up base).size up = h.size up := by
  have hupper : (h.joinUpper up base).size up = h.size up := by
    unfold joinUpper
    split
    · rw [setPtr_size, setSize_size_self, hptr, hsize, Nat.add_zero]
    · rfl
  have hsize' : (h.joinUpper up base).size base = 0 := by
    unfold joinUpper
    split
    · rw [setPtr_size, setSize_size_of_ne hne.symm, hsize]
    · exact hsize
  have hnot : (h.joinUpper up base).blockEnd base ≠ up := by
    rw [blockEnd, hsize', Nat.mul_zero, Nat.add_zero]
    exact hne.symm
  rw [insertAfter, joinLower, if_neg hnot]
  exact ⟨rfl, setPtr_ptr_self, hupper⟩

/-- The first call of `morecore` puts a block of at least 1024 units on the list. -/
theorem morecore_base {h' : Heap} (hne : page ≠ base) (hfp : h.freeptr = some base)
    (hptr : h.ptr base = base) (hsize : h.size base = 0)
    (hcore : h.morecore fuel nunits page = some h') :
    h'.freeptr = some base ∧ h'.ptr base = page ∧ 1024 ≤ h'.size page := by
  obtain ⟨f, hf, hscan⟩ := Option.bind_eq_some_iff.mp hcore
  have hf' : some base = some f := hfp.symm.trans hf
  obtain rfl := Option.some.inj hf'
  obtain ⟨r, hr, rfl⟩ := Option.map_eq_some_iff.mp hscan
  rw [Nat.add_sub_cancel] at hr ⊢
  -- The list has one node, and every other address belongs behind it.
  have hgap : InGap base ((h.setSize page (moreUnits nunits)).ptr base) page := by
    rw [setSize_ptr, hptr]
    exact .inr ⟨le_rfl, (lt_or_gt_of_ne hne).symm⟩
  obtain ⟨fuel, rfl⟩ : ∃ n, fuel = n + 1 := by
    cases fuel with
    | zero => cases hr
    | succ n => exact ⟨n, rfl⟩
  rw [(freeScan_succ fuel).1 hgap] at hr
  obtain rfl := Option.some.inj hr
  obtain ⟨h1, h2, h3⟩ := insertAfter_base (h := h.setSize page (moreUnits nunits)) hne hptr
    (by rw [setSize_size_of_ne hne.symm, hsize])
  rw [setSize_size_self] at h3
  exact ⟨h1, h2, (le_moreUnits nunits).trans_eq h3.symm⟩

/-- The first repetition is at `base`, which has no memory and is `freeptr`, so it calls `morecore`. -/
theorem bodyPage_base {s : Scan} (hn : 0 < nunits) (hfp : h.freeptr = some base)
    (hptr : h.ptr base = base) (hsize : h.size base = 0) (hne : page ≠ base)
    (hnot : ¬ (page ≤ base ∧ base < page + pageSize))
    (hbody : (Scan.behind h base []).bodyPage fuel nunits page = some s) :
    s.heap.freeptr = some base ∧ s.heap.ptr base = page ∧ 1024 ≤ s.heap.size page ∧
      s.regions.length = 1 := by
  have htake : (Scan.behind h base []).take nunits = Scan.behind h base [] :=
    take_of_small (by rw [hptr, hsize]; omega)
  have hat : (Scan.behind h base []).heap.freeptr = some (Scan.behind h base []).p :=
    hfp.trans (congrArg some hptr.symm)
  rw [Scan.bodyPage, htake, if_pos hat] at hbody
  obtain ⟨u, hmore, rfl⟩ := Option.map_eq_some_iff.mp hbody
  rw [more_of_eq (by exact hat)] at hmore
  obtain ⟨h', hcore, rfl⟩ := Option.map_eq_some_iff.mp hmore
  have hcfp : (h.cleared page).freeptr = some base := hfp
  have hcptr : (h.cleared page).ptr base = base := (if_neg hnot).trans hptr
  have hcsize : (h.cleared page).size base = 0 := (if_neg hnot).trans hsize
  obtain ⟨h1, h2, h3⟩ := morecore_base hne hcfp hcptr hcsize hcore
  exact ⟨h1, h2, h3, rfl⟩

/-- The first repetition takes a block that is four pages long from one page. -/
theorem Untouched.not_inside (hp : p.Untouched base) (hstep : step base p (.iterate fuel page) = some p')
    (hpage : base + unit ≤ page ∨ page + pageSize ≤ base) : ¬ p'.Inside := by
  obtain ⟨-, hpages, hcase⟩ := hp
  rcases hcase with ⟨hloop, -⟩ | ⟨n, h, hn, hfp, -, hloop⟩
  · rw [Process.step, hloop] at hstep
    cases hstep
  have hne : page ≠ base := by
    rintro rfl
    rw [unit, pageSize] at hpage
    omega
  have hnot : ¬ (page ≤ base ∧ base < page + pageSize) := by
    rintro ⟨h1, h2⟩
    rcases hpage with h3 | h3 <;> omega
  obtain ⟨hfp', hptr, hsize⟩ := init_of_none base hfp
  rw [Process.step, hloop, Option.bind_some, start_eq hfp'] at hstep
  obtain ⟨s, hbody, rfl⟩ := Option.map_eq_some_iff.mp hstep
  obtain ⟨h1, h2, h3, h4⟩ := bodyPage_base hn hfp' hptr hsize hne hnot hbody
  have hafter : pagesAfter p.pages page (Scan.behind (h.init base) base []) s = [page] := by
    rw [pagesAfter, if_neg (by rw [h4]; exact Nat.one_ne_zero), hpages, List.nil_append]
  have hend : page + pageSize < s.heap.blockEnd page := by
    rw [blockEnd, pageSize, unit]
    omega
  intro hinside
  obtain ⟨q, hq, -, hlt⟩ :=
    hinside page (.inl ⟨base, 1, h1, h2⟩) (page + pageSize) (Nat.le_add_right ..) hend
  -- The page is the only one so far, and it ends there.
  change q ∈ pagesAfter p.pages page (Scan.behind (h.init base) base []) s at hq
  rw [hafter, List.mem_singleton] at hq
  rw [hq] at hlt
  exact lt_irrefl _ hlt

/-! ## Whole runs -/

/-- A run without a repetition stays as it was. -/
theorem Untouched.of_run {acts : List Act} (hacts : ∀ fuel page, .iterate fuel page ∉ acts)
    (hp : p.Untouched base) (hrun : run (step base) p acts = some p') : p'.Untouched base := by
  induction acts generalizing p with
  | nil => exact Option.some.inj hrun ▸ hp
  | cons a acts ih =>
    obtain ⟨q, hq, hrun⟩ := Option.bind_eq_some_iff.mp hrun
    refine ih (fun fuel page hmem => hacts fuel page (List.mem_cons_of_mem a hmem)) ?_ hrun
    exact hp.kept hq fun fuel page heq => hacts fuel page (heq ▸ List.mem_cons_self ..)

/-- A run with a repetition has a first one. -/
theorem exists_first {acts : List Act} (hacts : ¬ ∀ fuel page, .iterate fuel page ∉ acts) :
    ∃ as fuel page bs, acts = as ++ .iterate fuel page :: bs ∧
      ∀ fuel page, .iterate fuel page ∉ as := by
  induction acts with
  | nil => exact absurd (fun _ _ => List.not_mem_nil) hacts
  | cons a acts ih =>
    cases a with
    | iterate fuel page => exact ⟨[], fuel, page, acts, rfl, fun _ _ => List.not_mem_nil⟩
    | malloc nbytes =>
      obtain ⟨as, fuel, page, bs, rfl, has⟩ := ih fun hno => hacts fun fuel page hmem =>
        hno fuel page ((List.mem_cons.mp hmem).resolve_left Act.noConfusion)
      exact ⟨_ :: as, fuel, page, bs, rfl, fun fuel page hmem =>
        has fuel page ((List.mem_cons.mp hmem).resolve_left Act.noConfusion)⟩
    | free ap n =>
      obtain ⟨as, fuel, page, bs, rfl, has⟩ := ih fun hno => hacts fun fuel page hmem =>
        hno fuel page ((List.mem_cons.mp hmem).resolve_left Act.noConfusion)
      exact ⟨_ :: as, fuel, page, bs, rfl, fun fuel page hmem =>
        has fuel page ((List.mem_cons.mp hmem).resolve_left Act.noConfusion)⟩

/-- In a run, where the pages of the kernel are not the memory of `base`, the blocks are always inside
the pages exactly if the body of the loop of `malloc` is never reached. -/
theorem inside_iff (base : ℕ) (ptr size : ℕ → ℕ) (acts : List Act) (t : Process)
    (hrun : run (step base) (start ptr size) acts = some t)
    (hpage : ∀ fuel page, .iterate fuel page ∈ acts →
      base + unit ≤ page ∨ page + pageSize ≤ base) :
    (∀ u, Visits (step base) (start ptr size) acts u → u.Inside) ↔
      ∀ fuel page, Act.iterate fuel page ∉ acts := by
  have hstart : (start ptr size).Untouched base := ⟨rfl, rfl, .inl ⟨rfl, rfl⟩⟩
  constructor
  · intro hinside
    by_contra hacts
    obtain ⟨as, fuel, page, bs, rfl, has⟩ := exists_first hacts
    rw [run_append] at hrun
    obtain ⟨p, hp, hrun⟩ := Option.bind_eq_some_iff.mp hrun
    obtain ⟨p', hp', -⟩ := Option.bind_eq_some_iff.mp hrun
    refine (hstart.of_run has hp).not_inside hp' ?_ (hinside p' ⟨as ++ [.iterate fuel page], bs, ?_, ?_⟩)
    · exact hpage fuel page (List.mem_append_right _ (List.mem_cons_self ..))
    · rw [List.append_assoc, List.singleton_append]
    · rw [run_append, hp, Option.bind_some, run_cons, hp', Option.bind_some, run_nil]
  · rintro hacts u ⟨as, bs, rfl, hu⟩
    exact (hstart.of_run (fun fuel page hmem => hacts fuel page (List.mem_append_left _ hmem)) hu).inside

/-- One call of `malloc`, which returns after two repetitions. -/
def oneCall : List Act := [.malloc 1, .iterate 1 8192, .iterate 1 8192]

/-- The pages of this call are not the memory of `base`. -/
theorem oneCall_pages (fuel page : ℕ) (hmem : .iterate fuel page ∈ oneCall) :
    4000 + unit ≤ page ∨ page + pageSize ≤ 4000 := by
  simp only [oneCall, List.mem_cons, Act.iterate.injEq, reduceCtorEq, false_or, List.not_mem_nil,
    or_false] at hmem
  rcases hmem with ⟨-, rfl⟩ | ⟨-, rfl⟩ <;> exact .inl (by decide)

theorem inside_iff_oneCall :
    (∀ u, Visits (step 4000) (start (fun _ => 0) fun _ => 0) oneCall u → u.Inside) ↔
      ∀ fuel page, Act.iterate fuel page ∉ oneCall := by
  have hrun : (run (step 4000) (start (fun _ => 0) fun _ => 0) oneCall).isSome := by decide +kernel
  obtain ⟨t, ht⟩ := Option.isSome_iff_exists.mp hrun
  exact inside_iff 4000 _ _ _ t ht oneCall_pages

/-- The block that the first call of `malloc` returns is not in the page that the kernel returned. -/
theorem returned_outside :
    ¬ ∀ (base : ℕ) (ptr size : ℕ → ℕ) (acts : List Act) (t : Process),
      run (step base) (start ptr size) acts = some t →
      (∀ fuel page, .iterate fuel page ∈ acts → base + unit ≤ page ∨ page + pageSize ≤ base) →
      ∀ u, Visits (step base) (start ptr size) acts u → u.Inside := by
  intro hall
  have hrun : (run (step 4000) (start (fun _ => 0) fun _ => 0) oneCall).map
      (fun t => (t.live, t.heap.size 24544, t.pages)) = some ([24560], 2, [8192]) := by decide +kernel
  obtain ⟨t, ht, hfields⟩ := Option.map_eq_some_iff.mp hrun
  obtain ⟨hlive, hfields⟩ := Prod.mk.inj hfields
  obtain ⟨hsize, hpages⟩ := Prod.mk.inj hfields
  have hinside := hall 4000 _ _ _ t ht oneCall_pages t (visits_of_run ht)
  obtain ⟨page, hpage, -, hlt⟩ := hinside 24544 (.inr (by rw [hlive]; exact List.mem_singleton.mpr rfl))
    24544 le_rfl (by rw [blockEnd, hsize]; decide)
  rw [hpages, List.mem_singleton] at hpage
  rw [hpage] at hlt
  exact absurd hlt (by decide)

end Process

end Nascent.Malloc
