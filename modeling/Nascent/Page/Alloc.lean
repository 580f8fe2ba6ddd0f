import Mathlib.Data.Finset.Basic
import Nascent.Lib.Runs
import Nascent.Page.Boot

/-!
# Runs of the frame allocator

The allocator as a system: its actions are the three allocation functions, `free_page`, and an
increment of a frame's `ref_count` by one of its users. `out` records the frames that are handed
out and not released since. Every run starts from the list that `create_page_list` builds.

Safety is `Sound`, an invariant of every run: the free list is a chain of frames with a count of
0, and the frames handed out have a positive count. Nothing in it depends on `free_page_end`.

The converse, that no frame is lost, holds exactly as long as no frame is released:
`add_to_free_pages` does not move `free_page_end`, so after a release the list does not end where
this pointer says, or does not reach the frame at all (`not_lossless_freePage`).
-/

namespace Nascent

open Linked (Chain)
open Runs (run Along Visits)

/-- The actions on the allocator. A frame is named by its number. -/
inductive AllocOp
  /-- `page_alloc()`. -/
  | pageAlloc
  /-- `kmalloc()`. -/
  | kmalloc
  /-- `fetch_free_page()`. -/
  | fetchFreePage
  /-- `free_page` of the kernel address of a frame in use. -/
  | freePage (f : ℕ)
  /-- `ref_count++` on a frame in use. -/
  | incRef (f : ℕ)
deriving DecidableEq

/-- The memory together with the frames that are handed out and not released since. -/
structure AllocSys where
  /-- The memory. -/
  mm : Mm
  /-- The frames handed out. -/
  out : Finset ℕ

namespace AllocSys

variable {s s' t : AllocSys} {f : ℕ} {ops : List AllocOp} {l : List ℕ}

/-- The state at boot, after `create_page_list`, over any earlier memory. -/
def boot (mm : Mm) (physfree : Word) (smaps : List Smap) (memEnd : Word) : AllocSys :=
  ⟨Mm.createPageList { mm with freePageHead := none, freePageEnd := none } physfree smaps memEnd, ∅⟩

/-- One action. An allocation needs a frame on the free list, and `free_page` and the increment a
frame in use. -/
def step (s : AllocSys) : AllocOp → Option AllocSys
  | .pageAlloc => s.mm.pageAlloc.map fun r => ⟨r.2, insert (Mm.kframe r.1) s.out⟩
  | .kmalloc => s.mm.kmalloc.map fun r => ⟨r.2, insert (frameOf r.1) s.out⟩
  | .fetchFreePage => s.mm.fetchFreePage.map fun r => ⟨r.2, insert (frameOf r.1) s.out⟩
  | .freePage f =>
    if f < s.mm.pageCount ∧ 0 < s.mm.refCount f then
      some ⟨s.mm.freePage (convertVA f), if s.mm.refCount f = 1 then s.out.erase f else s.out⟩
    else none
  | .incRef f =>
    if f < s.mm.pageCount ∧ 0 < s.mm.refCount f then
      some ⟨{ s.mm with refCount := Function.update s.mm.refCount f (s.mm.refCount f + 1) }, s.out⟩
    else none

/-- The state after the head `f` of the free list is handed out. -/
def handOut (s : AllocSys) (f : ℕ) : AllocSys :=
  ⟨s.mm.takeHead f (convertVA f), insert f s.out⟩

/-- The state after a reference to the frame `f` is released. -/
def release (s : AllocSys) (f : ℕ) : AllocSys :=
  ⟨s.mm.freePage (convertVA f), if s.mm.refCount f = 1 then s.out.erase f else s.out⟩

/-- What an action can do: hand out the head of the list, release a frame in use, or count one
more reference to a frame in use. -/
theorem step_cases {a : AllocOp} (hl : s.mm.FreeChain l) (hs : s.step a = some s') :
    (∃ f, s.mm.freePageHead = some f ∧ s' = s.handOut f) ∨
      (∃ f, a = .freePage f ∧ f < s.mm.pageCount ∧ 0 < s.mm.refCount f ∧ s' = s.release f) ∨
      (∃ f, a = .incRef f ∧ f < s.mm.pageCount ∧ 0 < s.mm.refCount f ∧
        s' = ⟨{ s.mm with refCount := Function.update s.mm.refCount f (s.mm.refCount f + 1) },
          s.out⟩) := by
  -- The frame that an allocator names is the head of the list.
  have hname : ∀ f, s.mm.freePageHead = some f →
      Mm.kframe (convertVA f) = f ∧ frameOf (getPA f) = f := by
    intro f hf
    have hlt : f < 2^52 := by
      cases l with
      | nil => rw [hl.chain.start_eq] at hf; cases hf
      | cons g l =>
        obtain rfl : g = f := Option.some.inj (hl.chain.1.symm.trans hf)
        exact hl.lt_two_pow (hl.lt g (List.mem_cons_self ..))
    exact ⟨kframe_convertVA hlt, frameOf_getPA hlt⟩
  cases hh : s.mm.freePageHead with
  | none =>
    cases a with
    | pageAlloc => simp [step, Mm.pageAlloc, hh] at hs
    | kmalloc => simp [step, Mm.kmalloc, hh] at hs
    | fetchFreePage => simp [step, Mm.fetchFreePage, hh] at hs
    | freePage f =>
      simp only [step, Option.ite_none_right_eq_some, Option.some.injEq] at hs
      exact .inr (.inl ⟨f, rfl, hs.1.1, hs.1.2, hs.2.symm⟩)
    | incRef f =>
      simp only [step, Option.ite_none_right_eq_some, Option.some.injEq] at hs
      exact .inr (.inr ⟨f, rfl, hs.1.1, hs.1.2, hs.2.symm⟩)
  | some f =>
    obtain ⟨hk, hf⟩ := hname f hh
    obtain ⟨h1, h2, h3⟩ := Mm.alloc_eq hh
    cases a with
    | pageAlloc =>
      simp only [step, h1, Option.map_some, Option.some.injEq, hk] at hs
      exact .inl ⟨f, rfl, hs.symm⟩
    | kmalloc =>
      simp only [step, h2, Option.map_some, Option.some.injEq, hf] at hs
      exact .inl ⟨f, rfl, hs.symm⟩
    | fetchFreePage =>
      simp only [step, h3, Option.map_some, Option.some.injEq, hf] at hs
      exact .inl ⟨f, rfl, hs.symm⟩
    | freePage g =>
      simp only [step, Option.ite_none_right_eq_some, Option.some.injEq] at hs
      exact .inr (.inl ⟨g, rfl, hs.1.1, hs.1.2, hs.2.symm⟩)
    | incRef g =>
      simp only [step, Option.ite_none_right_eq_some, Option.some.injEq] at hs
      exact .inr (.inr ⟨g, rfl, hs.1.1, hs.1.2, hs.2.symm⟩)

/-! ## Safety -/

/-- The free list is a chain of unused frames, and the frames handed out are in use. -/
structure Sound (s : AllocSys) : Prop where
  /-- The free list. -/
  free : ∃ l, s.mm.FreeChain l
  /-- A frame handed out has a positive count. -/
  used : ∀ f ∈ s.out, 0 < s.mm.refCount f

/-- The list at boot is sound. -/
theorem sound_boot (mm : Mm) (physfree : Word) (smaps : List Smap) (memEnd : Word) :
    (boot mm physfree smaps memEnd).Sound :=
  ⟨⟨_, Mm.freeChain_createPageList rfl rfl physfree smaps memEnd⟩, fun f hf => by simp [boot] at hf⟩

/-- The head of a sound list is a frame that is not in use. -/
theorem Sound.head (h : s.Sound) (hf : s.mm.freePageHead = some f) :
    f < 2^52 ∧ s.mm.refCount f = 0 ∧ f ∉ s.out ∧ ∃ l, s.mm.FreeChain (f :: l) := by
  obtain ⟨⟨l, hl⟩, hout⟩ := h
  cases l with
  | nil => rw [hl.chain.start_eq] at hf; cases hf
  | cons g l =>
    obtain rfl : g = f := Option.some.inj (hl.chain.1.symm.trans hf)
    have h0 := hl.unused g (List.mem_cons_self ..)
    refine ⟨hl.lt_two_pow (hl.lt g (List.mem_cons_self ..)), h0, fun hm => ?_, l, hl⟩
    have := hout g hm
    omega

/-- Handing out the head keeps the list sound. -/
theorem Sound.handOut (h : s.Sound) (hf : s.mm.freePageHead = some f) : (s.handOut f).Sound := by
  obtain ⟨hlt, h0, -, l, hl⟩ := h.head hf
  refine ⟨⟨l, hl.takeHead⟩, fun g hg => ?_⟩
  rw [AllocSys.handOut, Mm.takeHead_eq hlt]
  show 0 < Function.update s.mm.refCount f 1 g
  rcases Finset.mem_insert.mp hg with hgf | hgo
  · rw [hgf, Function.update_self]
    exact Nat.one_pos
  · have hpos := h.used g hgo
    have hgf : g ≠ f := fun hgf => by rw [hgf, h0] at hpos; omega
    rw [Function.update_of_ne hgf]
    exact hpos

/-- A release keeps the list sound. -/
theorem Sound.release (h : s.Sound) (hlt : f < s.mm.pageCount) (hpos : 0 < s.mm.refCount f) :
    (s.release f).Sound := by
  obtain ⟨⟨l, hl⟩, hout⟩ := h
  obtain ⟨l', hl', -⟩ := hl.freePage (Nat.pos_iff_ne_zero.mp hpos) hlt
  have hb := hl.lt_two_pow hlt
  refine ⟨⟨l', hl'⟩, fun g hg => ?_⟩
  show 0 < (s.mm.freePage (convertVA f)).refCount g
  by_cases hr : 1 < s.mm.refCount f
  · simp only [AllocSys.release, show s.mm.refCount f ≠ 1 by omega, if_false] at hg
    rw [Mm.freePage_of_shared hb hr]
    show 0 < Function.update s.mm.refCount f _ g
    by_cases hgf : g = f
    · rw [hgf, Function.update_self]
      omega
    · rw [Function.update_of_ne hgf]
      exact hout g hg
  · simp only [AllocSys.release, show s.mm.refCount f = 1 by omega, if_true] at hg
    rw [Mm.freePage_of_last hb (by omega)]
    show 0 < Function.update s.mm.refCount f 0 g
    obtain ⟨hgf, hg⟩ := Finset.mem_erase.mp hg
    rw [Function.update_of_ne hgf]
    exact hout g hg

/-- Every action keeps the list sound. -/
theorem Sound.step {a : AllocOp} (h : s.Sound) (hs : s.step a = some s') : s'.Sound := by
  obtain ⟨l, hl⟩ := h.free
  rcases step_cases hl hs with ⟨f, hf, rfl⟩ | ⟨f, -, hlt, hpos, rfl⟩ | ⟨f, -, -, hpos, rfl⟩
  · exact h.handOut hf
  · exact h.release hlt hpos
  · refine ⟨⟨l, hl.congr rfl rfl rfl fun g hg => ?_⟩, fun g hg => ?_⟩
    · show Function.update s.mm.refCount f _ g = 0
      rw [Function.update_of_ne (ne_of_mem_of_not_mem hg (hl.notMem (Nat.pos_iff_ne_zero.mp hpos)))]
      exact hl.unused g hg
    · show 0 < Function.update s.mm.refCount f _ g
      by_cases hgf : g = f
      · rw [hgf, Function.update_self]
        omega
      · rw [Function.update_of_ne hgf]
        exact h.used g hg

/-- Every state of a run from boot is sound. -/
theorem sound_of_visits {mm : Mm} {physfree memEnd : Word} {smaps : List Smap}
    (h : Visits step (boot mm physfree smaps memEnd) ops s) : s.Sound :=
  h.invariant' (fun _ _ _ hi hs => hi.step hs) (sound_boot mm physfree smaps memEnd)

/-- The allocator never hands out a frame in use. In every state of every run from boot, the free
list is a chain without repetition of frames with a count of 0. An allocation, by any of the three
functions, hands out its head: a frame with a count of 0 that is not handed out already, which is
cleared and has the count 1 afterwards. The three functions change the state in the same way, and
`page_alloc` names the frame by `KERNBASE` plus the physical address that the others give. -/
theorem allocation_unused (mm : Mm) (physfree : Word) (smaps : List Smap) (memEnd : Word)
    (ops : List AllocOp) (s : AllocSys)
    (h : Visits step (boot mm physfree smaps memEnd) ops s) :
    (∃ l, Chain s.mm.next s.mm.freePageHead l ∧ l.Nodup ∧ ∀ f ∈ l, s.mm.refCount f = 0) ∧
      ∀ f, s.mm.freePageHead = some f →
        s.mm.refCount f = 0 ∧ f ∉ s.out ∧
        ∃ mm', s.mm.pageAlloc = some (kernBase + getPA f, mm') ∧
          s.mm.kmalloc = some (getPA f, mm') ∧ s.mm.fetchFreePage = some (getPA f, mm') ∧
          (getPA f).toNat = 4096 * f ∧ mm'.refCount f = 1 ∧ mm'.mem f = Bytes.zero := by
  have hs := sound_of_visits h
  refine ⟨?_, fun f hf => ?_⟩
  · obtain ⟨l, hl⟩ := hs.free
    exact ⟨l, hl.chain, hl.chain.nodup, hl.unused⟩
  · obtain ⟨hlt, h0, hout, -⟩ := hs.head hf
    obtain ⟨h1, h2, h3⟩ := Mm.alloc_eq hf
    refine ⟨h0, hout, _, h1, h2, h3, ?_, ?_, ?_⟩
    · rw [toNat_getPA hlt, Nat.mul_comm]
    · rw [Mm.takeHead_eq hlt]
      exact Function.update_self ..
    · rw [Mm.takeHead_eq hlt]
      exact Function.update_self ..

/-- A small memory: eight pages of which the kernel and `pages` take two. -/
def smallBoot : AllocSys :=
  boot ⟨fun _ => Bytes.zero, fun _ => 0, fun _ => none, none, none, 0, 0⟩ 0x1000 [⟨0, 0x100000, 1⟩]
    0x8000

/-- A run that allocates, shares, and releases, and then allocates again. -/
theorem allocation_unused_run : ∃ s, Visits step smallBoot
    [.pageAlloc, .kmalloc, .incRef 2, .freePage 2, .freePage 2, .fetchFreePage] s ∧
    s.mm.freePageHead = some 5 ∧ s.mm.refCount 5 = 0 ∧ 5 ∉ s.out := by
  have hrun : ((run step smallBoot [.pageAlloc, .kmalloc, .incRef 2, .freePage 2, .freePage 2,
      .fetchFreePage]).map fun s => s.mm.freePageHead) = some (some 5) := by decide +kernel
  obtain ⟨s, hs, hhead⟩ := Option.map_eq_some_iff.mp hrun
  have hv := Runs.visits_of_run hs
  obtain ⟨h0, hout, -⟩ := (allocation_unused _ _ _ _ _ s hv).2 5 hhead
  exact ⟨s, hv, hhead, h0, hout⟩

/-! ## Lost frames -/

/-- The frame is reachable from `free_page_head`. -/
def OnFreeList (s : AllocSys) (f : ℕ) : Prop :=
  ∃ l, Chain s.mm.next s.mm.freePageHead l ∧ f ∈ l

/-- In the state `t` of a run, no frame is lost: every frame with a count of 0 that was on the free
list at some point of the run is on it, and `free_page_end` is the last frame of the list. -/
def Lossless (s : AllocSys) (ops : List AllocOp) (t : AllocSys) : Prop :=
  (∀ f u, Visits step s ops u → u.OnFreeList f → t.mm.refCount f = 0 → t.OnFreeList f) ∧
    ∀ l, Chain t.mm.next t.mm.freePageHead l → l ≠ [] → t.mm.freePageEnd = l.getLast?

/-- The actions of a run that only releases frames handed out, with a count of 1, and makes no
other references. -/
def Plain (s : AllocSys) : AllocOp → Prop
  | .freePage f => f ∈ s.out ∧ s.mm.refCount f = 1
  | .incRef _ => False
  | _ => True

instance (s : AllocSys) : ∀ a, Decidable (s.Plain a)
  | .freePage f => inferInstanceAs (Decidable (f ∈ s.out ∧ s.mm.refCount f = 1))
  | .incRef _ => inferInstanceAs (Decidable False)
  | .pageAlloc => inferInstanceAs (Decidable True)
  | .kmalloc => inferInstanceAs (Decidable True)
  | .fetchFreePage => inferInstanceAs (Decidable True)

/-- In a plain run, the frames on the free list and the frames handed out are frames of the first
free list `l₀`. -/
structure Within (l₀ : List ℕ) (s : AllocSys) : Prop where
  /-- The state is sound. -/
  sound : s.Sound
  /-- The frames of the list. -/
  free : ∀ f, s.OnFreeList f → f ∈ l₀
  /-- The frames handed out. -/
  out : ∀ f ∈ s.out, f ∈ l₀

/-- A plain action keeps to the frames of the first list. -/
theorem Within.step {l₀ : List ℕ} {a : AllocOp} (h : Within l₀ s) (hp : s.Plain a)
    (hs : s.step a = some s') : Within l₀ s' := by
  have hsound := h.sound.step hs
  obtain ⟨l, hl⟩ := h.sound.free
  have hfree : ∀ g ∈ l, g ∈ l₀ := fun g hg => h.free g ⟨l, hl.chain, hg⟩
  rcases step_cases hl hs with ⟨f, hf, rfl⟩ | ⟨f, rfl, hlt, hpos, rfl⟩ | ⟨f, rfl, -, -, -⟩
  · obtain ⟨-, -, -, l', hl'⟩ := h.sound.head hf
    obtain rfl := hl.chain.unique hl'.chain
    refine ⟨hsound, fun g hg => ?_, fun g hg => ?_⟩
    · obtain ⟨l'', hc, hg⟩ := hg
      obtain rfl := hc.unique hl'.takeHead.chain
      exact hfree g (List.mem_cons_of_mem _ hg)
    · rcases Finset.mem_insert.mp hg with rfl | hg
      · exact hfree g (List.mem_cons_self ..)
      · exact h.out g hg
  · obtain ⟨l', hl', hsub⟩ := hl.freePage (Nat.pos_iff_ne_zero.mp hpos) hlt
    have hf₀ : f ∈ l₀ := h.out f hp.1
    refine ⟨hsound, fun g hg => ?_, fun g hg => ?_⟩
    · obtain ⟨l'', hc, hg⟩ := hg
      obtain rfl := hc.unique hl'.chain
      rcases hsub g hg with hg | ⟨rfl, -⟩
      · exact hfree g hg
      · exact hf₀
    · refine h.out g ?_
      simp only [AllocSys.release] at hg
      split_ifs at hg with h1
      · exact Finset.mem_of_mem_erase hg
      · exact hg
  · exact hp.elim

/-- The first list is a plain run's own. -/
theorem within_boot (mm : Mm) (physfree : Word) (smaps : List Smap) (memEnd : Word) :
    ∃ l₀, Within l₀ (boot mm physfree smaps memEnd) ∧
      Chain (boot mm physfree smaps memEnd).mm.next
        (boot mm physfree smaps memEnd).mm.freePageHead l₀ ∧
      (boot mm physfree smaps memEnd).mm.freePageEnd = l₀.getLast? := by
  have hl := Mm.freeChain_createPageList (s := { mm with freePageHead := none, freePageEnd := none })
    rfl rfl physfree smaps memEnd
  have hm := (Mm.createPageList_spec (s := { mm with freePageHead := none, freePageEnd := none })
    rfl rfl physfree smaps memEnd).1
  refine ⟨_, ⟨sound_boot mm physfree smaps memEnd, fun f hf => ?_, fun f hf => ?_⟩, hl.chain, hm.last⟩
  · obtain ⟨l, hc, hf⟩ := hf
    exact hc.unique hl.chain ▸ hf
  · simp [boot] at hf

/-- After the release of a frame's last reference, the frame is off the list, or is the last frame
of a list that `free_page_end` does not end. -/
theorem not_lossless_release {ops : List AllocOp} {s₀ : AllocSys} (h : s.Sound)
    (hlt : f < s.mm.pageCount) (hr : s.mm.refCount f = 1) (hon : ∃ u, Visits step s₀ ops u ∧
      u.OnFreeList f) : ¬ Lossless s₀ ops (s.release f) := by
  rintro ⟨hlost, hend⟩
  obtain ⟨l, hl⟩ := h.free
  obtain ⟨u, hu, hon⟩ := hon
  have hb := hl.lt_two_pow hlt
  have hfl : f ∉ l := hl.notMem (by omega)
  -- The state after the release.
  have hrel : (s.release f).mm = Mm.addToFreePages { s.mm with
      refCount := Function.update s.mm.refCount f 0
      mem := Function.update s.mm.mem f Bytes.zero } f := by
    rw [AllocSys.release, Mm.freePage_of_last hb (by omega)]
  have h0 : (s.release f).mm.refCount f = 0 := by
    rw [hrel]
    exact Function.update_self ..
  -- The frame is on the list, by the first half, so it is its last frame.
  obtain ⟨l', hc', hfl'⟩ := hlost f u hu hon h0
  have hcases := Mm.chain_addToFreePages (s := { s.mm with
      refCount := Function.update s.mm.refCount f 0
      mem := Function.update s.mm.mem f Bytes.zero }) (f := f) hl.chain hfl
  rw [← hrel] at hcases
  have hhead : (s.release f).mm.freePageHead = s.mm.freePageHead := by
    rw [hrel]
    rfl
  have hendf : (s.release f).mm.freePageEnd = s.mm.freePageEnd := by
    rw [hrel]
    rfl
  rcases hcases with ⟨l₁, l₂, e, rfl, he, hc⟩ | ⟨-, hc⟩
  · -- The list ends in the frame, and `free_page_end` names the frame before it.
    have hlast := hend _ (hhead ▸ hc) (by simp)
    have he' : (s.release f).mm.freePageEnd = some e := hendf.trans he
    rw [he'] at hlast
    have hef : e = f := by simpa using hlast
    exact hfl (by simp [hef])
  · -- The list has not changed, and the frame is not on it.
    exact hfl ((hc'.unique (hhead ▸ hc)) ▸ hfl')

/-- The frames that a run without releases has taken off the first list `l₀`, and the rest. -/
structure Drained (l₀ : List ℕ) (s : AllocSys) : Prop where
  /-- The state is sound. -/
  sound : s.Sound
  /-- The free list is what is left of the first list; the frames before it are in use. -/
  rest : ∃ taken l, l₀ = taken ++ l ∧ Chain s.mm.next s.mm.freePageHead l ∧
    ∀ f ∈ taken, 0 < s.mm.refCount f
  /-- `free_page_end` is the last frame of the first list. -/
  last : s.mm.freePageEnd = l₀.getLast?

/-- An allocation takes one more frame off the list. -/
theorem Drained.handOut {l₀ : List ℕ} (h : Drained l₀ s) (hf : s.mm.freePageHead = some f) :
    Drained l₀ (s.handOut f) := by
  obtain ⟨hlt, h0, -, l', hl'⟩ := h.sound.head hf
  obtain ⟨taken, l, rfl, hc, htaken⟩ := h.rest
  obtain rfl := hc.unique hl'.chain
  have hmm : (s.handOut f).mm = { s.mm with
      refCount := Function.update s.mm.refCount f 1
      freePageHead := s.mm.next f
      mem := Function.update s.mm.mem f Bytes.zero } := Mm.takeHead_eq hlt
  refine ⟨h.sound.handOut hf, ⟨taken ++ [f], l', by simp, hl'.takeHead.chain, fun g hg => ?_⟩, ?_⟩
  · rw [hmm]
    show 0 < Function.update s.mm.refCount f 1 g
    by_cases hgf : g = f
    · rw [hgf, Function.update_self]
      exact Nat.one_pos
    · rw [Function.update_of_ne hgf]
      exact htaken g (by simpa [hgf] using hg)
  · rw [hmm]
    exact h.last

/-- A drained list has lost nothing. -/
theorem Drained.lossless {l₀ : List ℕ} {s₀ : AllocSys} (h : Drained l₀ t)
    (hon : ∀ f u, Visits AllocSys.step s₀ ops u → u.OnFreeList f → f ∈ l₀) :
    Lossless s₀ ops t := by
  obtain ⟨taken, l, rfl, hc, htaken⟩ := h.rest
  refine ⟨fun f u hu hf h0 => ⟨l, hc, ?_⟩, fun l' hc' hne => ?_⟩
  · rcases List.mem_append.mp (hon f u hu hf) with hf | hf
    · have := htaken f hf
      omega
    · exact hf
  · obtain rfl := hc'.unique hc
    rw [h.last, List.getLast?_append_of_ne_nil _ hne]

/-- A plain run from boot loses no frame, at any point, if and only if it releases none. -/
theorem lossless_iff_no_release (mm : Mm) (physfree : Word) (smaps : List Smap) (memEnd : Word)
    (ops : List AllocOp) (s : AllocSys) (hrun : run step (boot mm physfree smaps memEnd) ops = some s)
    (hplain : Along step Plain (boot mm physfree smaps memEnd) ops) :
    (∀ t, Visits step (boot mm physfree smaps memEnd) ops t →
      Lossless (boot mm physfree smaps memEnd) ops t) ↔ ∀ f, AllocOp.freePage f ∉ ops := by
  obtain ⟨l₀, hwithin, hchain, hlast⟩ := within_boot mm physfree smaps memEnd
  generalize boot mm physfree smaps memEnd = s₀ at *
  have hinv : ∀ u, Visits step s₀ ops u → Within l₀ u := fun u hu =>
    hu.invariant hplain (fun _ _ _ hi hp hs => hi.step hp hs) hwithin
  constructor
  · -- The state right after a release is not lossless.
    intro hall f hf
    obtain ⟨bs, cs, rfl⟩ := List.append_of_mem hf
    obtain ⟨u, hu, hrest⟩ := Option.bind_eq_some_iff.mp (Runs.run_append ▸ hrun)
    obtain ⟨u', hstep, -⟩ := Option.bind_eq_some_iff.mp hrest
    have hvu : Visits step s₀ (bs ++ .freePage f :: cs) u := ⟨bs, _, rfl, hu⟩
    obtain ⟨hout, h1⟩ : u.Plain (.freePage f) := hplain.at hu
    have hwu := hinv u hvu
    obtain ⟨l, hl⟩ := hwu.sound.free
    have hvu' : Visits step s₀ (bs ++ .freePage f :: cs) u' :=
      ⟨bs ++ [.freePage f], cs, by simp, by rw [Runs.run_append, hu]; simp [hstep]⟩
    have hloss := hall u' hvu'
    simp only [step, Option.ite_none_right_eq_some, Option.some.injEq] at hstep
    obtain ⟨⟨hlt, -⟩, rfl⟩ := hstep
    exact not_lossless_release hwu.sound hlt h1
      ⟨s₀, Runs.visits_start, l₀, hchain, hwu.out f hout⟩ hloss
  · -- Without releases the list is only drained.
    intro hno t ht
    have hdrain : Drained l₀ t := by
      refine ht.invariant (hplain.and_forall fun a ha => fun f (haf : a = .freePage f) =>
        hno f (haf ▸ ha)) ?_ ⟨hwithin.sound, ⟨[], l₀, rfl, hchain, by simp⟩, hlast⟩
      rintro u a u' hd ⟨hp, hne⟩ hs
      obtain ⟨l, hl⟩ := hd.sound.free
      rcases step_cases hl hs with ⟨f, hf, rfl⟩ | ⟨f, haf, -⟩ | ⟨f, rfl, -⟩
      · exact hd.handOut hf
      · exact (hne f haf).elim
      · exact hp.elim
    exact hdrain.lossless fun f u hu hf => (hinv u hu).free f hf

/-- A run with one release, which the theorem refutes. -/
theorem lossless_iff_no_release_run :
    ¬ ∀ t, Visits step smallBoot [.pageAlloc, .freePage 2] t →
      Lossless smallBoot [.pageAlloc, .freePage 2] t := by
  have hrun : (run step smallBoot [.pageAlloc, .freePage 2]).isSome := by decide +kernel
  obtain ⟨s, hs⟩ := Option.isSome_iff_exists.mp hrun
  intro hall
  exact (lossless_iff_no_release _ _ _ _ _ s hs (by decide +kernel)).mp hall 2 (by simp)

/-- Two frames are allocated and released in turn: the release of frame 3 takes the place of the
release of frame 2 behind `free_page_end`, so frame 2 has a count of 0 and is on no list. -/
theorem release_loses_frame :
    ¬ ∀ (mm : Mm) (physfree : Word) (smaps : List Smap) (memEnd : Word) (ops : List AllocOp),
      Along step Plain (boot mm physfree smaps memEnd) ops →
      ∀ t, Visits step (boot mm physfree smaps memEnd) ops t →
        Lossless (boot mm physfree smaps memEnd) ops t := by
  intro hall
  have hrun : ((run step smallBoot [.pageAlloc, .kmalloc, .freePage 2, .freePage 3]).map fun s =>
      (s.mm.refCount 2, decide (Chain s.mm.next s.mm.freePageHead [4, 5, 6, 7, 3]))) =
      some (0, true) := by decide +kernel
  obtain ⟨t, ht, hval⟩ := Option.map_eq_some_iff.mp hrun
  simp only [Prod.mk.injEq, decide_eq_true_eq] at hval
  have hplain : Along step Plain smallBoot [.pageAlloc, .kmalloc, .freePage 2, .freePage 3] := by
    decide +kernel
  have hstart : Chain smallBoot.mm.next smallBoot.mm.freePageHead [2, 3, 4, 5, 6, 7] := by
    decide +kernel
  obtain ⟨l, hc, h2⟩ := (hall _ _ _ _ _ hplain t (Runs.visits_of_run ht)).1 2 smallBoot
    Runs.visits_start ⟨_, hstart, by simp⟩ hval.1
  obtain rfl := hc.unique hval.2
  simp at h2

end AllocSys

end Nascent
