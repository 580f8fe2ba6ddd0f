import Nascent.Malloc.Search

/-!
# The heap of a program

A program starts with no list and calls `malloc` and `free`, the latter with pointers that it has got
from `malloc` and not given back. Where `sbrk` returns memory that is new and does not end at the
address of `base`, every state of every run has a sound heap (`Sys.heap_sound`): the list is circular
and in increasing order with one wrap, `base` is on it, no two of its blocks touch, the free and the
live blocks are cut from exactly the memory obtained, and each live block has the bytes that were asked
for. Both functions end in every such state.

Memory that ends at the address of `base` is joined to it by `free`, and `base` is off the list from
then on (`Sys.base_dropped`).
-/

namespace Nascent.Malloc

open Heap Runs

variable {base n m k fuel fuel' nbytes : ℕ} {h : Heap} {sbrk : ℕ → ℕ}

/-! ## More steps -/

theorem more_mono {s r : Scan} (hle : fuel ≤ fuel') (hr : s.more fuel n sbrk = some r) :
    s.more fuel' n sbrk = some r := by
  by_cases hf : s.heap.freeptr = some s.p
  · rw [more_of_eq hf] at hr ⊢
    obtain ⟨h', hcore, hr⟩ := Option.map_eq_some_iff.mp hr
    have hcore' : s.heap.morecore fuel' n (sbrk s.regions.length) = some h' := free_mono hle hcore
    rw [hcore', Option.map_some, hr]
  · rw [more_of_ne hf] at hr ⊢
    exact hr

theorem body_mono {s r : Scan} (hle : fuel ≤ fuel') (hr : s.body fuel n sbrk = some r) :
    s.body fuel' n sbrk = some r := by
  obtain ⟨t, hmore, hr⟩ := Option.map_eq_some_iff.mp hr
  rw [Scan.body, more_mono hle hmore, Option.map_some, hr]

/-- More steps and repetitions do not change what the loop of `malloc` does. -/
theorem loop_mono (hle : fuel ≤ fuel') {r : Scan} : ∀ {k k' : ℕ} {s : Scan}, k ≤ k' →
    s.loop fuel n sbrk k = some r → s.loop fuel' n sbrk k' = some r := by
  intro k
  induction k with
  | zero =>
    intro k' s _ hr
    by_cases hs : s.isAllocating = true
    · rw [Scan.loop, if_pos hs] at hr
      cases hr
    · rw [loop_of_done (Bool.eq_false_iff.mpr hs)] at hr ⊢
      exact hr
  | succ k ih =>
    intro k' s hk hr
    by_cases hs : s.isAllocating = true
    · obtain ⟨k', rfl⟩ := Nat.exists_eq_succ_of_ne_zero (by omega : k' ≠ 0)
      rw [Scan.loop, if_pos hs] at hr ⊢
      obtain ⟨t, hbody, hr⟩ := Option.bind_eq_some_iff.mp hr
      rw [body_mono hle hbody, Option.bind_some]
      exact ih (by omega) hr
    · rw [loop_of_done (Bool.eq_false_iff.mpr hs)] at hr ⊢
      exact hr

/-- What `malloc` does does not depend on the number of steps it is given. -/
theorem malloc_mono {r : Scan} (hle : fuel ≤ fuel') (hr : malloc base fuel nbytes sbrk h = some r) :
    malloc base fuel' nbytes sbrk h = some r := loop_mono hle hle hr

/-! ## Sizes -/

theorem unitsOf_of_lt (hn : nbytes < 2 ^ 30) : unitsOf nbytes = (nbytes + 15) / 16 + 1 := by
  rw [unitsOf, unit, Nat.mod_eq_of_lt (by omega)]
  rfl

theorem moreUnits_of_lt (hn : n < 2 ^ 31) : moreUnits n = max 1024 n := by
  have hnat : (BitVec.ofNat 32 n).toNat = n := by
    rw [BitVec.toNat_ofNat, Nat.mod_eq_of_lt (by omega)]
  have hint : (BitVec.ofNat 32 n).toInt = n := by
    rw [BitVec.toInt_eq_toNat_of_lt (by omega), hnat]
  rw [moreUnits, hint, hnat]
  split <;> omega

/-- For a request below `2 ^ 30` the arithmetic of `malloc` and `morecore` does not overflow. -/
theorem units_of_lt (hn : nbytes < 2 ^ 30) :
    0 < unitsOf nbytes ∧ unit + nbytes ≤ unit * unitsOf nbytes ∧
      unitsOf nbytes ≤ moreUnits (unitsOf nbytes) ∧
      moreBytes (unitsOf nbytes) = unit * moreUnits (unitsOf nbytes) := by
  have hunits := unitsOf_of_lt hn
  have hmore : moreUnits (unitsOf nbytes) = max 1024 (unitsOf nbytes) := moreUnits_of_lt (by omega)
  refine ⟨by omega, ?_, by omega, ?_⟩
  · rw [unit]
    omega
  · rw [moreBytes, Nat.mod_eq_of_lt]
    rw [unit]
    omega

/-! ## The states of a program -/

namespace Sys

variable {s s' : Sys} {free live : Finset ℕ} {c : Call}

/-- `sbrk` returns contiguous memory that is new: none of it was obtained before, and the header `base`
is not in it. The request is below `2 ^ 30`. -/
def Fresh (base : ℕ) (s : Sys) : Call → Prop
  | .malloc nbytes sbrk _ => nbytes < 2 ^ 30 ∧
    (∀ x, sbrk 0 ≤ x → x < sbrk 0 + moreBytes (unitsOf nbytes) → ¬ Obtained s.regions x) ∧
    (base + unit ≤ sbrk 0 ∨ sbrk 0 + moreBytes (unitsOf nbytes) ≤ base)
  | .free _ _ => True

/-- The memory that `sbrk` returns does not end at the address of `base`. -/
def OffBase (base : ℕ) : Call → Prop
  | .malloc nbytes sbrk _ => sbrk 0 + moreBytes (unitsOf nbytes) ≠ base
  | .free _ _ => True

/-- A program with the free blocks `free` and the live blocks `live`. -/
structure Kept (base : ℕ) (s : Sys) (free live : Finset ℕ) : Prop where
  /-- The heap is sound, and its memory is what was obtained. -/
  sound : Sound base s.heap free live (Obtained s.regions)
  /-- The free blocks are those that are reached from `freeptr`. -/
  reached : ∃ f, s.heap.freeptr = some f ∧ ∀ x, x ∈ free ↔ ∃ k, s.heap.ptr^[k] f = x
  /-- The live blocks are those that the program has pointers to. -/
  live_iff : ∀ b, b ∈ live ↔ ∃ n, s.live (b + unit) = some n
  /-- Each has, behind its header, the bytes that were asked for. -/
  usable : ∀ ap n, s.live ap = some n → unit ≤ ap ∧ ap + n ≤ s.heap.blockEnd (ap - unit)

/-- What holds in every state: the program has not called `malloc` yet, or its heap is kept. -/
def InOrder (base : ℕ) (s : Sys) : Prop :=
  (s.heap.freeptr = none ∧ (∀ ap, s.live ap = none) ∧ s.regions = []) ∨
    ∃ free live, s.Kept base free live

/-- A sound heap whose list is that of `freeptr`. -/
theorem Kept.of_sound (hs : Sound base s.heap free live (Obtained s.regions))
    (hlive : ∀ b, b ∈ live ↔ ∃ n, s.live (b + unit) = some n)
    (husable : ∀ ap n, s.live ap = some n → unit ≤ ap ∧ ap + n ≤ s.heap.blockEnd (ap - unit)) :
    s.Kept base free live := by
  obtain ⟨f, hf, hfp⟩ := hs.freeptr_mem
  refine ⟨hs, ⟨f, hfp, fun x => ⟨fun hx => hs.ring.reach hf hx, ?_⟩⟩, hlive, husable⟩
  rintro ⟨k, rfl⟩
  exact hs.ring.iterate_mem hf k

/-- The list of `base` alone is a sound heap without memory. -/
theorem sound_init (hnone : h.freeptr = none) : Sound base (h.init base) {base} ∅ (Obtained []) := by
  obtain ⟨hfp, hptr, hsize⟩ := init_of_none base hnone
  have hmem : ∀ b, b ∈ ({base} : Finset ℕ) ∪ ∅ ↔ b = base := fun b => by
    rw [Finset.union_empty, Finset.mem_singleton]
  have hend : (h.init base).blockEnd base = base := by
    rw [blockEnd, hsize, Nat.mul_zero, Nat.add_zero]
  refine ⟨⟨Ring.singleton base hptr, Finset.mem_singleton_self base, hsize, Finset.disjoint_empty_right _,
    fun b hb hne => absurd ((hmem b).mp hb) hne, fun b hb c hc hne => ?_, fun x => ?_⟩,
    ⟨base, Finset.mem_singleton_self base, hfp⟩, fun b hb c hc hne => ?_, fun x _ => ?_⟩
  · exact absurd (((hmem b).mp hb).trans ((hmem c).mp hc).symm) hne
  · constructor
    · rintro ⟨r, hr, -⟩
      exact absurd hr List.not_mem_nil
    · rintro ⟨b, hb, hle, hlt⟩
      rw [(hmem b).mp hb] at hle hlt
      omega
  · exact absurd ((Finset.mem_singleton.mp hb).trans (Finset.mem_singleton.mp hc).symm) hne
  · rintro ⟨r, hr, -⟩
    exact absurd hr List.not_mem_nil

/-- After the first lines of `malloc` the heap is kept. -/
theorem InOrder.kept_init (hs : s.InOrder base) :
    ∃ free live, Kept base { s with heap := s.heap.init base } free live := by
  rcases hs with ⟨hnone, hlive, hreg⟩ | ⟨free, live, hkept⟩
  · refine ⟨{base}, ∅, Kept.of_sound ?_ (fun b => ?_) fun ap n hap => ?_⟩
    · rw [hreg]
      exact sound_init hnone
    · simp only [Finset.notMem_empty, hlive, reduceCtorEq, exists_false]
    · rw [hlive] at hap
      cases hap
  · obtain ⟨f, hfp, -⟩ := hkept.reached
    have hinit : s.heap.init base = s.heap := by rw [Heap.init, hfp]
    rw [hinit]
    exact ⟨free, live, hkept⟩

theorem obtained_append {as bs : List (ℕ × ℕ)} :
    Obtained (as ++ bs) = fun x => Obtained as x ∨ Obtained bs x := by
  funext x
  simp only [Obtained, List.mem_append, or_and_right, exists_or]

/-! ## One call -/

/-- The block that the loop of `malloc` has found is live afterwards, with the bytes that were asked for. -/
theorem Kept.of_found {r : Scan} (hkept : Kept base { s with heap := s.heap.init base } free live)
    (hbytes : unit + nbytes ≤ unit * n)
    (hfound : Found base n (s.heap.init base) live (fun x => Obtained s.regions x ∨ Obtained r.regions x) r) :
    InOrder base ⟨r.heap, Function.update s.live r.result (some nbytes), s.regions ++ r.regions⟩ := by
  obtain ⟨q, free', hresult, hq, hsize, hsound⟩ := hfound.sound
  refine .inr ⟨free', insert q live, Kept.of_sound ?_ (fun b => ?_) fun ap n hap => ?_⟩
  · rw [obtained_append]
    exact hsound
  · rw [Finset.mem_insert, hkept.live_iff, hresult]
    by_cases hbq : b = q
    · simp only [hbq, Function.update_self, true_or, Option.some.injEq, exists_eq']
    · have hne : b + unit ≠ q + unit := fun heq => hbq (Nat.add_right_cancel heq)
      simp only [hbq, false_or, Function.update_of_ne hne]
  · change Function.update s.live r.result (some nbytes) ap = some n at hap
    rw [hresult] at hap
    change unit ≤ ap ∧ ap + n ≤ r.heap.blockEnd (ap - unit)
    by_cases hapq : ap = q + unit
    · rw [hapq, Function.update_self] at hap
      obtain rfl := Option.some.inj hap
      rw [hapq, Nat.add_sub_cancel, blockEnd, hsize]
      exact ⟨Nat.le_add_left .., by omega⟩
    · rw [Function.update_of_ne hapq] at hap
      obtain ⟨hle, hend⟩ := hkept.usable ap n hap
      have hlive : ap - unit ∈ live := (hkept.live_iff _).mpr ⟨n, by rwa [Nat.sub_add_cancel hle]⟩
      rw [blockEnd_congr (hfound.size _ hlive)]
      exact ⟨hle, hend⟩

/-- `malloc` ends and keeps the heap. -/
theorem InOrder.of_malloc (hs : s.InOrder base) (hfresh : Fresh base s (.malloc nbytes sbrk fuel))
    (hoff : OffBase base (.malloc nbytes sbrk fuel)) :
    ∃ s' N, s'.InOrder base ∧
      ∀ fuel, N ≤ fuel → step base s (.malloc nbytes sbrk fuel) = some s' := by
  obtain ⟨hn, hnew, hbase⟩ := hfresh
  obtain ⟨hpos, hbytes, hmore, hmul⟩ := units_of_lt hn
  obtain ⟨free, live, hkept⟩ := hs.kept_init
  obtain ⟨f, hf, hfp⟩ := hkept.sound.freeptr_mem
  have hbase' : base < sbrk 0 ∨ sbrk 0 + unit * moreUnits (unitsOf nbytes) < base := by
    rw [OffBase, hmul] at hoff
    rw [hmul] at hbase
    have hunit : 0 < unit := by decide
    omega
  obtain ⟨r, N, hfound, hloop⟩ := hkept.sound.of_loop hpos hmore hmul hf hfp
    (fun x hle hlt => hnew x hle (hmul ▸ hlt)) hbase'
  refine ⟨_, N, hkept.of_found hbytes hfound, fun fuel hle => ?_⟩
  have hmalloc : malloc base fuel nbytes sbrk s.heap = some r := by
    rw [malloc, start_eq hfp]
    exact hloop fuel hle
  rw [step, hmalloc, Option.map_some]

/-- `free` of a live pointer ends and keeps the heap. -/
theorem InOrder.of_free {ap : ℕ} (hs : s.InOrder base) (hap : (s.live ap).isSome) :
    ∃ s' N, s'.InOrder base ∧ ∀ fuel, N ≤ fuel → step base s (.free ap fuel) = some s' := by
  obtain ⟨n, hn⟩ := Option.isSome_iff_exists.mp hap
  rcases hs with ⟨-, hlive, -⟩ | ⟨free, live, hkept⟩
  · rw [hlive] at hn
    cases hn
  obtain ⟨hle, -⟩ := hkept.usable ap n hn
  obtain ⟨bp, rfl⟩ := Nat.exists_eq_add_of_le' hle
  have hbp : bp ∈ live := (hkept.live_iff bp).mpr ⟨n, hn⟩
  obtain ⟨h', free', N, hfree, hsound, hsize, -⟩ := hkept.sound.of_free hbp
  refine ⟨{ s with heap := h', live := Function.update s.live (bp + unit) none }, N,
    .inr ⟨free', live.erase bp, Kept.of_sound hsound (fun b => ?_) fun ap n hap' => ?_⟩,
    fun fuel hle => ?_⟩
  · rw [Finset.mem_erase, hkept.live_iff]
    by_cases hb : b = bp
    · simp only [hb, ne_eq, not_true_eq_false, false_and, Function.update_self, reduceCtorEq,
        exists_false]
    · have hne : b + unit ≠ bp + unit := fun heq => hb (Nat.add_right_cancel heq)
      simp only [hb, ne_eq, not_false_eq_true, true_and, Function.update_of_ne hne]
  · have hne : ap ≠ bp + unit := by
      rintro rfl
      simp only [Function.update_self, reduceCtorEq] at hap'
    simp only [Function.update_of_ne hne] at hap'
    obtain ⟨hle, hend⟩ := hkept.usable ap n hap'
    have hmem : ap - unit ∈ live.erase bp := by
      refine Finset.mem_erase.mpr ⟨fun heq => hne (by omega), ?_⟩
      exact (hkept.live_iff _).mpr ⟨n, by rwa [Nat.sub_add_cancel hle]⟩
    exact ⟨hle, by rwa [blockEnd_congr (hsize _ hmem)]⟩
  · rw [step, if_pos hap, hfree fuel hle, Option.map_some]

/-- Every call that returns keeps the heap. -/
theorem InOrder.step (hs : s.InOrder base) (hfresh : Fresh base s c) (hoff : OffBase base c)
    (hstep : step base s c = some s') : s'.InOrder base := by
  cases c with
  | malloc nbytes sbrk fuel =>
    obtain ⟨t, N, ht, hN⟩ := hs.of_malloc hfresh hoff
    obtain ⟨r, hr, rfl⟩ := Option.map_eq_some_iff.mp hstep
    have hmax := hN (max N fuel) (le_max_left ..)
    rw [Sys.step, malloc_mono (le_max_right ..) hr, Option.map_some] at hmax
    exact Option.some.inj hmax ▸ ht
  | free ap fuel =>
    rw [Sys.step] at hstep
    split at hstep
    · rename_i hap
      obtain ⟨t, N, ht, hN⟩ := hs.of_free hap
      obtain ⟨h', hr, rfl⟩ := Option.map_eq_some_iff.mp hstep
      have hmax := hN (max N fuel) (le_max_left ..)
      rw [Sys.step, if_pos hap, free_mono (le_max_right ..) hr, Option.map_some] at hmax
      exact Option.some.inj hmax ▸ ht
    · cases hstep

/-! ## Whole runs -/

/-- `malloc` and `free` return, given enough steps. -/
def Returns (base : ℕ) (s : Sys) : Prop :=
  (∀ nbytes sbrk, Fresh base s (.malloc nbytes sbrk 0) → OffBase base (.malloc nbytes sbrk 0) →
    ∃ N, ∀ fuel, N ≤ fuel → (Sys.step base s (.malloc nbytes sbrk fuel)).isSome) ∧
  ∀ ap, (s.live ap).isSome → ∃ N, ∀ fuel, N ≤ fuel → (Sys.step base s (.free ap fuel)).isSome

/-- Both functions return in a state whose heap is in order. -/
theorem InOrder.returns (hs : s.InOrder base) : s.Returns base := by
  refine ⟨fun nbytes sbrk hfresh hoff => ?_, fun ap hap => ?_⟩
  · obtain ⟨s', N, -, hN⟩ := hs.of_malloc hfresh hoff
    exact ⟨N, fun fuel hle => by rw [hN fuel hle, Option.isSome_some]⟩
  · obtain ⟨s', N, -, hN⟩ := hs.of_free hap
    exact ⟨N, fun fuel hle => by rw [hN fuel hle, Option.isSome_some]⟩

/-- In every run in which `sbrk` returns new memory that does not end at the address of `base`, every
state has a sound heap, and `malloc` and `free` return in it. -/
theorem heap_sound (base : ℕ) (ptr size : ℕ → ℕ) (calls : List Call) (t : Sys)
    (hcond : Along (Sys.step base) (fun s c => Fresh base s c ∧ OffBase base c) (start ptr size) calls)
    (hvisit : Visits (Sys.step base) (start ptr size) calls t) : t.InOrder base ∧ t.Returns base := by
  have horder : t.InOrder base := by
    refine hvisit.invariant hcond (fun s c s' hs hc hstep => hs.step hc.1 hc.2 hstep) (.inl ?_)
    exact ⟨rfl, fun _ => rfl, rfl⟩
  exact ⟨horder, horder.returns⟩

/-- A program that asks for 100 bytes and gives them back. -/
theorem heap_sound_pair :
    ∃ t, Visits (Sys.step 1000) (start (fun _ => 0) fun _ => 0)
        [.malloc 100 (fun _ => 4096) 4, .free 20368 4] t ∧ t.regions = [(4096, 16384)] ∧
      t.InOrder 1000 ∧ t.Returns 1000 := by
  have hrun : ((run (Sys.step 1000) (start (fun _ => 0) fun _ => 0)
      [.malloc 100 (fun _ => 4096) 4, .free 20368 4]).map Sys.regions) = some [(4096, 16384)] := by
    decide +kernel
  obtain ⟨t, ht, hreg⟩ := Option.map_eq_some_iff.mp hrun
  have hcond : Along (Sys.step 1000) (fun s c => Fresh 1000 s c ∧ OffBase 1000 c)
      (start (fun _ => 0) fun _ => 0) [.malloc 100 (fun _ => 4096) 4, .free 20368 4] := by
    refine ⟨⟨⟨by decide, ?_, .inl (by decide)⟩, ?_⟩, fun s' _ => ⟨⟨trivial, trivial⟩, fun _ _ => trivial⟩⟩
    · rintro x - - ⟨r, hr, -⟩
      cases hr
    · change 4096 + moreBytes (unitsOf 100) ≠ 1000
      decide
  have hvisit := visits_of_run ht
  exact ⟨t, hvisit, hreg, heap_sound 1000 _ _ _ t hcond hvisit⟩

/-- The calls that take `base` from the list: the second request needs memory, and it ends at the
address of `base`. -/
def dropCalls : List Call :=
  [.malloc 1 (fun _ => 131072) 4, .malloc 16384 (fun _ => 49136) 4]

/-- New memory that ends at the address of `base` takes `base` from the list. -/
theorem base_dropped :
    ¬ ∀ (base : ℕ) (ptr size : ℕ → ℕ) (calls : List Call) (t : Sys),
      Along (Sys.step base) (Fresh base) (start ptr size) calls →
      Visits (Sys.step base) (start ptr size) calls t → t.InOrder base := by
  intro hall
  have hfirst : (Sys.step 65536 (start (fun _ => 0) fun _ => 0)
      (.malloc 1 (fun _ => 131072) 4)).map Sys.regions = some [(131072, 16384)] := by decide +kernel
  have hlast : (run (Sys.step 65536) (start (fun _ => 0) fun _ => 0) dropCalls).map
      (fun t => (t.heap.freeptr, t.heap.ptr 131072)) = some (some 131072, 131072) := by decide +kernel
  obtain ⟨t, ht, hlast⟩ := Option.map_eq_some_iff.mp hlast
  obtain ⟨hfp, hself⟩ := Prod.mk.inj hlast
  have hfresh : Along (Sys.step 65536) (Fresh 65536) (start (fun _ => 0) fun _ => 0) dropCalls := by
    refine ⟨⟨by decide, ?_, .inl (by decide)⟩, fun s' hs => ⟨⟨by decide, ?_, .inr (by decide)⟩, ?_⟩⟩
    · rintro x - - ⟨r, hr, -⟩
      cases hr
    · -- The new memory is below `base`, and the memory of the first call above.
      rw [hs, Option.map_some] at hfirst
      rw [Option.some.inj hfirst]
      rintro x - hlt ⟨r, hr, hle, -⟩
      rw [List.mem_singleton.mp hr] at hle
      have hend : 49136 + moreBytes (unitsOf 16384) = 65536 := by decide
      change x < 49136 + moreBytes (unitsOf 16384) at hlt
      change 131072 ≤ x at hle
      omega
    · exact fun _ _ => trivial
  rcases hall 65536 _ _ _ t hfresh (visits_of_run ht) with ⟨hnone, -, -⟩ | ⟨free, live, hkept⟩
  · rw [hfp] at hnone
    cases hnone
  · obtain ⟨f, hf, hreach⟩ := hkept.reached
    rw [hfp] at hf
    obtain rfl := Option.some.inj hf
    obtain ⟨k, hk⟩ := (hreach 65536).mp hkept.sound.base_mem
    rw [Function.iterate_fixed hself] at hk
    omega

end Sys

end Nascent.Malloc
