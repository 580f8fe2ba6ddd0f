import Nascent.Malloc.Sound

/-!
# `malloc` where `sbrk` may fail

`morecore` returns `NULL` where `sbrk` fails, and `malloc` then notes that it is done and that its result is
`NULL`. But it does so in the body of a loop whose step follows `p` once more, and `p` is `NULL`. So `malloc`
never returns `NULL`: where no free block is large enough and `sbrk` fails, it follows `NULL`
(`Kept.follows_null`). Here the loop has no result in that case, and the reason is kept (`Stop`).

A request of 2^64 - 15 bytes or more has a sum that wraps around, so one unit is taken for it, and from 2^27
units on the number of bytes that `morecore` asks for is no `int`. In a run without these, every state has a
heap that is in order, and a call of `malloc` returns a block that is large enough (`malloc_clean`).
-/

namespace Nascent.Malloc

open Heap Runs

variable {base n m k fuel nbytes : ℕ} {h : Heap} {s r : Scan} {sbrk : ℕ → Option ℕ}

/-- Why a call does not return. -/
inductive Stop
  /-- The steps it was given do not suffice. -/
  | steps
  /-- It follows `NULL`. -/
  | null

namespace Scan

/-- The second part of the body, with the pointer `p` behind it. -/
def moreOrNull (s : Scan) (fuel nunits : ℕ) (sbrk : ℕ → Option ℕ) : Except Stop (Scan × Option ℕ) :=
  if s.heap.freeptr = some s.p then
    (sbrk s.regions.length).elim (.ok ({ s with isAllocating := false, result := 0 }, none)) fun up =>
      (s.heap.morecore fuel nunits up).elim (.error .steps) fun h =>
        .ok ({ s with heap := h, regions := s.regions ++ [(up, moreBytes nunits)] }, h.freeptr)
  else .ok (s, some s.p)

/-- The body of the loop, with the step to the next node. -/
def bodyOrNull (s : Scan) (fuel nunits : ℕ) (sbrk : ℕ → Option ℕ) : Except Stop Scan :=
  ((s.take nunits).moreOrNull fuel nunits sbrk).bind fun r =>
    r.2.elim (.error .null) fun p => .ok { r.1 with prevptr := p, p := r.1.heap.ptr p }

/-- The loop, with at most `k` repetitions. -/
def loopOrNull (fuel nunits : ℕ) (sbrk : ℕ → Option ℕ) : ℕ → Scan → Except Stop Scan
  | 0, s => if s.isAllocating then .error .steps else .ok s
  | k + 1, s =>
    if s.isAllocating then (s.bodyOrNull fuel nunits sbrk).bind (loopOrNull fuel nunits sbrk k) else .ok s

end Scan

/-- `malloc`, where `sbrk` returns an address or fails. -/
def mallocOrNull (base fuel nbytes : ℕ) (sbrk : ℕ → Option ℕ) (h : Heap) : Except Stop Scan :=
  Scan.loopOrNull fuel (unitsOf nbytes) sbrk fuel (Scan.start base h)

/-! ## Where `sbrk` does not fail -/

/-- `free` sets `freeptr`. -/
theorem freeptr_free {h' : Heap} {ap : ℕ} (hr : h.free fuel ap = some h') : ∃ p, h'.freeptr = some p := by
  obtain ⟨f, -, hr⟩ := Option.bind_eq_some_iff.mp hr
  obtain ⟨p, -, rfl⟩ := Option.map_eq_some_iff.mp hr
  exact ⟨p, rfl⟩

theorem take_regions (s : Scan) (n : ℕ) : (s.take n).regions = s.regions := by
  unfold Scan.take
  split_ifs <;> rfl

theorem error_ne_ok {e : Stop} : Except.error e ≠ Except.ok r := by
  rintro ⟨⟩

/-- The addresses that `sbrk` returns. -/
def answers (sbrk : ℕ → Option ℕ) : ℕ → ℕ := fun i => (sbrk i).getD 0

theorem body_regions {t : ℕ → ℕ} (hbody : s.body fuel n t = some r) : s.regions.length ≤ r.regions.length := by
  have hregions := take_regions s n
  obtain ⟨u, hmore, rfl⟩ := Option.map_eq_some_iff.mp hbody
  rw [← hregions]
  by_cases hf : (s.take n).heap.freeptr = some (s.take n).p
  · rw [more_of_eq hf] at hmore
    obtain ⟨h', -, rfl⟩ := Option.map_eq_some_iff.mp hmore
    dsimp only
    rw [List.length_append]
    exact Nat.le_add_right ..
  · rw [more_of_ne hf] at hmore
    rw [Option.some.inj hmore]

/-- A repetition goes on if and only if it does so with the addresses, and `sbrk` does not fail in it. -/
theorem bodyOrNull_iff : s.bodyOrNull fuel n sbrk = .ok r ↔ s.body fuel n (answers sbrk) = some r ∧
    ∀ i, s.regions.length ≤ i → i < r.regions.length → (sbrk i).isSome := by
  have hregions := take_regions s n
  unfold Scan.bodyOrNull Scan.moreOrNull Scan.body
  rw [← hregions]
  generalize s.take n = s
  by_cases hf : s.heap.freeptr = some s.p
  · rw [more_of_eq hf, if_pos hf]
    rcases hsbrk : sbrk s.regions.length with _ | up
    · -- The call of `sbrk` fails.
      refine iff_of_false (error_ne_ok (e := .null)) ?_
      rintro ⟨hbody, hsome⟩
      obtain ⟨t, hmore, rfl⟩ := Option.map_eq_some_iff.mp hbody
      obtain ⟨h', -, rfl⟩ := Option.map_eq_some_iff.mp hmore
      have hlen := hsome s.regions.length le_rfl (by simp)
      rw [hsbrk] at hlen
      exact Bool.false_ne_true hlen
    · have hup : answers sbrk s.regions.length = up := by rw [answers, hsbrk, Option.getD_some]
      rw [hup, Option.elim_some]
      rcases hcore : s.heap.morecore fuel n up with _ | h'
      · exact iff_of_false (error_ne_ok (e := .steps)) fun h => absurd h.1 (by simp)
      · obtain ⟨p, hp⟩ := freeptr_free hcore
        rw [Option.elim_some, hp, Option.map_some, Option.map_some, hp, Option.getD_some]
        constructor
        · intro heq
          obtain rfl := Except.ok.inj heq
          refine ⟨rfl, fun i hle hlt => ?_⟩
          rw [List.length_append, List.length_singleton] at hlt
          obtain rfl := Nat.le_antisymm (Nat.le_of_lt_succ hlt) hle
          rw [hsbrk, Option.isSome_some]
        · rintro ⟨heq, -⟩
          obtain rfl := Option.some.inj heq
          rfl
  · rw [more_of_ne hf, if_neg hf, Option.map_some]
    constructor
    · intro heq
      obtain rfl := Except.ok.inj heq
      exact ⟨rfl, fun i hle hlt => absurd hlt (Nat.not_lt.mpr hle)⟩
    · rintro ⟨heq, -⟩
      obtain rfl := Option.some.inj heq
      rfl

theorem loop_regions {t : ℕ → ℕ} : ∀ {k : ℕ} {s : Scan}, s.loop fuel n t k = some r →
    s.regions.length ≤ r.regions.length
  | 0, s, hr => by
    unfold Scan.loop at hr
    split_ifs at hr
    rw [Option.some.inj hr]
  | k + 1, s, hr => by
    unfold Scan.loop at hr
    split_ifs at hr
    · obtain ⟨u, hbody, hr⟩ := Option.bind_eq_some_iff.mp hr
      exact (body_regions hbody).trans (loop_regions hr)
    · rw [Option.some.inj hr]

/-- The loop returns if and only if it does so with the addresses, and `sbrk` does not fail in it. -/
theorem loopOrNull_iff : ∀ {k : ℕ} {s : Scan}, s.loopOrNull fuel n sbrk k = .ok r ↔
    s.loop fuel n (answers sbrk) k = some r ∧
      ∀ i, s.regions.length ≤ i → i < r.regions.length → (sbrk i).isSome
  | 0, s => by
    unfold Scan.loopOrNull Scan.loop
    split_ifs
    · exact iff_of_false id And.left
    · constructor
      · intro heq
        obtain rfl := Except.ok.inj heq
        exact ⟨rfl, fun i hle hlt => absurd hlt (Nat.not_lt.mpr hle)⟩
      · rintro ⟨heq, -⟩
        rw [Option.some.inj heq]
  | k + 1, s => by
    unfold Scan.loopOrNull Scan.loop
    split_ifs
    · constructor
      · intro heq
        rcases hbody : s.bodyOrNull fuel n sbrk with e | t
        · rw [hbody] at heq
          exact absurd heq (error_ne_ok (e := e))
        · rw [hbody] at heq
          obtain ⟨hbody, hsome⟩ := bodyOrNull_iff.mp hbody
          obtain ⟨hloop, hsome'⟩ := loopOrNull_iff.mp heq
          refine ⟨by rw [hbody, Option.bind_some, hloop], fun i hle hlt => ?_⟩
          rcases Nat.lt_or_ge i t.regions.length with hi | hi
          · exact hsome i hle hi
          · exact hsome' i hi hlt
      · rintro ⟨heq, hsome⟩
        obtain ⟨t, hbody, hloop⟩ := Option.bind_eq_some_iff.mp heq
        have hle := body_regions hbody
        have hle' := loop_regions hloop
        have hbody' := bodyOrNull_iff.mpr ⟨hbody, fun i h1 h2 => hsome i h1 (h2.trans_le hle')⟩
        rw [hbody']
        exact loopOrNull_iff.mpr ⟨hloop, fun i h1 h2 => hsome i (hle.trans h1) h2⟩
    · constructor
      · intro heq
        obtain rfl := Except.ok.inj heq
        exact ⟨rfl, fun i hle hlt => absurd hlt (Nat.not_lt.mpr hle)⟩
      · rintro ⟨heq, -⟩
        rw [Option.some.inj heq]

/-- `malloc` returns if and only if it does so with the addresses, and `sbrk` does not fail in it. -/
theorem mallocOrNull_iff : mallocOrNull base fuel nbytes sbrk h = .ok r ↔
    malloc base fuel nbytes (answers sbrk) h = some r ∧ ∀ i < r.regions.length, (sbrk i).isSome := by
  unfold mallocOrNull malloc
  rw [loopOrNull_iff]
  exact and_congr_right fun _ => forall_congr' fun i => ⟨fun h => h (Nat.zero_le i), fun h _ => h⟩

/-! ## Where it fails -/

theorem loopOrNull_behind {pv : ℕ} {regions : List (ℕ × ℕ)} :
    (Scan.behind h pv regions).loopOrNull fuel n sbrk (m + 1) =
      ((Scan.behind h pv regions).bodyOrNull fuel n sbrk).bind (Scan.loopOrNull fuel n sbrk m) := by
  rw [Scan.loopOrNull, Scan.behind, if_pos rfl]

/-- The loop goes through blocks that are too small and not `freeptr`. -/
theorem loopOrNull_walk (fuel : ℕ) (sbrk : ℕ → Option ℕ) : ∀ (k pv : ℕ),
    (∀ j < k, ¬ n ≤ h.size (h.ptr^[j] (h.ptr pv)) ∧ h.freeptr ≠ some (h.ptr^[j] (h.ptr pv))) →
    (Scan.behind h pv []).loopOrNull fuel n sbrk (m + k) =
      (Scan.behind h (h.ptr^[k] pv) []).loopOrNull fuel n sbrk m
  | 0, _, _ => rfl
  | k + 1, pv, hsmall => by
    obtain ⟨hfirst, hf⟩ := hsmall 0 k.succ_pos
    have hbody : (Scan.behind h pv []).bodyOrNull fuel n sbrk = .ok (Scan.behind h (h.ptr pv) []) := by
      have hf' : (Scan.behind h pv []).heap.freeptr ≠ some (Scan.behind h pv []).p := hf
      unfold Scan.bodyOrNull Scan.moreOrNull
      rw [take_of_small hfirst, if_neg hf']
      rfl
    rw [← Nat.add_assoc, loopOrNull_behind, hbody]
    exact loopOrNull_walk fuel sbrk k (h.ptr pv) fun j hj => hsmall (j + 1) (Nat.succ_lt_succ hj)

/-- At `freeptr`, where `sbrk` fails, the step of the loop follows `NULL`. -/
theorem loopOrNull_null {pv : ℕ} (hsmall : ¬ n ≤ h.size (h.ptr pv)) (hf : h.freeptr = some (h.ptr pv))
    (hsbrk : sbrk 0 = none) : (Scan.behind h pv []).loopOrNull fuel n sbrk (m + 1) = .error .null := by
  have hf' : (Scan.behind h pv []).heap.freeptr = some (Scan.behind h pv []).p := hf
  have hsbrk' : sbrk (Scan.behind h pv []).regions.length = none := hsbrk
  have hbody : (Scan.behind h pv []).bodyOrNull fuel n sbrk = .error .null := by
    unfold Scan.bodyOrNull Scan.moreOrNull
    rw [take_of_small hsmall, if_pos hf', hsbrk']
    rfl
  rw [loopOrNull_behind, hbody]
  rfl

/-! ## The states of a program -/

/-- The calls of the program. -/
inductive Request
  /-- `malloc`, with what `sbrk` will return. -/
  | malloc (nbytes : BitVec 64) (sbrk : ℕ → Option ℕ) (fuel : ℕ)
  /-- `free`, of a pointer that is live. -/
  | free (ap : ℕ) (fuel : ℕ)

namespace Sys

/-- One call. Where `malloc` returns `NULL`, which is 0, there is no new pointer. -/
def call (base : ℕ) (s : Sys) : Request → Option Sys
  | .malloc nbytes sbrk fuel => (mallocOrNull base fuel nbytes.toNat sbrk s.heap).toOption.map fun r =>
    ⟨r.heap, if r.result = 0 then s.live else Function.update s.live r.result (some nbytes.toNat),
      s.regions ++ r.regions⟩
  | .free ap fuel => s.step base (.free ap fuel)

/-- What `sbrk` returns, where it does not fail, is memory that is new, and neither on nor next to `base`. -/
def Grants (base : ℕ) (s : Sys) : Request → Prop
  | .malloc nbytes sbrk _ => ∀ up, sbrk 0 = some up →
    (∀ x, up ≤ x → x < up + moreBytes (unitsOf nbytes.toNat) → ¬ Obtained s.regions x) ∧
    (base + unit ≤ up ∨ up + moreBytes (unitsOf nbytes.toNat) < base)
  | .free _ _ => True

/-- A block of the list is large enough for a request. -/
def Fits (base : ℕ) (s : Sys) (nbytes : BitVec 64) : Prop :=
  ∃ k, unitsOf nbytes.toNat ≤
    (s.heap.init base).size ((s.heap.init base).ptr^[k] ((s.heap.init base).freeptr.getD base))

/-- The sum for the number of units does not wrap around. A block of the list is large enough, or `sbrk` does
not fail and the number of bytes is an `int`. -/
def Serves (base : ℕ) (s : Sys) : Request → Prop
  | .malloc nbytes sbrk _ => nbytes.toNat + 15 < 2 ^ 64 ∧
    (s.Fits base nbytes ∨ (sbrk 0).isSome ∧ unitsOf nbytes.toNat < 2 ^ 27)
  | .free _ _ => True

/-- `malloc` returns, and leaves a heap that is in order: the block that it has returned has the bytes that
were asked for, or it has returned `NULL` and the free and the live blocks are cut from the memory as before
and what `sbrk` has granted. -/
def Clean (base : ℕ) (s : Sys) (nbytes : BitVec 64) (sbrk : ℕ → Option ℕ) : Prop :=
  ∃ s' N, s'.InOrder base ∧ ∀ fuel, N ≤ fuel → s.call base (.malloc nbytes sbrk fuel) = some s'

variable {s s' : Sys} {free live : Finset ℕ} {nbytes : BitVec 64} {c : Request}

/-- The blocks of the list are those that the search comes to. -/
theorem Kept.fits_iff (hkept : Kept base { s with heap := s.heap.init base } free live) :
    s.Fits base nbytes ↔ ∃ t ∈ free, unitsOf nbytes.toNat ≤ (s.heap.init base).size t := by
  obtain ⟨f, hfp, hreach⟩ := hkept.reached
  have hf : (s.heap.init base).freeptr = some f := hfp
  unfold Fits
  rw [hf, Option.getD_some]
  constructor
  · rintro ⟨k, hk⟩
    exact ⟨_, (hreach _).mpr ⟨k, rfl⟩, hk⟩
  · rintro ⟨t, ht, hfit⟩
    obtain ⟨k, rfl⟩ := (hreach t).mp ht
    exact ⟨k, hfit⟩

/-- Where a block is large enough, or `sbrk` does not fail, `malloc` finds a block of the units it has
computed. -/
theorem Kept.finds (hkept : Kept base { s with heap := s.heap.init base } free live)
    (hgrants : s.Grants base (.malloc nbytes sbrk fuel))
    (hserves : s.Fits base nbytes ∨ (sbrk 0).isSome ∧ unitsOf nbytes.toNat < 2 ^ 27) :
    ∃ r N, Found base (unitsOf nbytes.toNat) (s.heap.init base) live
        (fun x => Obtained s.regions x ∨ Obtained r.regions x) r ∧
      ∀ fuel, N ≤ fuel → mallocOrNull base fuel nbytes.toNat sbrk s.heap = .ok r := by
  obtain ⟨f, hf, hfp⟩ := hkept.sound.freeptr_mem
  have hpos : 0 < unitsOf nbytes.toNat := Nat.succ_pos _
  have hempty : (fun x => Obtained s.regions x ∨ Obtained [] x) = Obtained s.regions := by
    funext x
    simp only [Obtained, List.not_mem_nil, false_and, exists_false, or_false]
  by_cases hfit : s.Fits base nbytes
  · obtain ⟨t, ht, hfit⟩ := hkept.fits_iff.mp hfit
    obtain ⟨r, N, hreg, hfound, hloop⟩ := hkept.sound.loop_of_mem (answers sbrk) [] hpos hf hfp ht hfit
    refine ⟨r, N, by rwa [hreg, hempty], fun fuel hle => mallocOrNull_iff.mpr ⟨?_, fun i hi => ?_⟩⟩
    · rw [malloc, start_eq hfp]
      exact hloop fuel fuel hle
    · rw [hreg] at hi
      exact absurd hi (Nat.not_lt_zero i)
  · obtain ⟨hsome, hlt⟩ := hserves.resolve_left hfit
    obtain ⟨up, hup⟩ := Option.isSome_iff_exists.mp hsome
    have hanswer : answers sbrk 0 = up := by rw [answers, hup, Option.getD_some]
    obtain ⟨hnew, hbase⟩ := hgrants up hup
    have hmore : moreUnits (unitsOf nbytes.toNat) = max 1024 (unitsOf nbytes.toNat) :=
      moreUnits_of_lt (by omega)
    have hbytes : moreBytes (unitsOf nbytes.toNat) = unit * moreUnits (unitsOf nbytes.toNat) := by
      rw [moreBytes, Nat.mod_eq_of_lt]
      rw [unit]
      omega
    rw [hbytes] at hnew hbase
    have hbase' : base < up ∨ up + unit * moreUnits (unitsOf nbytes.toNat) < base :=
      hbase.imp_left fun h => lt_of_lt_of_le (Nat.lt_add_of_pos_right (by decide)) h
    obtain ⟨r, N, hreg, hfound, hloop⟩ := hkept.sound.loop_of_more (answers sbrk) hpos (by omega)
      hf hfp (mt hkept.fits_iff.mpr hfit) (hanswer ▸ hnew) (hanswer ▸ hbase')
    rw [hanswer] at hreg hfound
    have hmem : (fun x => Obtained s.regions x ∨ Obtained r.regions x) =
        fun x => Obtained s.regions x ∨ (up ≤ x ∧ x < up + unit * moreUnits (unitsOf nbytes.toNat)) := by
      funext x
      simp only [hreg, Obtained, List.mem_singleton, exists_eq_left, hbytes]
    refine ⟨r, N, hmem ▸ hfound, fun fuel hle => mallocOrNull_iff.mpr ⟨?_, fun i hi => ?_⟩⟩
    · rw [malloc, start_eq hfp]
      exact hloop fuel hle
    · rw [hreg, List.length_singleton] at hi
      obtain rfl := Nat.lt_one_iff.mp hi
      exact hsome

/-- Where no block is large enough and `sbrk` fails, `malloc` follows `NULL`. -/
theorem Kept.follows_null (hkept : Kept base { s with heap := s.heap.init base } free live)
    (hfit : ¬ s.Fits base nbytes) (hsbrk : sbrk 0 = none) :
    ∃ N, ∀ fuel, N ≤ fuel → mallocOrNull base fuel nbytes.toNat sbrk s.heap = .error .null := by
  obtain ⟨f, hf, hfp⟩ := hkept.sound.freeptr_mem
  obtain ⟨k, hmin, hlast, hfp'⟩ := hkept.sound.walk_back hf hfp (mt hkept.fits_iff.mpr hfit)
  refine ⟨k + 1, fun fuel hle => ?_⟩
  obtain ⟨m, rfl⟩ := Nat.exists_eq_add_of_le' hle
  unfold mallocOrNull
  rw [start_eq hfp, show m + (k + 1) = m + 1 + k by omega, loopOrNull_walk _ sbrk k f hmin]
  exact loopOrNull_null hlast hfp' hsbrk

/-! ## One call -/

theorem unitsOf_of_lt_word (hn : nbytes.toNat + 15 < 2 ^ 64) :
    unit + nbytes.toNat ≤ unit * unitsOf nbytes.toNat := by
  rw [unitsOf, unit, Nat.mod_eq_of_lt (by omega)]
  omega

/-- Where the sum wraps around, one unit is taken. -/
theorem unitsOf_of_wrap (hn : 2 ^ 64 ≤ nbytes.toNat + 15) : unitsOf nbytes.toNat = 1 := by
  have hlt := nbytes.isLt
  rw [unitsOf, unit]
  omega

/-- What a call of `malloc` does where it returns. -/
theorem call_malloc {r : Scan} {q : ℕ} (hr : mallocOrNull base fuel nbytes.toNat sbrk s.heap = .ok r)
    (hresult : r.result = q + unit) : s.call base (.malloc nbytes sbrk fuel) =
      some ⟨r.heap, Function.update s.live r.result (some nbytes.toNat), s.regions ++ r.regions⟩ := by
  have hne : r.result ≠ 0 := by
    rw [hresult]
    exact Nat.succ_ne_zero _
  rw [call, hr]
  change some _ = some _
  dsimp only
  rw [if_neg hne]

/-- `malloc` returns and leaves a heap that is in order, where no sum wraps around, and a block is large
enough or `sbrk` does not fail. -/
theorem InOrder.clean (hs : s.InOrder base) (hgrants : s.Grants base (.malloc nbytes sbrk fuel))
    (hserves : s.Serves base (.malloc nbytes sbrk fuel)) : s.Clean base nbytes sbrk := by
  obtain ⟨free, live, hkept⟩ := hs.kept_init
  obtain ⟨r, N, hfound, hr⟩ := hkept.finds hgrants hserves.2
  obtain ⟨q, -, hresult, -⟩ := id hfound.sound
  exact ⟨_, N, hkept.of_found (unitsOf_of_lt_word hserves.1) hfound, fun fuel hle =>
    call_malloc (hr fuel hle) hresult⟩

/-- Where `malloc` returns and leaves a heap that is in order, no sum has wrapped around, and a block was
large enough or `sbrk` has not failed. -/
theorem InOrder.of_clean (hs : s.InOrder base) (hgrants : s.Grants base (.malloc nbytes sbrk fuel))
    (hclean : s.Clean base nbytes sbrk) :
    nbytes.toNat + 15 < 2 ^ 64 ∧ (s.Fits base nbytes ∨ (sbrk 0).isSome) := by
  obtain ⟨free, live, hkept⟩ := hs.kept_init
  obtain ⟨s', N, hs', hcall⟩ := hclean
  have hserves : s.Fits base nbytes ∨ (sbrk 0).isSome := by
    by_contra hnot
    rw [not_or, Option.not_isSome_iff_eq_none] at hnot
    obtain ⟨K, hnull⟩ := hkept.follows_null hnot.1 hnot.2
    have hcall := hcall (max N K) (le_max_left ..)
    rw [call, hnull _ (le_max_right ..)] at hcall
    exact absurd hcall (by simp [Except.toOption])
  refine ⟨?_, hserves⟩
  by_contra hwrap
  -- The block that is found has no byte behind its header.
  have hunits := unitsOf_of_wrap (Nat.not_lt.mp hwrap)
  obtain ⟨r, K, hfound, hr⟩ := hkept.finds hgrants
    (hserves.imp_right fun hsome => ⟨hsome, by rw [hunits]; decide⟩)
  obtain ⟨q, free', hresult, -, hsize, -⟩ := hfound.sound
  have hcall := hcall (max N K) (le_max_left ..)
  rw [call_malloc (hr _ (le_max_right ..)) hresult] at hcall
  obtain rfl := Option.some.inj hcall
  have hlive : Function.update s.live r.result (some nbytes.toNat) (q + unit) = some nbytes.toNat := by
    rw [hresult, Function.update_self]
  rcases hs' with ⟨-, hnone, -⟩ | ⟨free'', live'', hkept'⟩
  · exact absurd ((hnone (q + unit)).symm.trans hlive) (by simp)
  · obtain ⟨-, husable⟩ := hkept'.usable (q + unit) nbytes.toNat hlive
    change q + unit + nbytes.toNat ≤ r.heap.blockEnd (q + unit - unit) at husable
    rw [Nat.add_sub_cancel, blockEnd, hsize, hunits, Nat.mul_one] at husable
    omega

/-- Every call that returns keeps the heap. -/
theorem InOrder.call (hs : s.InOrder base) (hgrants : s.Grants base c) (hserves : s.Serves base c)
    (hcall : s.call base c = some s') : s'.InOrder base := by
  cases c with
  | malloc nbytes sbrk fuel =>
    obtain ⟨t, N, ht, hN⟩ := hs.clean hgrants hserves
    have hmax := hN (max N fuel) (le_max_left ..)
    rw [Sys.call] at hcall hmax
    rcases hr : mallocOrNull base fuel nbytes.toNat sbrk s.heap with e | r
    · rw [hr] at hcall
      exact absurd hcall (by simp [Except.toOption])
    · obtain ⟨hmalloc, hsome⟩ := mallocOrNull_iff.mp hr
      have hr' := mallocOrNull_iff.mpr ⟨malloc_mono (le_max_right N fuel) hmalloc, hsome⟩
      rw [hr] at hcall
      rw [hr'] at hmax
      exact Option.some.inj (hcall.symm.trans hmax) ▸ ht
  | free ap fuel =>
    have hfresh : Fresh base s (.free ap fuel) := trivial
    have hoff : OffBase base (.free ap fuel) := trivial
    exact hs.step hfresh hoff hcall

/-! ## Whole runs -/

/-- In every run whose calls of `malloc` are served, every state has a heap that is in order. In each state,
a call that is served returns and leaves such a heap, and so does `free`. A call that does so has no sum that
wraps around, and does not need memory that `sbrk` refuses. -/
theorem malloc_clean (base : ℕ) (ptr size : ℕ → ℕ) (calls : List Request) (t : Sys)
    (hgrants : Along (Sys.call base) (Grants base) (start ptr size) calls)
    (hserves : Along (Sys.call base) (Serves base) (start ptr size) calls)
    (hvisit : Visits (Sys.call base) (start ptr size) calls t) :
    t.InOrder base ∧
    (∀ nbytes sbrk, t.Grants base (.malloc nbytes sbrk 0) →
      (t.Serves base (.malloc nbytes sbrk 0) → t.Clean base nbytes sbrk) ∧
      (t.Clean base nbytes sbrk →
        nbytes.toNat + 15 < 2 ^ 64 ∧ (t.Fits base nbytes ∨ (sbrk 0).isSome))) ∧
    ∀ ap, (t.live ap).isSome → ∃ N, ∀ fuel, N ≤ fuel → (t.call base (.free ap fuel)).isSome := by
  have horder : t.InOrder base := by
    refine hvisit.invariant (hgrants.and hserves) (fun s c s' hs hc hcall => hs.call hc.1 hc.2 hcall) (.inl ?_)
    exact ⟨rfl, fun _ => rfl, rfl⟩
  exact ⟨horder, fun nbytes sbrk hgrants => ⟨horder.clean hgrants, horder.of_clean hgrants⟩, horder.returns.2⟩

/-- A program that asks for 100 bytes and gives them back. -/
theorem malloc_clean_pair : ∃ t, Visits (Sys.call 1000) (start (fun _ => 0) fun _ => 0)
      [.malloc 100 (fun _ => some 4096) 4, .free 20368 4] t ∧ t.regions = [(4096, 16384)] ∧
    t.InOrder 1000 ∧ t.Clean 1000 100 (fun _ => none) := by
  have hrun : ((run (Sys.call 1000) (start (fun _ => 0) fun _ => 0)
      [.malloc 100 (fun _ => some 4096) 4, .free 20368 4]).map
        fun t => (t.regions, t.heap.freeptr, t.heap.size 4096)) = some ([(4096, 16384)], some 4096, 1024) := by
    decide +kernel
  obtain ⟨t, ht, hfields⟩ := Option.map_eq_some_iff.mp hrun
  obtain ⟨hreg, hfields⟩ := Prod.mk.inj hfields
  obtain ⟨hfp, hsize⟩ := Prod.mk.inj hfields
  have hgrants : Along (Sys.call 1000) (Grants 1000) (start (fun _ => 0) fun _ => 0)
      [.malloc 100 (fun _ => some 4096) 4, .free 20368 4] := by
    refine ⟨fun up hup => ?_, fun _ _ => ⟨trivial, fun _ _ => trivial⟩⟩
    obtain rfl := Option.some.inj hup
    refine ⟨?_, .inl (by decide)⟩
    rintro x - - ⟨r, hr, -⟩
    exact absurd hr List.not_mem_nil
  have hserves : Along (Sys.call 1000) (Serves 1000) (start (fun _ => 0) fun _ => 0)
      [.malloc 100 (fun _ => some 4096) 4, .free 20368 4] := by
    refine ⟨⟨by decide, .inr ⟨rfl, by decide⟩⟩, fun _ _ => ⟨trivial, fun _ _ => trivial⟩⟩
  have hvisit := visits_of_run ht
  obtain ⟨horder, hmalloc, -⟩ := malloc_clean 1000 _ _ _ t hgrants hserves hvisit
  -- The block that was given back is large enough.
  have hinit : t.heap.init 1000 = t.heap := by rw [Heap.init, hfp]
  have hfit : t.Fits 1000 100 := by
    refine ⟨0, ?_⟩
    rw [hinit, hfp, Option.getD_some, Function.iterate_zero, id, hsize]
    decide
  have hnone : t.Grants 1000 (.malloc 100 (fun _ => none) 0) := fun up hup => absurd hup (by simp)
  exact ⟨t, hvisit, hreg, horder, (hmalloc 100 _ hnone).1 ⟨by decide, .inl hfit⟩⟩

/-- Where `sbrk` fails in the first call, `malloc` follows `NULL`. A request of 2^64 - 1 bytes gets a block
of one unit. -/
theorem null_followed :
    (∃ N, ∀ fuel, N ≤ fuel → mallocOrNull 4000 fuel 1 (fun _ => none) (start (fun _ => 0) fun _ => 0).heap =
      .error .null) ∧
    ¬ (start (fun _ => 0) fun _ => 0).Clean 4000 1 (fun _ => none) ∧
    ¬ (start (fun _ => 0) fun _ => 0).Clean 4000 (-1) (fun _ => some 8192) := by
  have horder : (start (fun _ => 0) fun _ => 0).InOrder 4000 := .inl ⟨rfl, fun _ => rfl, rfl⟩
  have hfit : ¬ (start (fun _ => 0) fun _ => 0).Fits 4000 1 := by
    rintro ⟨k, hk⟩
    obtain ⟨hfp, hptr, hsize⟩ := init_of_none (h := (start (fun _ => 0) fun _ => 0).heap) 4000 rfl
    rw [hfp, Option.getD_some, Function.iterate_fixed hptr, hsize] at hk
    exact absurd hk (by decide)
  refine ⟨?_, fun hclean => ?_, fun hclean => ?_⟩
  · obtain ⟨free, live, hkept⟩ := horder.kept_init
    exact hkept.follows_null hfit rfl
  · have hnone : (start (fun _ => 0) fun _ => 0).Grants 4000 (.malloc 1 (fun _ => none) 0) :=
      fun up hup => absurd hup (by simp)
    obtain ⟨-, hfit' | hsome⟩ := horder.of_clean hnone hclean
    · exact hfit hfit'
    · exact Bool.false_ne_true hsome
  · have hgrants : (start (fun _ => 0) fun _ => 0).Grants 4000 (.malloc (-1) (fun _ => some 8192) 0) := by
      intro up hup
      obtain rfl := Option.some.inj hup
      refine ⟨?_, .inl (by decide)⟩
      rintro x - - ⟨r, hr, -⟩
      exact absurd hr List.not_mem_nil
    exact absurd (horder.of_clean hgrants hclean).1 (by decide)

end Sys

end Nascent.Malloc
