import Nascent.Malloc.Free

/-!
# The search of `malloc`

The loop of `malloc` goes through the list from the node behind `freeptr` on. At a block that is large
enough it takes the block or its end (`Sound.of_take`), and when it comes to `freeptr` without one it
calls `morecore` and goes on from there. The second walk finds the new block before it comes to
`freeptr` again, so the loop ends after at most one call of `morecore` (`Sound.of_loop`).
-/

namespace Nascent.Malloc

open Heap

variable {base pv f n k m fuel : ℕ} {h : Heap} {free live : Finset ℕ} {mem : ℕ → Prop}
  {sbrk : ℕ → ℕ} {regions : List (ℕ × ℕ)}

/-- The loop of `malloc` before its body, behind the node `pv`. -/
def Scan.behind (h : Heap) (pv : ℕ) (regions : List (ℕ × ℕ)) : Scan :=
  ⟨h, pv, h.ptr pv, true, 0, regions⟩

/-- The loop starts behind `freeptr`. -/
theorem start_eq (hfp : (h.init base).freeptr = some f) :
    Scan.start base h = Scan.behind (h.init base) f [] := by
  simp only [Scan.start, hfp, Option.getD_some]
  rfl

/-- The first lines of `malloc` make the list of `base` alone, where there is none. -/
theorem init_of_none (base : ℕ) (hfp : h.freeptr = none) :
    (h.init base).freeptr = some base ∧ (h.init base).ptr base = base ∧
      (h.init base).size base = 0 := by
  rw [Heap.init, hfp]
  exact ⟨rfl, setPtr_ptr_self, setSize_size_self⟩

/-! ## One repetition -/

/-- The loop does nothing more when a block was found. -/
theorem loop_of_done {s : Scan} (hs : s.isAllocating = false) (m : ℕ) :
    s.loop fuel n sbrk m = some s := by
  cases m with
  | zero => rw [Scan.loop, hs, if_neg Bool.false_ne_true]
  | succ m => rw [Scan.loop, hs, if_neg Bool.false_ne_true]

/-- The loop does its body while no block was found. -/
theorem loop_behind (m : ℕ) : (Scan.behind h pv regions).loop fuel n sbrk (m + 1) =
    ((Scan.behind h pv regions).body fuel n sbrk).bind (Scan.loop fuel n sbrk m) := by
  rw [Scan.loop, Scan.behind, if_pos rfl]

/-- A block that is too small is not taken. -/
theorem take_of_small (hsmall : ¬ n ≤ h.size (h.ptr pv)) :
    (Scan.behind h pv regions).take n = Scan.behind h pv regions := if_neg hsmall

/-- `morecore` is called only at `freeptr`. -/
theorem more_of_ne {s : Scan} (hf : s.heap.freeptr ≠ some s.p) : s.more fuel n sbrk = some s := if_neg hf

/-- There the loop goes on with what `morecore` returns. -/
theorem more_of_eq {s : Scan} (hf : s.heap.freeptr = some s.p) :
    s.more fuel n sbrk = (s.heap.morecore fuel n (sbrk s.regions.length)).map fun h =>
      { s with heap := h, p := h.freeptr.getD 0,
               regions := s.regions ++ [(sbrk s.regions.length, moreBytes n)] } := if_pos hf

/-- At a block that is too small, and not `freeptr`, the loop goes to the next one. -/
theorem body_of_small (hsmall : ¬ n ≤ h.size (h.ptr pv)) (hf : h.freeptr ≠ some (h.ptr pv)) :
    (Scan.behind h pv regions).body fuel n sbrk = some (Scan.behind h (h.ptr pv) regions) := by
  rw [Scan.body, take_of_small hsmall, more_of_ne hf]
  rfl

/-- At `freeptr`, with a block that is too small, the loop goes on behind what `morecore` returns. -/
theorem body_of_more {h' : Heap} (hsmall : ¬ n ≤ h.size (h.ptr pv)) (hf : h.freeptr = some (h.ptr pv))
    (hmore : h.morecore fuel n (sbrk regions.length) = some h') (hf' : h'.freeptr = some f) :
    (Scan.behind h pv regions).body fuel n sbrk =
      some (Scan.behind h' f (regions ++ [(sbrk regions.length, moreBytes n)])) := by
  have hmore' : (Scan.behind h pv regions).heap.morecore fuel n
      (sbrk (Scan.behind h pv regions).regions.length) = some h' := hmore
  rw [Scan.body, take_of_small hsmall, more_of_eq (by exact hf), hmore', Option.map_some,
    Option.map_some, hf', Option.getD_some]
  rfl

/-- A block that is large enough is taken from the list, or its end is, and the heap stays sound. -/
theorem Sound.of_take (hs : Sound base h free live mem) (hpv : pv ∈ free) (hn : 0 < n)
    (hfit : n ≤ h.size (h.ptr pv)) :
    ∃ h' q free', (Scan.behind h pv regions).take n = ⟨h', pv, q, false, q + unit, regions⟩ ∧
      Sound base h' free' (insert q live) mem ∧ q ∉ live ∧ h'.freeptr = some pv ∧ pv ∈ free' ∧
      h'.size q = n ∧ ∀ c ∈ live, h'.size c = h.size c := by
  have hpm := hs.ring.next_mem pv hpv
  have hbase : h.ptr pv ≠ base := by
    intro heq
    rw [heq, hs.base_size] at hfit
    omega
  have hne := hs.next_ne hpv hbase
  by_cases hexact : h.size (h.ptr pv) = n
  · have hpv' : pv ∈ free.erase (h.ptr pv) := Finset.mem_erase.mpr ⟨hne.symm, hpv⟩
    have hb : Blocks base { h.setPtr pv (h.ptr (h.ptr pv)) with freeptr := some pv }
        (free.erase (h.ptr pv)) (insert (h.ptr pv) live) mem := (hs.unlink hpv hbase).congr rfl rfl
    refine ⟨_, h.ptr pv, _, ?_, ⟨hb, ⟨pv, hpv', rfl⟩, fun b hbm c hcm hbc => ?_, hs.below⟩,
      fun hlive => Finset.disjoint_left.mp hs.disjoint hpm hlive, rfl, hpv', hexact, fun c _ => rfl⟩
    · simp only [Scan.take, Scan.behind, hexact, le_refl, if_true]
    · exact hs.notAdjacent b (Finset.mem_of_mem_erase hbm) c (Finset.mem_of_mem_erase hcm) hbc
  · have hlt : n < h.size (h.ptr pv) := lt_of_le_of_ne hfit (Ne.symm hexact)
    obtain ⟨hnot, hb⟩ := hs.split hpm hn hlt
    set q := h.ptr pv + unit * (h.size (h.ptr pv) - n) with hq
    set h' := (h.setSize (h.ptr pv) (h.size (h.ptr pv) - n)).setSize q n with hh'
    have hsize : ∀ c, c ≠ h.ptr pv → c ≠ q → h'.size c = h.size c := fun c hcp hcq => by
      rw [hh', setSize_size_of_ne hcq, setSize_size_of_ne hcp]
    have hfq : ∀ c ∈ free ∪ live, c ≠ q := fun c hc heq => hnot (heq ▸ hc)
    have hend : h'.blockEnd (h.ptr pv) = q := by
      rw [blockEnd, hh', setSize_size_of_ne (hfq _ (Finset.mem_union_left _ hpm)), setSize_size_self]
    refine ⟨{ h' with freeptr := some pv }, q, free, ?_,
      ⟨hb.congr rfl rfl, ⟨pv, hpv, rfl⟩, fun b hbm c hcm hbc => ?_, hs.below⟩,
      fun hlive => hnot (Finset.mem_union_right _ hlive), rfl, hpv, setSize_size_self, fun c hc => ?_⟩
    · simp only [Scan.take, Scan.behind, if_pos hfit, if_neg hexact, setSize_size_self]
      rfl
    · change h'.blockEnd b ≠ c
      by_cases hbp : b = h.ptr pv
      · rw [hbp, hend]
        exact (hfq c (Finset.mem_union_left _ hcm)).symm
      · rw [blockEnd_congr (hsize b hbp (hfq b (Finset.mem_union_left _ hbm)))]
        exact hs.notAdjacent b hbm c hcm hbc
    · refine hsize c (fun heq => ?_) (hfq c (Finset.mem_union_right _ hc))
      exact Finset.disjoint_left.mp hs.disjoint hpm (heq ▸ hc)

/-! ## The whole loop -/

/-- What the loop of `malloc` has done to a sound heap when it ends. -/
structure Found (base n : ℕ) (h : Heap) (live : Finset ℕ) (mem : ℕ → Prop) (r : Scan) : Prop where
  /-- A block that was not live is, and the heap is sound. -/
  sound : ∃ q free, r.result = q + unit ∧ q ∉ live ∧ r.heap.size q = n ∧
    Sound base r.heap free (insert q live) mem
  /-- The other live blocks have their sizes. -/
  size : ∀ c ∈ live, r.heap.size c = h.size c

/-- The loop ends at a block that is large enough. -/
theorem Sound.loop_of_fit (hs : Sound base h free live mem) (hpv : pv ∈ free) (hn : 0 < n)
    (hfit : n ≤ h.size (h.ptr pv)) :
    ∃ r, r.regions = regions ∧ Found base n h live mem r ∧
      ∀ fuel m, (Scan.behind h pv regions).loop fuel n sbrk (m + 1) = some r := by
  obtain ⟨h', q, free', htake, hsound, hq, hf, hpv', hsize, hother⟩ := hs.of_take hpv hn hfit
  -- The block is not `freeptr`, which is on the list, so `morecore` is not called for it.
  have hne : h'.freeptr ≠ some q := by
    rw [hf]
    intro heq
    exact Finset.disjoint_left.mp hsound.disjoint hpv'
      (Option.some.inj heq ▸ Finset.mem_insert_self q live)
  refine ⟨⟨h', q, h'.ptr q, false, q + unit, regions⟩, rfl,
    ⟨⟨q, free', rfl, hq, hsize, hsound⟩, hother⟩, fun fuel m => ?_⟩
  rw [loop_behind, Scan.body, htake, more_of_ne hne]
  exact loop_of_done rfl m

/-- The loop goes through blocks that are too small and not `freeptr`. -/
theorem loop_walk (fuel : ℕ) (sbrk : ℕ → ℕ) (regions : List (ℕ × ℕ)) : ∀ (k pv : ℕ),
    (∀ j < k, ¬ n ≤ h.size (h.ptr^[j] (h.ptr pv)) ∧ h.freeptr ≠ some (h.ptr^[j] (h.ptr pv))) →
    (Scan.behind h pv regions).loop fuel n sbrk (m + k) =
      (Scan.behind h (h.ptr^[k] pv) regions).loop fuel n sbrk m
  | 0, _, _ => rfl
  | k + 1, pv, hsmall => by
    have hfirst := hsmall 0 k.succ_pos
    rw [← Nat.add_assoc, loop_behind, body_of_small hfirst.1 hfirst.2, Option.bind_some]
    exact loop_walk fuel sbrk regions k (h.ptr pv) fun j hj => hsmall (j + 1) (Nat.succ_lt_succ hj)

/-- The memory of a list of regions. -/
def Obtained (regions : List (ℕ × ℕ)) (x : ℕ) : Prop := ∃ r ∈ regions, r.1 ≤ x ∧ x < r.1 + r.2

/-- The walk finds a block that is large enough, where one is on the list and the walk starts behind
`freeptr`. -/
theorem Sound.loop_of_mem (sbrk : ℕ → ℕ) (regions : List (ℕ × ℕ)) {t : ℕ}
    (hs : Sound base h free live mem) (hn : 0 < n) (hf : f ∈ free) (hfp : h.freeptr = some f)
    (ht : t ∈ free) (hfit : n ≤ h.size t) :
    ∃ r N, r.regions = regions ∧ Found base n h live mem r ∧
      ∀ fuel m, N ≤ m → (Scan.behind h f regions).loop fuel n sbrk m = some r := by
  have hex : ∃ k, n ≤ h.size (h.ptr^[k] (h.ptr f)) := by
    obtain ⟨k, hk⟩ := hs.ring.reach (hs.ring.next_mem f hf) ht
    exact ⟨k, hk ▸ hfit⟩
  classical
  -- Before the first block that is large enough the walk does not come back to `freeptr`.
  have hmin : ∀ j < Nat.find hex, ¬ n ≤ h.size (h.ptr^[j] (h.ptr f)) ∧
      h.freeptr ≠ some (h.ptr^[j] (h.ptr f)) := by
    intro j hj
    refine ⟨Nat.find_min hex hj, fun heq => ?_⟩
    rw [hfp] at heq
    obtain ⟨i, hi, hfiti⟩ := exists_le_of_return (P := fun b => n ≤ h.size b)
      (Option.some.inj heq).symm (Nat.find_spec hex)
    exact Nat.find_min hex (hi.trans_lt hj) hfiti
  have hspec := Nat.find_spec hex
  generalize Nat.find hex = k at hmin hspec
  rw [← Function.iterate_succ_apply, Function.iterate_succ_apply'] at hspec
  obtain ⟨r, hreg, hfound, hloop⟩ := hs.loop_of_fit (hs.ring.iterate_mem hf k) hn hspec
  refine ⟨r, k + 1, hreg, hfound, fun fuel m hle => ?_⟩
  obtain ⟨m, rfl⟩ := Nat.exists_eq_add_of_le' hle
  rw [show m + (k + 1) = m + 1 + k by omega, loop_walk fuel sbrk regions k f hmin]
  exact hloop fuel m

/-- Where no block is large enough, the walk comes back to `freeptr`. -/
theorem Sound.walk_back (hs : Sound base h free live mem) (hf : f ∈ free) (hfp : h.freeptr = some f)
    (hex : ¬ ∃ t ∈ free, n ≤ h.size t) :
    ∃ k, (∀ j < k, ¬ n ≤ h.size (h.ptr^[j] (h.ptr f)) ∧ h.freeptr ≠ some (h.ptr^[j] (h.ptr f))) ∧
      ¬ n ≤ h.size (h.ptr (h.ptr^[k] f)) ∧ h.freeptr = some (h.ptr (h.ptr^[k] f)) := by
  have hsmall : ∀ k, ¬ n ≤ h.size (h.ptr^[k] (h.ptr f)) := fun k hfit =>
    hex ⟨_, hs.ring.iterate_mem (hs.ring.next_mem f hf) k, hfit⟩
  have hback : ∃ k, h.ptr^[k] (h.ptr f) = f := hs.ring.reach (hs.ring.next_mem f hf) hf
  classical
  have hmin : ∀ j < Nat.find hback, ¬ n ≤ h.size (h.ptr^[j] (h.ptr f)) ∧
      h.freeptr ≠ some (h.ptr^[j] (h.ptr f)) := by
    refine fun j hj => ⟨hsmall j, fun heq => Nat.find_min hback hj ?_⟩
    rw [hfp] at heq
    exact (Option.some.inj heq).symm
  have hspec := Nat.find_spec hback
  generalize Nat.find hback = k at hmin hspec
  have hlast := hsmall k
  rw [← Function.iterate_succ_apply, Function.iterate_succ_apply'] at hspec hlast
  exact ⟨k, hmin, hlast, by rw [hspec, hfp]⟩

/-- Where no block is large enough, the loop ends after one call of `morecore`, whose memory is new and not
next to `base`. -/
theorem Sound.loop_of_more (sbrk : ℕ → ℕ) (hs : Sound base h free live mem) (hn : 0 < n)
    (hmore : n ≤ moreUnits n) (hf : f ∈ free) (hfp : h.freeptr = some f) (hex : ¬ ∃ t ∈ free, n ≤ h.size t)
    (hnew : ∀ x, sbrk 0 ≤ x → x < sbrk 0 + unit * moreUnits n → ¬ mem x)
    (hbase : base < sbrk 0 ∨ sbrk 0 + unit * moreUnits n < base) :
    ∃ r N, r.regions = [(sbrk 0, moreBytes n)] ∧
      Found base n h live (fun x => mem x ∨ (sbrk 0 ≤ x ∧ x < sbrk 0 + unit * moreUnits n)) r ∧
      ∀ fuel, N ≤ fuel → (Scan.behind h f []).loop fuel n sbrk fuel = some r := by
  obtain ⟨h', free', N, hcore, hs', hsize, t, ht, hlarge⟩ := hs.of_morecore hnew hbase
  obtain ⟨f', hf', hfp'⟩ := hs'.freeptr_mem
  obtain ⟨r, K, hreg, hfound, hloop⟩ := hs'.loop_of_mem sbrk
    [(sbrk 0, moreBytes n)] hn hf' hfp' ht (hmore.trans hlarge)
  obtain ⟨k, hmin, hlast, hfp₀⟩ := hs.walk_back hf hfp hex
  refine ⟨r, N + (K + 1 + k), hreg,
    ⟨hfound.sound, fun c hc => (hfound.size c hc).trans (hsize c hc)⟩, fun fuel hle => ?_⟩
  obtain ⟨m, hm⟩ := Nat.exists_eq_add_of_le hle
  have hsplit : fuel = N + K + m + 1 + k := by omega
  have hwalk := loop_walk (m := N + K + m + 1) fuel sbrk [] k f hmin
  rw [← hsplit] at hwalk
  have hcall : h.morecore fuel n (sbrk ([] : List (ℕ × ℕ)).length) = some h' :=
    hcore fuel (by omega)
  rw [hwalk, loop_behind, body_of_more hlast hfp₀ hcall hfp', Option.bind_some]
  exact hloop fuel _ (by omega)

/-- The loop of `malloc` ends and finds a block, with at most one call of `morecore`, whose memory is
new and not next to `base`. -/
theorem Sound.of_loop (hs : Sound base h free live mem) (hn : 0 < n) (hmore : n ≤ moreUnits n)
    (hbytes : moreBytes n = unit * moreUnits n) (hf : f ∈ free) (hfp : h.freeptr = some f)
    (hnew : ∀ x, sbrk 0 ≤ x → x < sbrk 0 + unit * moreUnits n → ¬ mem x)
    (hbase : base < sbrk 0 ∨ sbrk 0 + unit * moreUnits n < base) :
    ∃ r N, Found base n h live (fun x => mem x ∨ Obtained r.regions x) r ∧
      ∀ fuel, N ≤ fuel → (Scan.behind h f []).loop fuel n sbrk fuel = some r := by
  by_cases hex : ∃ t ∈ free, n ≤ h.size t
  · obtain ⟨t, ht, hfit⟩ := hex
    obtain ⟨r, N, hreg, hfound, hloop⟩ := hs.loop_of_mem sbrk [] hn hf hfp ht hfit
    refine ⟨r, N, ?_, fun fuel hle => hloop fuel fuel hle⟩
    have hmem : (fun x => mem x ∨ Obtained r.regions x) = mem := by
      funext x
      simp only [hreg, Obtained, List.not_mem_nil, false_and, exists_false, or_false]
    rwa [hmem]
  · obtain ⟨r, N, hreg, hfound, hloop⟩ := hs.loop_of_more sbrk hn hmore hf hfp hex hnew hbase
    have hmem : (fun x => mem x ∨ Obtained r.regions x) =
        fun x => mem x ∨ (sbrk 0 ≤ x ∧ x < sbrk 0 + unit * moreUnits n) := by
      funext x
      simp only [hreg, Obtained, List.mem_singleton, exists_eq_left, hbytes]
    exact ⟨r, N, hmem ▸ hfound, hloop⟩

end Nascent.Malloc
