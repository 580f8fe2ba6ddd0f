import Nascent.Lib.Pool
import Nascent.Sched.Boot

/-!
# The free PCBs as a queue

Whatever is done between two calls to the tasks that have a PCB, `fetch_free_pcb` and `append_in_free_list`
make the list of free PCBs a queue: a PCB that is appended is handed out once all those in front of it were.
The links of the PCBs that are taken can have any value, since a PCB that is appended is linked anew.

The pid of a task is computed from the address of its PCB (`pidOf`), and it is the index of the PCB. So
`sys_exit` and the others that index `pcb_arr` by a pid find the task.
-/

namespace Nascent

open Linked (Chain)
open Runs

/-! ## Addresses -/

/-- `&pcb_arr[i]`: a PCB has 4832 bytes. -/
def pcbAddr (pcbArr : BitVec 64) (i : ℕ) : BitVec 64 := pcbArr + BitVec.ofNat 64 (4832 * i)

/-- The pid that `fetch_free_pcb` computes. -/
def pidOf (pcbArr freePcb : BitVec 64) : BitVec 32 := ((freePcb - pcbArr) / 4832).setWidth 32

/-- The pid is the index of the PCB. -/
theorem toInt_pidOf (pcbArr : BitVec 64) {i : ℕ} (hi : i < numPcb) :
    (pidOf pcbArr (pcbAddr pcbArr i)).toInt = i := by
  have hlt : i < 1000 := hi
  have hsub : pcbAddr pcbArr i - pcbArr = BitVec.ofNat 64 (4832 * i) := by
    rw [pcbAddr, BitVec.add_comm, BitVec.add_sub_cancel]
  have hindex : pidOf pcbArr (pcbAddr pcbArr i) = BitVec.ofNat 32 i := by
    apply BitVec.eq_of_toNat_eq
    have hsize : (4832 : BitVec 64).toNat = 4832 := rfl
    rw [pidOf, hsub, BitVec.toNat_setWidth, BitVec.toNat_udiv, BitVec.toNat_ofNat, BitVec.toNat_ofNat, hsize,
      Nat.mod_eq_of_lt (by omega : 4832 * i < 2 ^ 64), Nat.mul_div_cancel_left i (by decide)]
  rw [hindex, BitVec.toInt_ofNat', Int.bmod_eq_of_le (by omega) (by omega)]

/-! ## The operations -/

/-- The PCBs, with what happened to them. -/
structure Pcbs where
  /-- The process table and its lists. -/
  sched : Sched
  /-- What happened. -/
  history : History ℕ

/-- What is done with the PCBs. -/
inductive PcbOp
  /-- `fetch_free_pcb`. -/
  | fetch
  /-- `append_in_free_list`. -/
  | append (task : ℕ)
  /-- The link of a PCB is set. -/
  | setNext (task : ℕ) (next : Option ℕ)

/-- The operations on a pool. -/
def PcbOp.toPool : PcbOp → PoolOp ℕ
  | .fetch => .take
  | .append task => .put task
  | .setNext task _ => .use task

namespace Pcbs

/-- All PCBs are free, in the order of `pcb_arr`. -/
def start : Pcbs := ⟨Sched.blank.createPcbList, History.start (List.range numPcb)⟩

/-- One operation. The last two are on PCBs that are taken. -/
def step (s : Pcbs) : PcbOp → Option Pcbs
  | .fetch => s.sched.fetchFreePcb.map fun r => ⟨r.2, s.history.take r.1⟩
  | .append task =>
    if task ∈ s.history.taken then (s.sched.appendInFreeList task).map fun t => ⟨t, s.history.put task⟩
    else none
  | .setNext task next =>
    if task ∈ s.history.taken then
      some { s with sched := { s.sched with next := Function.update s.sched.next task next } }
    else none

/-- The pool that the PCBs are. -/
def poolStep (p : Pool ℕ) (op : PcbOp) : Option (Pool ℕ) := p.step op.toPool

/-- The free PCBs are those of a pool, and a task has the index of its PCB for its pid. -/
structure Matches (s : Pcbs) (p : Pool ℕ) : Prop where
  /-- The links. -/
  chain : Chain s.sched.next s.sched.freePcbHead p.free
  /-- The account. -/
  history : s.history = p.history
  /-- The pids. -/
  pid : ∀ i ∈ s.history.taken, (s.sched.tasks i).pid = i
  /-- Each PCB is free or taken. -/
  fair : p.Fair (List.range numPcb)

variable {s s' : Pcbs} {p q : Pool ℕ} {op : PcbOp} {ops : List PcbOp} {task : ℕ}

/-- `create_pcb_list` links all PCBs. -/
theorem matches_start : Matches start (Pool.start (List.range numPcb)) := by
  obtain ⟨next, head, heq, hchain⟩ := Sched.foldl_linkPcb_range numPcb
  refine ⟨?_, rfl, fun i hi => absurd hi List.not_mem_nil, Pool.fair_start⟩
  unfold start Sched.createPcbList
  rw [heq, Pool.start, List.range_eq_range']
  exact hchain

/-- The PCBs of a pool. -/
theorem Matches.nodup (h : Matches s p) : (p.free ++ s.history.taken).Nodup := by
  rw [h.history]
  exact h.fair.perm.nodup_iff.mpr List.nodup_range

/-- A PCB that is taken is not free. -/
theorem Matches.not_mem_free (h : Matches s p) (ht : task ∈ s.history.taken) : task ∉ p.free := fun hf =>
  List.disjoint_of_nodup_append h.nodup hf ht

/-- A PCB is one of the process table. -/
theorem Matches.lt (h : Matches s p) (ht : task ∈ s.history.taken) : task < numPcb := by
  rw [h.history] at ht
  exact List.mem_range.mp (h.fair.perm.subset (List.mem_append_right _ ht))

/-- The list has no more PCBs than there are. -/
theorem Matches.length_le (h : Matches s p) : p.free.length ≤ numPcb := by
  have hlen := h.fair.perm.length_eq
  rw [List.length_append, List.length_range] at hlen
  omega

/-- `fetch_free_pcb` takes the first PCB of the list, if there is one. -/
theorem Matches.fetch (h : Matches s p) : s.step .fetch =
    p.free.head?.map fun i =>
      ⟨{ s.sched with
          freePcbHead := s.sched.next i
          next := Function.update s.sched.next i none
          tasks := s.sched.tasks.fetch i (s.sched.born + 1)
          born := s.sched.born + 1 }, s.history.take i⟩ := by
  have hhead := h.chain.start_eq
  unfold step Sched.fetchFreePcb
  cases hfree : p.free with
  | nil =>
    rw [hfree] at hhead
    rw [hhead]
    rfl
  | cons i l =>
    rw [hfree] at hhead
    rw [hhead]
    rfl

/-- `append_in_free_list` appends a PCB that is taken. -/
theorem Matches.append (h : Matches s p) (ht : task ∈ s.history.taken) : ∃ next head,
    s.step (.append task) =
      some ⟨{ s.sched with next := next, freePcbHead := head }, s.history.put task⟩ ∧
    Chain next head (p.free ++ [task]) := by
  have hnot := h.not_mem_free ht
  have hchain := h.chain
  unfold step Sched.appendInFreeList
  dsimp only
  rw [if_pos ht]
  cases hhead : s.sched.freePcbHead with
  | none =>
    rw [hhead] at hchain
    have hnil : p.free = [] := List.head?_eq_none_iff.mp hchain.start_eq.symm
    rw [hnil]
    exact ⟨_, _, rfl, rfl, Function.update_self ..⟩
  | some head =>
    rw [hhead] at hchain
    obtain ⟨next, heq, hlist, -, -⟩ := Sched.linkLast_spec (s := s.sched) hchain h.length_le
      fun hmem => absurd hmem hnot
    rw [if_neg hnot] at hlist
    refine ⟨next, some head, ?_, hlist⟩
    dsimp only
    rw [heq, Option.map_some, hhead]

/-- One operation is one of the pool. -/
theorem Matches.step (h : Matches s p) (hstep : s.step op = some s') :
    ∃ q, poolStep p op = some q ∧ Matches s' q := by
  have hnd := h.nodup
  cases op with
  | fetch =>
    rw [h.fetch] at hstep
    cases hfree : p.free with
    | nil => simp [hfree] at hstep
    | cons i l =>
      have hchain := h.chain
      rw [hfree] at hstep hchain hnd
      obtain rfl := Option.some.inj hstep
      have hpool : poolStep p .fetch = some ⟨p.history.take i, l⟩ := by
        rw [poolStep, PcbOp.toPool, Pool.step, hfree]
      have hi : i ∉ l := (List.nodup_cons.mp hchain.nodup).1
      refine ⟨_, hpool, hchain.2.update_of_notMem hi _, by rw [h.history], fun j hj => ?_,
        h.fair.step hpool⟩
      rcases List.mem_cons.mp (show j ∈ i :: s.history.taken from hj) with rfl | hmem
      · exact congrArg Task.pid (Tasks.modify_self ..)
      · have hne : j ≠ i := by
          rintro rfl
          exact (List.nodup_cons.mp hnd).1 (List.mem_append_right l hmem)
        dsimp only
        rw [Tasks.fetch, Tasks.modify_of_ne _ _ _ hne]
        exact h.pid j hmem
  | append task =>
    have ht : task ∈ s.history.taken := by
      by_contra ht
      simp [Pcbs.step, ht] at hstep
    obtain ⟨next, head, heq, hchain⟩ := h.append ht
    rw [heq] at hstep
    obtain rfl := Option.some.inj hstep
    have hpool : poolStep p (.append task) = some ⟨p.history.put task, p.free ++ [task]⟩ := by
      rw [poolStep, PcbOp.toPool, Pool.step, if_pos (h.history ▸ ht)]
    exact ⟨_, hpool, hchain, by rw [h.history], fun j hj => h.pid j (List.mem_of_mem_erase hj),
      h.fair.step hpool⟩
  | setNext task next =>
    have ht : task ∈ s.history.taken := by
      by_contra ht
      simp [Pcbs.step, ht] at hstep
    rw [Pcbs.step, if_pos ht] at hstep
    obtain rfl := Option.some.inj hstep
    have hpool : poolStep p (.setNext task next) = some p := by
      rw [poolStep, PcbOp.toPool, Pool.step, if_pos (h.history ▸ ht)]
    exact ⟨p, hpool, h.chain.update_of_notMem (h.not_mem_free ht) _, h.history, h.pid, h.fair⟩

/-- A run is one of the pool. -/
theorem exists_matches (h : run step start ops = some s) :
    ∃ p, run poolStep (Pool.start (List.range numPcb)) ops = some p ∧ Matches s p :=
  run_simulates (C := fun _ _ => True) (D := fun _ _ => True)
    (fun _ _ _ _ hmatches _ _ hstep => hmatches.step hstep) matches_start
    (along_of_forall fun _ _ => trivial) (along_of_forall fun _ _ => trivial) h

/-- After any run of `fetch_free_pcb` and `append_in_free_list`, with the links of the PCBs that are taken
set in any way, the list of free PCBs is that of a pool after the same run: the PCBs were handed out in the
order in which they became free, and each one is free or taken, once. The operations are only refused as
those of the pool are. The pid of a task is what is computed from the address of its PCB, `pcb_arr` has the
task at its pid, and the pids differ. -/
theorem freePcbs_fifo (pcbArr : BitVec 64) (ops : List PcbOp) (s : Pcbs) (h : run step start ops = some s) :
    ∃ free, Chain s.sched.next s.sched.freePcbHead free ∧
      run poolStep (Pool.start (List.range numPcb)) ops = some ⟨s.history, free⟩ ∧
      s.history.becameFree = s.history.handedOut ++ free ∧
      (free ++ s.history.taken).Perm (List.range numPcb) ∧
      (∀ r, s.sched.fetchFreePcb.map Prod.fst = some r ↔ free.head? = some r) ∧
      (∀ task ∈ s.history.taken, ∃ s', s.step (.append task) = some s') ∧
      (∀ task ∈ s.history.taken,
        (s.sched.tasks task).pid = (pidOf pcbArr (pcbAddr pcbArr task)).toInt ∧
        pcbAddr pcbArr (s.sched.tasks task).pid.toNat = pcbAddr pcbArr task ∧
        (s.sched.tasks task).pid < numPcb) ∧
      (s.history.taken.map fun task => (s.sched.tasks task).pid).Nodup := by
  obtain ⟨⟨history, free⟩, hrun, hmatches⟩ := exists_matches h
  obtain rfl : s.history = history := hmatches.history
  refine ⟨free, hmatches.chain, hrun, hmatches.fair.order, hmatches.fair.perm, fun r => ?_,
    fun task ht => ?_, fun task ht => ?_, ?_⟩
  · have hhead : s.sched.freePcbHead = free.head? := hmatches.chain.start_eq
    rw [← hhead, Sched.fetchFreePcb]
    cases s.sched.freePcbHead with
    | none => exact Iff.rfl
    | some pcb => exact Iff.rfl
  · obtain ⟨next, head, heq, -⟩ := hmatches.append ht
    exact ⟨_, heq⟩
  · have hpid := hmatches.pid task ht
    have hlt := hmatches.lt ht
    rw [hpid, toInt_pidOf pcbArr hlt]
    exact ⟨rfl, rfl, Int.ofNat_lt.mpr hlt⟩
  · refine List.Nodup.map_on (fun i hi j hj heq => ?_) (List.nodup_append.mp hmatches.nodup).2.1
    rw [hmatches.pid i hi, hmatches.pid j hj] at heq
    exact Int.ofNat_inj.mp heq

/-- The first PCB is handed out, linked to itself, and appended. -/
theorem freePcbs_fifo_again : ∃ s, run step start [.fetch, .setNext 0 (some 0), .append 0] = some s ∧
    ∃ free, Chain s.sched.next s.sched.freePcbHead free ∧
      s.history.becameFree = s.history.handedOut ++ free := by
  obtain ⟨s₁, h₁, ht⟩ : ∃ s₁, step start .fetch = some s₁ ∧ s₁.history.taken = [0] := by
    rw [matches_start.fetch, Pool.start, List.head?_range, if_neg (by decide)]
    exact ⟨_, rfl, rfl⟩
  have hmem : 0 ∈ s₁.history.taken := by simp [ht]
  obtain ⟨p₁, -, hm₁⟩ := matches_start.step h₁
  have h₂ : step s₁ (.setNext 0 (some 0)) = some _ := if_pos hmem
  obtain ⟨p₂, -, hm₂⟩ := hm₁.step h₂
  obtain ⟨next, head, h₃, -⟩ := hm₂.append hmem
  obtain ⟨s₃, hrun⟩ : ∃ s₃, run step start [.fetch, .setNext 0 (some 0), .append 0] = some s₃ := by
    rw [run_cons, h₁, Option.bind_some, run_cons, h₂, Option.bind_some, run_cons, h₃]
    exact ⟨_, rfl⟩
  obtain ⟨free, hchain, -, horder, -⟩ := freePcbs_fifo 0xffffffff80300000 _ _ hrun
  exact ⟨s₃, hrun, free, hchain, horder⟩

end Pcbs

end Nascent
