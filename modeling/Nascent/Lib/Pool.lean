import Mathlib.Data.List.Basic
import Mathlib.Data.List.Perm.Basic
import Nascent.Lib.Runs

/-!
# A pool that is a queue

The elements of a pool are free or taken. The one that has been free for the longest time is handed out,
and one that is taken can be given back. Whoever has taken an element may use it, which does not change the
pool.

A pool keeps account of the elements that it has handed out and of those that have become free. Then what it
has handed out is what has become free first, without the elements that are still free (`Pool.Fair`), over
any run (`fair_of_run`).
-/

namespace Nascent

open Runs

variable {α : Type*}

/-- What happened to the elements of a pool. -/
structure History (α : Type*) where
  /-- The elements that are taken. -/
  taken : List α
  /-- The elements that were handed out, in this order. -/
  handedOut : List α
  /-- The elements that became free, in this order. -/
  becameFree : List α

namespace History

/-- All elements are free. -/
def start (all : List α) : History α := ⟨[], [], all⟩

/-- An element is handed out. -/
def take (h : History α) (a : α) : History α :=
  { h with taken := a :: h.taken, handedOut := h.handedOut ++ [a] }

/-- An element is given back. -/
def put [DecidableEq α] (h : History α) (a : α) : History α :=
  { h with taken := h.taken.erase a, becameFree := h.becameFree ++ [a] }

end History

/-- A pool. -/
structure Pool (α : Type*) where
  /-- What happened to its elements. -/
  history : History α
  /-- The elements that are free, in the order in which they became free. -/
  free : List α

/-- What is done with a pool. -/
inductive PoolOp (α : Type*)
  /-- The next element is taken. -/
  | take
  /-- An element is given back. -/
  | put (a : α)
  /-- An element that is taken is used. -/
  | use (a : α)

namespace Pool

variable {p q : Pool α} {all : List α} {op : PoolOp α} {ops : List (PoolOp α)}

/-- All elements are free. -/
def start (all : List α) : Pool α := ⟨History.start all, all⟩

/-- One operation. -/
def step [DecidableEq α] (p : Pool α) : PoolOp α → Option (Pool α)
  | .take =>
    match p.free with
    | [] => none
    | a :: l => some ⟨p.history.take a, l⟩
  | .put a => if a ∈ p.history.taken then some ⟨p.history.put a, p.free ++ [a]⟩ else none
  | .use a => if a ∈ p.history.taken then some p else none

/-- The elements are handed out in the order in which they became free, and each one is free or taken. -/
structure Fair (all : List α) (p : Pool α) : Prop where
  /-- The elements that became free are those that were handed out and those that are still free. -/
  order : p.history.becameFree = p.history.handedOut ++ p.free
  /-- All elements are free or taken, each once. -/
  perm : (p.free ++ p.history.taken).Perm all

theorem fair_start : (start all).Fair all := ⟨rfl, by rw [start, History.start, List.append_nil]⟩

/-- What an operation does. -/
theorem step_cases [DecidableEq α] (h : p.step op = some q) :
    (∃ a l, op = .take ∧ p.free = a :: l ∧ q = ⟨p.history.take a, l⟩) ∨
      (∃ a, op = .put a ∧ a ∈ p.history.taken ∧ q = ⟨p.history.put a, p.free ++ [a]⟩) ∨
      (∃ a, op = .use a ∧ a ∈ p.history.taken ∧ q = p) := by
  cases op with
  | take =>
    rw [step] at h
    cases hfree : p.free with
    | nil => simp [hfree] at h
    | cons a l =>
      rw [hfree] at h
      exact .inl ⟨a, l, rfl, rfl, (Option.some.inj h).symm⟩
  | put a =>
    rw [step] at h
    split_ifs at h with ha
    exact .inr (.inl ⟨a, rfl, ha, (Option.some.inj h).symm⟩)
  | use a =>
    rw [step] at h
    split_ifs at h with ha
    exact .inr (.inr ⟨a, rfl, ha, (Option.some.inj h).symm⟩)

/-- One operation keeps a pool fair. -/
theorem Fair.step [DecidableEq α] (h : p.Fair all) (hstep : p.step op = some q) : q.Fair all := by
  obtain ⟨horder, hperm⟩ := h
  rcases step_cases hstep with ⟨a, l, rfl, hfree, rfl⟩ | ⟨a, rfl, ha, rfl⟩ | ⟨a, rfl, -, rfl⟩
  · rw [hfree] at horder hperm
    refine ⟨?_, ?_⟩
    · rw [History.take, List.append_assoc]
      exact horder
    · exact List.perm_middle.trans hperm
  · refine ⟨?_, ?_⟩
    · rw [History.put, ← List.append_assoc, ← horder]
    · refine List.Perm.trans ?_ hperm
      rw [History.put, List.append_assoc]
      exact (List.perm_cons_erase ha).symm.append_left _
  · exact ⟨horder, hperm⟩

/-- A pool is fair after any run. -/
theorem fair_of_run [DecidableEq α] (h : run step (start all) ops = some q) : q.Fair all :=
  (visits_of_run h).invariant' (fun _ _ _ hfair hstep => hfair.step hstep) fair_start

end Pool

end Nascent
