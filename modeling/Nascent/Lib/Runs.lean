import Mathlib.Data.List.Basic

/-!
# Runs of a deterministic system

A system is a step function that takes a state and an action to the next state, or to none where
the action is not possible. A run is a list of actions, and `run` gives the state it ends in.
`Along` says that every step of a run meets a condition on the action and the state before it, and
`Visits` that a run passes through a state. An invariant that every step meeting the condition
preserves holds in every state that such a run visits (`Visits.invariant`).
-/

namespace Nascent.Runs

variable {σ α : Type*} {step : σ → α → Option σ} {C D : σ → α → Prop} {Inv : σ → Prop}
  {s s' t : σ} {a : α} {as bs : List α}

/-- The state that a list of actions leads to. -/
def run (step : σ → α → Option σ) : σ → List α → Option σ
  | s, [] => some s
  | s, a :: as => (step s a).bind (run step · as)

@[simp] theorem run_nil : run step s [] = some s := rfl

@[simp] theorem run_cons : run step s (a :: as) = (step s a).bind (run step · as) := rfl

/-- A run of two parts goes through the state after the first. -/
theorem run_append : run step s (as ++ bs) = (run step s as).bind (run step · bs) := by
  induction as generalizing s with
  | nil => rfl
  | cons a as ih =>
    simp only [List.cons_append, run_cons, Option.bind_assoc]
    exact congrArg _ (funext fun s' => ih)

/-- A loop with a counter, whose last repetition comes behind the others. -/
theorem foldlM_range_succ (step : σ → ℕ → Option σ) (s : σ) (n : ℕ) :
    (List.range (n + 1)).foldlM step s = ((List.range n).foldlM step s).bind (step · n) := by
  rw [List.range_succ, List.foldlM_append]
  refine congrArg _ (funext fun s' => ?_)
  rw [List.foldlM_cons]
  exact bind_pure _

/-- Every step of the run, from the state before it, meets the condition `C`. -/
def Along (step : σ → α → Option σ) (C : σ → α → Prop) : σ → List α → Prop
  | _, [] => True
  | s, a :: as => C s a ∧ ∀ s', step s a = some s' → Along step C s' as

/-- Whether every step of a run meets a decidable condition is decidable, by running it. -/
instance Along.decidable [∀ s a, Decidable (C s a)] :
    ∀ s as, Decidable (Along step C s as)
  | _, [] => isTrue trivial
  | s, a :: as =>
    match h : step s a with
    | none => decidable_of_iff (C s a)
        ⟨fun hc => ⟨hc, fun s' hs => by rw [h] at hs; cases hs⟩, And.left⟩
    | some t =>
      have := Along.decidable t as
      decidable_of_iff (C s a ∧ Along step C t as)
        ⟨fun hc => ⟨hc.1, fun s' hs => by rw [h] at hs; exact Option.some.inj hs ▸ hc.2⟩,
          fun hc => ⟨hc.1, hc.2 t h⟩⟩

/-- A condition that always holds is met by the steps of every run. -/
theorem along_of_forall (h : ∀ s a, C s a) : Along step C s as := by
  induction as generalizing s with
  | nil => trivial
  | cons a as ih => exact ⟨h s a, fun s' _ => ih⟩

/-- A property of all the actions of a run is a condition that its steps meet. -/
theorem Along.and_forall {P : α → Prop} (h : Along step C s as) (hP : ∀ a ∈ as, P a) :
    Along step (fun s a => C s a ∧ P a) s as := by
  induction as generalizing s with
  | nil => trivial
  | cons a as ih =>
    exact ⟨⟨h.1, hP a (List.mem_cons_self ..)⟩, fun s' hs =>
      ih (h.2 s' hs) fun b hb => hP b (List.mem_cons_of_mem _ hb)⟩

/-- Two conditions that all steps of a run meet. -/
theorem Along.and (h : Along step C s as) (h' : Along step D s as) :
    Along step (fun s a => C s a ∧ D s a) s as := by
  induction as generalizing s with
  | nil => trivial
  | cons a as ih => exact ⟨⟨h.1, h'.1⟩, fun s' hs => ih (h.2 s' hs) (h'.2 s' hs)⟩

/-- A run that goes on from where another ends. -/
theorem Along.append (h : Along step C s as) (hbs : ∀ t ∈ run step s as, Along step C t bs) :
    Along step C s (as ++ bs) := by
  induction as generalizing s with
  | nil => exact hbs s rfl
  | cons b as ih =>
    refine ⟨h.1, fun s' hs => ih (h.2 s' hs) fun t ht => hbs t ?_⟩
    rw [run_cons, hs]
    exact ht

/-- The first part of a run. -/
theorem Along.left (h : Along step C s (as ++ bs)) : Along step C s as := by
  induction as generalizing s with
  | nil => trivial
  | cons b as ih => exact ⟨h.1, fun s' hs => ih (h.2 s' hs)⟩

/-- One more step at the end of a run. -/
theorem Along.concat (h : Along step C s as) (ha : ∀ t ∈ run step s as, C t a) :
    Along step C s (as ++ [a]) :=
  h.append fun t ht => ⟨ha t ht, fun _ _ => trivial⟩

/-- The steps of a run meet a condition, step by step: the action at any point of the run meets it
in the state before it. -/
theorem Along.at (h : Along step C s (as ++ a :: bs)) (hr : run step s as = some t) : C t a := by
  induction as generalizing s with
  | nil => exact Option.some.inj hr ▸ h.1
  | cons b as ih =>
    obtain ⟨s', hs, hr⟩ := Option.bind_eq_some_iff.mp hr
    exact ih (h.2 s' hs) hr

/-- Two conditions that are the same at each step of a run, by an invariant. -/
theorem Along.congr (h : Along step C s as) (hInv : Inv s)
    (hstep : ∀ s a s', Inv s → C s a → step s a = some s' → Inv s')
    {P Q : σ → α → Prop} (hiff : ∀ s a, Inv s → C s a → (P s a ↔ Q s a)) :
    Along step P s as ↔ Along step Q s as := by
  induction as generalizing s with
  | nil => exact Iff.rfl
  | cons a as ih =>
    refine and_congr (hiff s a hInv h.1) (forall_congr' fun s' => imp_congr_right fun hs => ?_)
    exact ih (h.2 s' hs) (hstep s a s' hInv h.1 hs)

/-- Two conditions that are the same at each step, by an invariant that the steps meeting one of them keep. -/
theorem along_iff {P Q : σ → α → Prop} (h : Inv s) (hiff : ∀ s a, Inv s → (P s a ↔ Q s a))
    (hstep : ∀ s a s', Inv s → Q s a → step s a = some s' → Inv s') :
    Along step P s as ↔ Along step Q s as := by
  induction as generalizing s with
  | nil => exact Iff.rfl
  | cons a as ih =>
    constructor
    · rintro ⟨hP, hrest⟩
      have hQ := (hiff s a h).mp hP
      exact ⟨hQ, fun s' hs => (ih (hstep s a s' h hQ hs)).mp (hrest s' hs)⟩
    · rintro ⟨hQ, hrest⟩
      exact ⟨(hiff s a h).mpr hQ, fun s' hs => (ih (hstep s a s' h hQ hs)).mpr (hrest s' hs)⟩

/-- The run passes through the state `t`, which may be its first or its last. -/
def Visits (step : σ → α → Option σ) (s : σ) (as : List α) (t : σ) : Prop :=
  ∃ bs cs, as = bs ++ cs ∧ run step s bs = some t

/-- A run visits the state it ends in. -/
theorem visits_of_run (h : run step s as = some t) : Visits step s as t :=
  ⟨as, [], (List.append_nil as).symm, h⟩

/-- A run visits the state it starts in. -/
theorem visits_start : Visits step s as s := ⟨[], as, rfl, rfl⟩

/-- A run visits what it visits after its first step. -/
theorem visits_cons (hs : step s a = some s') (h : Visits step s' as t) : Visits step s (a :: as) t := by
  obtain ⟨bs, cs, hb, hr⟩ := h
  refine ⟨a :: bs, cs, by rw [hb, List.cons_append], ?_⟩
  rw [run_cons, hs]
  exact hr

/-- A state that a run visits is its first or is visited after its first step. -/
theorem visits_cons_cases (h : Visits step s (a :: as) t) :
    t = s ∨ ∃ s', step s a = some s' ∧ Visits step s' as t := by
  obtain ⟨bs, cs, hb, hr⟩ := h
  cases bs with
  | nil => exact .inl (Option.some.inj hr).symm
  | cons b bs =>
    simp only [List.cons_append, List.cons.injEq] at hb
    obtain ⟨rfl, rfl⟩ := hb
    obtain ⟨s', hs, hr⟩ := Option.bind_eq_some_iff.mp hr
    exact .inr ⟨s', hs, bs, cs, rfl, hr⟩

/-- An invariant that the steps meeting `C` preserve holds in every state that a run of such
steps visits. -/
theorem Visits.invariant (hv : Visits step s as t) (hC : Along step C s as)
    (hstep : ∀ s a s', Inv s → C s a → step s a = some s' → Inv s') (h : Inv s) : Inv t := by
  induction as generalizing s with
  | nil =>
    obtain ⟨bs, cs, hb, hr⟩ := hv
    obtain ⟨rfl, -⟩ := List.append_eq_nil_iff.mp hb.symm
    exact Option.some.inj hr ▸ h
  | cons a as ih =>
    rcases visits_cons_cases hv with rfl | ⟨s', hs, hv⟩
    · exact h
    · exact ih hv (hC.2 s' hs) (hstep s a s' h hC.1 hs)

/-- An invariant that every step preserves holds in every state that a run visits. -/
theorem Visits.invariant' (hv : Visits step s as t)
    (hstep : ∀ s a s', Inv s → step s a = some s' → Inv s') (h : Inv s) : Inv t :=
  hv.invariant (along_of_forall fun _ _ => trivial) (fun s a s' hi _ => hstep s a s' hi) h

/-- A run of one system is a run of another, through related states, where each step of the first that meets
`C` is a step of the other, if the state of that meets `D`. -/
theorem run_simulates {τ : Type*} {step' : τ → α → Option τ} {D : τ → α → Prop} {R : σ → τ → Prop} {u : τ}
    (hstep : ∀ s u a s', R s u → C s a → D u a → step s a = some s' → ∃ u', step' u a = some u' ∧ R s' u')
    (h : R s u) (hC : Along step C s as) (hD : Along step' D u as) (hr : run step s as = some s') :
    ∃ u', run step' u as = some u' ∧ R s' u' := by
  induction as generalizing s u with
  | nil => exact ⟨u, rfl, Option.some.inj hr ▸ h⟩
  | cons a as ih =>
    obtain ⟨s₁, hs, hr⟩ := Option.bind_eq_some_iff.mp hr
    obtain ⟨u₁, hu, h₁⟩ := hstep s u a s₁ h hC.1 hD.1 hs
    obtain ⟨u', hu', h'⟩ := ih h₁ (hC.2 s₁ hs) (hD.2 u₁ hu) hr
    exact ⟨u', by rw [run_cons, hu]; exact hu', h'⟩

end Nascent.Runs
