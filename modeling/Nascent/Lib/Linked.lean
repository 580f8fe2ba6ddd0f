import Mathlib.Data.List.Nodup
import Mathlib.Logic.Function.Basic

/-!
# Singly linked lists threaded through a `next` field

A kernel keeps its lists inside its records: each record has one `next` field, and a list is what
a start pointer reaches by following it. `Chain next start l` says that this is exactly the list
`l`, ended by a null pointer. A chain is determined by its start (`Chain.unique`), so it has no
repetition (`Chain.nodup`): a repeated node would reach two lists of different lengths.

The rest of the file is the effect on a chain of the writes that list code makes: writes to nodes
that are not on it (`Chain.update_of_notMem`), a new last node (`Chain.set_last`), the removal of an inner
node (`Chain.unlink`), and a copy of a node in its place (`Chain.replace`). `lastFrom`, `firstFrom`, and `nodesFrom` are the loops such code
runs, the walk to the last node, the search for the first node with a property, and the walk over
all nodes, each bounded by a fuel.
-/

namespace Nascent.Linked

variable {α : Type*} {next next' : α → Option α} {start : Option α} {a b e p : α} {l l₁ l₂ : List α}

/-- Following `next` from `start` visits exactly the nodes `l`, in this order, and then ends. -/
def Chain (next : α → Option α) : Option α → List α → Prop
  | start, [] => start = none
  | start, a :: l => start = some a ∧ Chain next (next a) l

@[simp] theorem chain_nil : Chain next start [] ↔ start = none := Iff.rfl

@[simp] theorem chain_cons : Chain next start (a :: l) ↔ start = some a ∧ Chain next (next a) l :=
  Iff.rfl

/-- A chain can be checked by following it. -/
instance Chain.decidable [DecidableEq α] (next : α → Option α) :
    ∀ start l, Decidable (Chain next start l)
  | start, [] => inferInstanceAs (Decidable (start = none))
  | start, a :: l =>
    have := Chain.decidable next (next a) l
    inferInstanceAs (Decidable (start = some a ∧ Chain next (next a) l))

/-- A start pointer reaches at most one list. -/
theorem Chain.unique : ∀ {start : Option α} {l l' : List α},
    Chain next start l → Chain next start l' → l = l'
  | _, [], [], _, _ => rfl
  | _, [], _ :: _, h, h' => by simp_all
  | _, _ :: _, [], h, h' => by simp_all
  | _, a :: l, b :: l', ⟨ha, h⟩, ⟨hb, h'⟩ => by
    obtain rfl : a = b := by rw [ha] at hb; exact Option.some.inj hb
    rw [Chain.unique h h']

/-- A chain through a node reaches what follows the node from the node's own link. -/
theorem Chain.tail_of_append : ∀ {start : Option α} {l₁ : List α},
    Chain next start (l₁ ++ a :: l₂) → Chain next (next a) l₂
  | _, [], h => h.2
  | _, _ :: _, h => Chain.tail_of_append h.2

/-- A chain visits no node twice. -/
theorem Chain.nodup : ∀ {start : Option α} {l : List α}, Chain next start l → l.Nodup
  | _, [], _ => List.nodup_nil
  | start, a :: l, h => by
    refine List.nodup_cons.mpr ⟨fun hmem => ?_, Chain.nodup h.2⟩
    -- A second visit of `a` would end the list after `a` in two different places.
    obtain ⟨l₁, l₂, rfl⟩ := List.append_of_mem hmem
    have heq : l₁ ++ a :: l₂ = l₂ := Chain.unique h.2 (Chain.tail_of_append h.2)
    have hlen := congrArg List.length heq
    simp at hlen
    omega

/-- A chain only depends on the links of the nodes it visits. -/
theorem Chain.congr : ∀ {start : Option α} {l : List α}, Chain next start l →
    (∀ a ∈ l, next' a = next a) → Chain next' start l
  | _, [], h, _ => h
  | _, a :: l, h, hn => by
    refine ⟨h.1, ?_⟩
    rw [hn a (List.mem_cons_self ..)]
    exact Chain.congr h.2 fun b hb => hn b (List.mem_cons_of_mem _ hb)

/-- The start of a chain, from its list of nodes. -/
theorem Chain.start_eq (h : Chain next start l) : start = l.head? := by
  cases l with
  | nil => exact h
  | cons a l => exact h.1

section Update

variable [DecidableEq α]

/-- A write to the link of a node off the chain leaves the chain. -/
theorem Chain.update_of_notMem (h : Chain next start l) (ha : a ∉ l) (v : Option α) :
    Chain (Function.update next a v) start l :=
  h.congr fun _ hb => Function.update_of_ne (ne_of_mem_of_not_mem hb ha) ..

/-- The node `e` of a chain becomes its last but one node, before `p`: what `e.next = p;
p.next = NULL` does, whatever followed `e` before. -/
theorem Chain.set_last : ∀ {start : Option α} {l₁ : List α}, Chain next start (l₁ ++ e :: l₂) →
    p ∉ l₁ → p ≠ e →
    Chain (Function.update (Function.update next e (some p)) p none) start (l₁ ++ [e, p])
  | _, [], h, _, hpe => by
    refine ⟨h.1, ?_, ?_⟩
    · rw [Function.update_of_ne hpe.symm, Function.update_self]
    · rw [chain_nil, Function.update_self]
  | _, c :: l₁, h, hp, hpe => by
    have hce : c ≠ e := by
      rintro rfl
      exact (List.nodup_cons.mp h.nodup).1 (by simp)
    have hcp : c ≠ p := fun hc => hp (by simp [hc])
    refine ⟨h.1, ?_⟩
    rw [Function.update_of_ne hcp, Function.update_of_ne hce]
    exact Chain.set_last h.2 (fun hm => hp (List.mem_cons_of_mem _ hm)) hpe

/-- The node `a` leaves a chain in which it follows `b`: what `b.next = a.next; a.next = NULL`
does. -/
theorem Chain.unlink : ∀ {start : Option α} {l₁ : List α}, Chain next start (l₁ ++ b :: a :: l₂) →
    Chain (Function.update (Function.update next b (next a)) a none) start (l₁ ++ b :: l₂)
  | start, [], h => by
    have hnd := h.nodup
    simp only [List.nil_append, List.nodup_cons, List.mem_cons, not_or] at hnd
    obtain ⟨⟨hba, hbl⟩, hal, -⟩ := hnd
    refine ⟨h.1, ?_⟩
    rw [Function.update_of_ne hba, Function.update_self]
    exact (h.2.2.update_of_notMem hbl _).update_of_notMem hal _
  | _, c :: l₁, h => by
    have hnd := (List.nodup_cons.mp h.nodup).1
    have hca : c ≠ a := fun hc => hnd (by simp [hc])
    have hcb : c ≠ b := fun hc => hnd (by simp [hc])
    refine ⟨h.1, ?_⟩
    rw [Function.update_of_ne hca, Function.update_of_ne hcb]
    exact Chain.unlink h.2

/-- A node `p` off the chain takes the place of the node `b`, which keeps its link: what `e.next = p; *p = *b`
does, where `b` follows `e`. -/
theorem Chain.replace : ∀ {start : Option α} {l₁ : List α}, Chain next start (l₁ ++ e :: b :: l₂) →
    p ∉ l₁ ++ e :: b :: l₂ →
    Chain (Function.update (Function.update next e (some p)) p (next b)) start (l₁ ++ e :: p :: l₂)
  | _, [], h, hp => by
    simp only [List.nil_append, List.mem_cons, not_or] at hp
    obtain ⟨hpe, -, hpl⟩ := hp
    have hel : e ∉ l₂ := fun hm => (List.nodup_cons.mp h.nodup).1 (List.mem_cons_of_mem _ hm)
    refine ⟨h.1, ?_, ?_⟩
    · rw [Function.update_of_ne (Ne.symm hpe), Function.update_self]
    · rw [Function.update_self]
      exact (h.2.2.update_of_notMem hel _).update_of_notMem hpl _
  | _, c :: l₁, h, hp => by
    have hce : c ≠ e := by
      rintro rfl
      exact (List.nodup_cons.mp h.nodup).1 (by simp)
    simp only [List.cons_append, List.mem_cons, not_or] at hp
    refine ⟨h.1, ?_⟩
    rw [Function.update_of_ne (Ne.symm hp.1), Function.update_of_ne hce]
    exact Chain.replace h.2 hp.2

end Update

/-! ## The loops of list code -/

/-- The walk to the last node: `while (t->next != NULL) t = t->next`, for at most `fuel` nodes. -/
def lastFrom (next : α → Option α) : ℕ → α → Option α
  | 0, _ => none
  | fuel + 1, t =>
    match next t with
    | none => some t
    | some u => lastFrom next fuel u

/-- On a chain no longer than the fuel, the walk ends at the chain's last node. -/
theorem lastFrom_of_chain : ∀ {l : List α} {fuel : ℕ} {t : α}, Chain next (some t) (l ++ [a]) →
    (l ++ [a]).length ≤ fuel → lastFrom next fuel t = some a
  | [], fuel + 1, t, h, _ => by
    obtain ⟨rfl⟩ : t = a := Option.some.inj h.1
    simp [lastFrom, chain_nil.mp h.2]
  | b :: l, fuel + 1, t, h, hle => by
    obtain rfl : t = b := Option.some.inj h.1
    simp only [List.cons_append, List.length_cons] at hle
    have h2 : Chain next (next t) (l ++ [a]) := h.2
    cases hn : next t with
    | none =>
      rw [hn] at h2
      have := h2.start_eq
      cases l <;> simp at this
    | some u =>
      simp only [lastFrom, hn]
      exact lastFrom_of_chain (hn ▸ h2) (by omega)

/-- The search for the first node with a property, and the node before it, among at most `fuel`
nodes: `prev = NULL; while (t != NULL && !p(t)) { prev = t; t = t->next; }`. -/
def firstFrom (next : α → Option α) (p : α → Bool) :
    ℕ → Option α → Option α → Option (Option (Option α × α))
  | 0, _, _ => none
  | _ + 1, _, none => some none
  | fuel + 1, prev, some t =>
    if p t then some (some (prev, t)) else firstFrom next p fuel (some t) (next t)

/-- The nodes that a walk to the end visits, if they are fewer than `fuel`. -/
def nodesFrom (next : α → Option α) : ℕ → Option α → Option (List α)
  | 0, _ => none
  | _ + 1, none => some []
  | fuel + 1, some t => (nodesFrom next fuel (next t)).map (t :: ·)

/-- On a chain, the walk visits the chain. -/
theorem nodesFrom_of_chain : ∀ {l : List α} {fuel : ℕ} {start : Option α}, Chain next start l →
    l.length < fuel → nodesFrom next fuel start = some l
  | [], _ + 1, _, h, _ => by rw [chain_nil.mp h]; rfl
  | a :: l, fuel + 1, _, h, hlt => by
    rw [h.1, nodesFrom, nodesFrom_of_chain h.2 (by simpa using hlt), Option.map_some]

/-- On a chain without such a node, the search finds none. -/
theorem firstFrom_of_forall {p : α → Bool} : ∀ {l : List α} {fuel : ℕ} {prev start : Option α},
    Chain next start l → l.length < fuel → (∀ a ∈ l, p a = false) →
    firstFrom next p fuel prev start = some none
  | [], _ + 1, _, _, h, _, _ => by rw [chain_nil.mp h]; rfl
  | a :: l, fuel + 1, _, _, h, hlt, hp => by
    rw [h.1, firstFrom, hp a (List.mem_cons_self ..), if_neg Bool.false_ne_true]
    exact firstFrom_of_forall h.2 (by simpa using hlt) fun b hb => hp b (List.mem_cons_of_mem _ hb)

/-- On a chain with such a node, the search finds the first one. -/
theorem firstFrom_of_append {p : α → Bool} : ∀ {l₁ : List α} {fuel : ℕ} {prev start : Option α},
    Chain next start (l₁ ++ a :: l₂) → (l₁ ++ a :: l₂).length < fuel → (∀ b ∈ l₁, p b = false) →
    p a = true → firstFrom next p fuel prev start = some (some (l₁.getLast?.or prev, a))
  | [], _ + 1, _, _, h, _, _, hp => by
    rw [h.1, firstFrom, hp, if_pos rfl]
    rfl
  | b :: l₁, fuel + 1, _, _, h, hlt, hp, ha => by
    rw [h.1, firstFrom, hp b (List.mem_cons_self ..), if_neg Bool.false_ne_true]
    rw [firstFrom_of_append h.2 (by simpa using hlt) (fun c hc => hp c (List.mem_cons_of_mem _ hc))
      ha]
    cases l₁ with
    | nil => rfl
    | cons c l₁ => simp [List.getLast?_eq_some_getLast]

end Nascent.Linked
