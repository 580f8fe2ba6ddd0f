import Nascent.Lib.Linked
import Nascent.Proc.Fork

/-!
# The lists of VMAs

The VMAs of `vma_arr` with their links. `fork_process` copies each VMA of the parent by one assignment of
the whole struct, link included. So until the next VMA is linked behind it, a copy leads on to the rest of
the parent's own list, and the child's list is the copies so far and then the VMAs of the parent that are
still to be copied (`Forking`). The last copy has the null pointer from the last VMA of the parent.

The loop does what its counterpart on lists does (`forkVmas_rep`), which `Kernel.forkProcess` uses, and so
the child gets a deep copy (`fork_copies_vmas`).
-/

namespace Nascent.Proc

open Linked (Chain)

/-- `NUM_VMA`. -/
def numVma : ℕ := 5000

/-- `struct vma`, with its links. -/
structure VmaNode extends Vma where
  /-- `next`. -/
  next : Option ℕ
  /-- `prev`. -/
  prev : Option ℕ

/-- The VMAs and the memory. -/
structure VmaSys where
  /-- The memory. -/
  mm : Mm
  /-- `vma_arr`. -/
  vmaArr : ℕ → VmaNode
  /-- `free_vma_head`. -/
  freeVmaHead : Option ℕ
  /-- The field `task_mm->vma_head` of each task. -/
  vmaHead : ℕ → Option ℕ

namespace Pools

variable {p : Pools} {c q : ℕ} {cs fs : List ℕ} {ppml4 cpml4 : Word}

/-- A free VMA becomes the copy of another one, and its pages are copied. -/
theorem copyVma_cons (hfree : p.freeVmas = c :: fs) (hqc : q ≠ c) :
    copyVma ppml4 cpml4 (cs, p) q =
      (paged ((p.vmaArr q).pages.foldlM (Mm.forkPage ppml4 cpml4) p.mm)).bind fun mm =>
        pure (cs ++ [c], { p with
          mm := mm, freeVmas := fs, vmaArr := Function.update p.vmaArr c (p.vmaArr q) }) := by
  have hget : p.getFreeVma = (some c, { p with
      freeVmas := fs, vmaArr := Function.update p.vmaArr c ⟨0, 0, 0, .anon, 0, 0⟩ }) := by
    rw [getFreeVma, hfree]
  have harr : Function.update (Function.update p.vmaArr c ⟨0, 0, 0, .anon, 0, 0⟩) c
      (Function.update p.vmaArr c ⟨0, 0, 0, .anon, 0, 0⟩ q) =
        Function.update p.vmaArr c (p.vmaArr q) := by
    rw [Function.update_idem, Function.update_of_ne hqc]
  simp only [copyVma, hget, deref]
  change (paged ((Function.update (Function.update p.vmaArr c ⟨0, 0, 0, .anon, 0, 0⟩) c
    (Function.update p.vmaArr c ⟨0, 0, 0, .anon, 0, 0⟩ q) q).pages.foldlM
      (Mm.forkPage ppml4 cpml4) p.mm)).bind (fun mm => pure (cs ++ [c], { p with
        mm := mm
        freeVmas := fs
        vmaArr := Function.update (Function.update p.vmaArr c ⟨0, 0, 0, .anon, 0, 0⟩) c
          (Function.update p.vmaArr c ⟨0, 0, 0, .anon, 0, 0⟩ q) })) = _
  rw [harr, Function.update_of_ne hqc]

/-- The loop of `fork_process` over the VMAs of the parent takes the first free VMAs, and makes them copies
in order. With enough of them it can only run out of frames. -/
theorem copyVmas_spec (ppml4 cpml4 : Word) : ∀ (vmas cs : List ℕ) (p : Pools), vmas.length ≤ p.freeVmas.length →
    p.freeVmas.Nodup → (∀ v ∈ p.freeVmas, v ∉ vmas) →
    match vmas.foldlM (copyVma ppml4 cpml4) (cs, p) with
    | .error e => e = .outOfPages
    | .ok r => r.1 = cs ++ p.freeVmas.take vmas.length ∧
        r.2.freeVmas = p.freeVmas.drop vmas.length ∧
        (∀ v ∉ p.freeVmas.take vmas.length, r.2.vmaArr v = p.vmaArr v) ∧
        (p.freeVmas.take vmas.length).map r.2.vmaArr = vmas.map p.vmaArr
  | [], cs, p, _, _, _ => ⟨(List.append_nil cs).symm, rfl, fun _ _ => rfl, rfl⟩
  | q :: vmas, cs, p, hlen, hnd, hoff => by
    cases hp : p.freeVmas with
    | nil =>
      rw [hp] at hlen
      exact absurd hlen (Nat.not_succ_le_zero _)
    | cons c fs =>
      rw [hp] at hlen hnd hoff
      obtain ⟨hcfs, hfs⟩ := List.nodup_cons.mp hnd
      have hqc : q ≠ c := fun hqc => hoff c (List.mem_cons_self ..) (hqc ▸ List.mem_cons_self ..)
      rw [List.foldlM_cons, copyVma_cons hp hqc]
      cases hpages : paged ((p.vmaArr q).pages.foldlM (Mm.forkPage ppml4 cpml4) p.mm) with
      | error e => exact paged_eq_error hpages
      | ok mm =>
        have ih := copyVmas_spec ppml4 cpml4 vmas (cs ++ [c]) { p with
          mm := mm, freeVmas := fs, vmaArr := Function.update p.vmaArr c (p.vmaArr q) }
          (Nat.le_of_succ_le_succ hlen) hfs fun v hv hm =>
            hoff v (List.mem_cons_of_mem _ hv) (List.mem_cons_of_mem _ hm)
        have hcq : c ∉ q :: vmas := hoff c (List.mem_cons_self ..)
        have hctake : c ∉ fs.take vmas.length := fun hm => hcfs (List.mem_of_mem_take hm)
        change match vmas.foldlM (copyVma ppml4 cpml4) (cs ++ [c], { p with
          mm := mm, freeVmas := fs, vmaArr := Function.update p.vmaArr c (p.vmaArr q) }) with
          | .error e => _
          | .ok r => _
        revert ih
        cases vmas.foldlM (copyVma ppml4 cpml4) (cs ++ [c], { p with
          mm := mm, freeVmas := fs, vmaArr := Function.update p.vmaArr c (p.vmaArr q) }) with
        | error e => exact id
        | ok r =>
          rintro ⟨hl, hrest, hothers, hcopies⟩
          refine ⟨?_, hrest, fun v hv => ?_, ?_⟩
          · rw [hl, List.append_assoc]
            rfl
          · rw [List.length_cons, List.take_succ_cons, List.mem_cons, not_or] at hv
            exact (hothers v hv.2).trans (Function.update_of_ne hv.1 ..)
          · have hself : r.2.vmaArr c = p.vmaArr q := (hothers c hctake).trans (Function.update_self ..)
            have hvmas : vmas.map (Function.update p.vmaArr c (p.vmaArr q)) = vmas.map p.vmaArr := by
              refine List.map_congr_left fun v hv => Function.update_of_ne ?_ ..
              rintro rfl
              exact hcq (List.mem_cons_of_mem _ hv)
            rw [List.length_cons, List.take_succ_cons, List.map_cons, List.map_cons, hself, hcopies, hvmas]

end Pools

namespace VmaSys

/-- The links of the VMAs. -/
def links (s : VmaSys) (v : ℕ) : Option ℕ := (s.vmaArr v).next

/-- An assignment to a whole VMA. -/
def write (s : VmaSys) (v : ℕ) (n : VmaNode) : VmaSys :=
  { s with vmaArr := Function.update s.vmaArr v n }

/-- `get_free_vma`: a VMA of the list, or the null pointer. -/
def getFreeVma (s : VmaSys) : Option ℕ × VmaSys :=
  match s.freeVmaHead with
  | none => (none, s)
  | some v => (some v,
      { s with freeVmaHead := (s.vmaArr v).next }.write v ⟨⟨0, 0, 0, .anon, 0, 0⟩, none, none⟩)

/-- The copy of one VMA in `fork_process`: as the first VMA of the child, or behind `child_vmas`. -/
def forkNode (s : VmaSys) (child : ℕ) (childVmas : Option ℕ) (parentVma : ℕ) :
    Except Fault (ℕ × VmaSys) :=
  match s.vmaHead child with
  | none => do
    let (vma, s) := s.getFreeVma
    let s := { s with vmaHead := Function.update s.vmaHead child vma }
    let vma ← deref vma
    pure (vma, s.write vma (s.vmaArr parentVma))
  | some _ => do
    let (vma, s) := s.getFreeVma
    let last ← deref childVmas
    let s := s.write last { s.vmaArr last with next := vma }
    let vma ← deref vma
    pure (vma, s.write vma (s.vmaArr parentVma))

/-- One VMA of the loop of `fork_process`, with its pages. The result is `child_vmas`. -/
def forkVma (ppml4 cpml4 : Word) (child : ℕ) (childVmas : Option ℕ) (parentVma : ℕ) (s : VmaSys) :
    Except Fault (ℕ × VmaSys) := do
  let (vma, s) ← s.forkNode child childVmas parentVma
  let mm ← paged ((s.vmaArr parentVma).pages.foldlM (Mm.forkPage ppml4 cpml4) s.mm)
  pure (vma, { s with mm := mm })

/-- The loop of `fork_process` over the VMAs of the parent, for at most `fuel` of them. -/
def forkLoop (ppml4 cpml4 : Word) (child : ℕ) :
    ℕ → Option ℕ → Option ℕ → VmaSys → Except Fault VmaSys
  | _, _, none, s => .ok s
  | 0, _, some _, _ => .error .endless
  | fuel + 1, childVmas, some parentVma, s => do
    let (vma, s) ← s.forkVma ppml4 cpml4 child childVmas parentVma
    forkLoop ppml4 cpml4 child fuel (some vma) (s.vmaArr parentVma).next s

/-- What `fork_process` does with the VMAs, from the copy of the `mm_struct` on. -/
def forkVmas (s : VmaSys) (parent child : ℕ) (ppml4 cpml4 : Word) : Except Fault VmaSys :=
  let s := { s with vmaHead := Function.update s.vmaHead child none }
  forkLoop ppml4 cpml4 child (numVma + 1) none (s.vmaHead parent) s

variable {s s₀ : VmaSys} {p p' : Pools} {parent child q c v : ℕ} {cs qs free fs : List ℕ}
  {childVmas : Option ℕ} {n : VmaNode} {ppml4 cpml4 : Word}

theorem links_write : (s.write v n).links = Function.update s.links v n.next := by
  funext w
  by_cases hw : w = v
  · rw [hw, Function.update_self]
    exact congrArg VmaNode.next (Function.update_self ..)
  · rw [Function.update_of_ne hw]
    exact congrArg VmaNode.next (Function.update_of_ne hw ..)

/-! ## The loop follows its counterpart on lists -/

/-- The state `s` of the loop that started in the state `s₀`, and the state of its counterpart on lists: the
child has the copies `cs`, and the VMAs `qs` of the parent are still to be copied. -/
structure Forking (s₀ : VmaSys) (child : ℕ) (cs qs : List ℕ) (childVmas : Option ℕ) (s : VmaSys)
    (p : Pools) : Prop where
  /-- The memories are the same. -/
  mm : s.mm = p.mm
  /-- The VMAs are the same, but for the links. -/
  fields : ∀ v, (s.vmaArr v).toVma = p.vmaArr v
  /-- The free list. -/
  free : Chain s.links s.freeVmaHead p.freeVmas
  /-- The rest of the parent's list. -/
  rest : Chain s.links qs.head? qs
  /-- The list of the child runs into the list of the parent behind its last copy. -/
  copies : Chain s.links (s.vmaHead child) (if cs = [] then [] else cs ++ qs)
  /-- `child_vmas` is the last copy. -/
  last : childVmas = cs.getLast?
  /-- The other VMAs are as they were, with their links. -/
  same : ∀ v ∉ cs, s.vmaArr v = s₀.vmaArr v
  /-- The other tasks have their lists. -/
  heads : ∀ t ≠ child, s.vmaHead t = s₀.vmaHead t
  /-- The free VMAs are others than the copies and the VMAs of the parent. -/
  apart : ∀ v ∈ p.freeVmas, v ∉ cs ∧ v ∉ qs
  /-- The copies are others than the VMAs of the parent. -/
  copies_apart : ∀ v ∈ cs, v ∉ qs

namespace Forking

variable (h : Forking s₀ child cs (q :: qs) childVmas s p)

include h

/-- Without a free VMA a null pointer is followed. -/
theorem forkNode_nil (hnil : p.freeVmas = []) : s.forkNode child childVmas q = .error .nullPointer := by
  have hhead : s.freeVmaHead = none := by
    have hfree := h.free
    rw [hnil] at hfree
    exact hfree
  have hget : s.getFreeVma = (none, s) := by rw [getFreeVma, hhead]
  unfold forkNode
  rw [hget]
  cases s.vmaHead child with
  | none => rfl
  | some a =>
    cases childVmas with
    | none => rfl
    | some b => rfl

/-- The state after a copy, whatever link has changed in the copies before it. -/
theorem advance {s' : VmaSys} (hcons : p.freeVmas = c :: fs) (hmm : s'.mm = s.mm)
    (hhead : s'.freeVmaHead = s.links c) (hheads : ∀ t ≠ child, s'.vmaHead t = s.vmaHead t)
    (hnew : s'.vmaArr c = s.vmaArr q) (hsame : ∀ v ≠ c, v ∉ cs → s'.vmaArr v = s.vmaArr v)
    (hfields : ∀ v ≠ c, (s'.vmaArr v).toVma = (s.vmaArr v).toVma)
    (hcopies : Chain s'.links (s'.vmaHead child) (cs ++ c :: qs)) :
    Forking s₀ child (cs ++ [c]) qs (some c) s'
      { p with freeVmas := fs, vmaArr := Function.update p.vmaArr c (p.vmaArr q) } := by
  have hfree := h.free
  have hapart := h.apart
  rw [hcons] at hfree hapart
  have hcfs : c ∉ fs := (List.nodup_cons.mp hfree.nodup).1
  have hcq : c ∉ q :: qs := (hapart c (List.mem_cons_self ..)).2
  have hlinks : ∀ v ≠ c, v ∉ cs → s'.links v = s.links v := fun v hv hm =>
    congrArg VmaNode.next (hsame v hv hm)
  refine ⟨hmm.trans h.mm, fun v => ?_, ?_, ?_, ?_, ?_, fun v hv => ?_,
    fun t ht => (hheads t ht).trans (h.heads t ht), fun v hv => ?_, fun v hv => ?_⟩
  · by_cases hvc : v = c
    · have hself : Function.update p.vmaArr c (p.vmaArr q) c = p.vmaArr q := Function.update_self ..
      rw [hvc, hnew, h.fields q]
      exact hself.symm
    · have hother : Function.update p.vmaArr c (p.vmaArr q) v = p.vmaArr v := Function.update_of_ne hvc ..
      rw [hfields v hvc, h.fields v]
      exact hother.symm
  · rw [hhead]
    refine hfree.2.congr fun v hv => hlinks v ?_ (hapart v (List.mem_cons_of_mem _ hv)).1
    rintro rfl
    exact hcfs hv
  · have hnext : s.links q = qs.head? := h.rest.2.start_eq
    rw [← hnext]
    refine h.rest.2.congr fun v hv => hlinks v ?_ fun hm => h.copies_apart v hm (List.mem_cons_of_mem _ hv)
    rintro rfl
    exact hcq (List.mem_cons_of_mem _ hv)
  · rw [if_neg (by simp), List.append_assoc]
    exact hcopies
  · simp
  · rw [List.mem_append, List.mem_singleton, not_or] at hv
    exact (hsame v hv.2 hv.1).trans (h.same v hv.1)
  · obtain ⟨hv₁, hv₂⟩ := hapart v (List.mem_cons_of_mem _ hv)
    rw [List.mem_append, List.mem_singleton, not_or]
    refine ⟨⟨hv₁, ?_⟩, fun hm => hv₂ (List.mem_cons_of_mem _ hm)⟩
    rintro rfl
    exact hcfs hv
  · rcases List.mem_append.mp hv with hv | hv
    · exact fun hm => h.copies_apart v hv (List.mem_cons_of_mem _ hm)
    · rw [List.mem_singleton.mp hv]
      exact fun hm => hcq (List.mem_cons_of_mem _ hm)

/-- A free VMA becomes a copy of the next VMA of the parent. -/
theorem forkNode_cons (hcons : p.freeVmas = c :: fs) : ∃ s',
    s.forkNode child childVmas q = .ok (c, s') ∧ Forking s₀ child (cs ++ [c]) qs (some c) s'
      { p with freeVmas := fs, vmaArr := Function.update p.vmaArr c (p.vmaArr q) } := by
  have hfree := h.free
  have hapart := h.apart
  rw [hcons] at hfree hapart
  obtain ⟨hccs, hcq⟩ := hapart c (List.mem_cons_self ..)
  have hqc : q ≠ c := fun hqc => hcq (hqc ▸ List.mem_cons_self ..)
  obtain ⟨s₁, hs₁⟩ : ∃ s₁, { s with freeVmaHead := s.links c }.write c
    ⟨⟨0, 0, 0, .anon, 0, 0⟩, none, none⟩ = s₁ := ⟨_, rfl⟩
  have hget : s.getFreeVma = (some c, s₁) := by
    rw [getFreeVma, hfree.1]
    exact congrArg _ hs₁
  have harr : ∀ v ≠ c, s₁.vmaArr v = s.vmaArr v := fun v hv => by
    rw [← hs₁]
    exact Function.update_of_ne hv ..
  have hrest : s₁.mm = s.mm ∧ s₁.freeVmaHead = s.links c ∧ s₁.vmaHead = s.vmaHead := by
    rw [← hs₁]
    exact ⟨rfl, rfl, rfl⟩
  have hlinks : s₁.links = Function.update s.links c none := by
    rw [← hs₁]
    exact links_write
  obtain ⟨hmm, hhead₁, hheads⟩ := hrest
  unfold forkNode
  rw [hget]
  cases hhead : s.vmaHead child with
  | none =>
    -- This is the first copy.
    have hnil : cs = [] := by
      by_contra hne
      obtain ⟨a, l, rfl⟩ := List.exists_cons_of_ne_nil hne
      have hc := h.copies
      rw [if_neg hne, hhead] at hc
      cases hc.1
    refine ⟨_, rfl, h.advance hcons hmm hhead₁ (fun t ht => ?_) ?_ (fun v hv _ => ?_) (fun v hv => ?_) ?_⟩
    · rw [← hheads]
      exact Function.update_of_ne ht ..
    · exact (Function.update_self ..).trans (harr q hqc)
    · exact (Function.update_of_ne hv ..).trans (harr v hv)
    · exact congrArg VmaNode.toVma ((Function.update_of_ne hv ..).trans (harr v hv))
    · rw [hnil, links_write]
      refine ⟨Function.update_self .., ?_⟩
      rw [Function.update_self]
      show Chain (Function.update s₁.links c _) (s₁.vmaArr q).next qs
      rw [harr q hqc, hlinks, Function.update_idem]
      exact h.rest.2.update_of_notMem (fun hm => hcq (List.mem_cons_of_mem _ hm)) _
  | some a =>
    -- The last copy so far leads on to the VMA that is copied now.
    have hne : cs ≠ [] := by
      rintro rfl
      have hc := h.copies
      rw [if_pos rfl, hhead] at hc
      cases hc
    obtain ⟨cs', t, rfl⟩ := (List.eq_nil_or_concat cs).resolve_left hne
    rw [List.concat_eq_append] at *
    have hlast : childVmas = some t := by simpa using h.last
    have htc : t ≠ c := fun htc => hccs (htc ▸ by simp)
    have hqt : q ≠ t := fun hqt => h.copies_apart t (by simp) (hqt ▸ List.mem_cons_self ..)
    obtain ⟨s₂, hs₂⟩ : ∃ s₂, s₁.write t { s₁.vmaArr t with next := some c } = s₂ := ⟨_, rfl⟩
    have harr₂ : ∀ v ≠ t, s₂.vmaArr v = s₁.vmaArr v := fun v hv => by
      rw [← hs₂]
      exact Function.update_of_ne hv ..
    have hlinks₂ : s₂.links = Function.update s₁.links t (some c) := by
      rw [← hs₂]
      exact links_write
    have hq₂ : s₂.vmaArr q = s.vmaArr q := (harr₂ q hqt).trans (harr q hqc)
    rw [hlast]
    simp only [deref]
    refine ⟨s₂.write c (s₂.vmaArr q), ?_, h.advance hcons ?_ ?_ (fun t _ => ?_) ?_ (fun v hv hm => ?_)
      (fun v hv => ?_) ?_⟩
    · rw [← hs₂]
      rfl
    · rw [← hmm, ← hs₂]
      rfl
    · rw [← hhead₁, ← hs₂]
      rfl
    · rw [← hheads, ← hs₂]
      rfl
    · exact (Function.update_self ..).trans hq₂
    · have hvt : v ≠ t := fun hvt => hm (hvt ▸ by simp)
      exact (Function.update_of_ne hv ..).trans ((harr₂ v hvt).trans (harr v hv))
    · have hfields : (s₂.vmaArr v).toVma = (s₁.vmaArr v).toVma := by
        by_cases hvt : v = t
        · have hself : s₂.vmaArr t = { s₁.vmaArr t with next := some c } := by
            rw [← hs₂]
            exact Function.update_self ..
          rw [hvt, hself]
        · rw [harr₂ v hvt]
      exact (congrArg VmaNode.toVma (Function.update_of_ne hv ..)).trans
        (hfields.trans (congrArg VmaNode.toVma (harr v hv)))
    · have hchain := h.copies
      rw [if_neg hne, List.append_assoc] at hchain
      have hoff : c ∉ cs' ++ t :: q :: qs := by
        intro hm
        rcases List.mem_append.mp (show c ∈ (cs' ++ [t]) ++ q :: qs by simpa using hm) with hm | hm
        · exact hccs hm
        · exact hcq hm
      have hreplace := (hchain.update_of_notMem hoff none).replace hoff
      rw [← hlinks, ← hlinks₂] at hreplace
      rw [links_write, List.append_assoc, harr₂ q hqt]
      have hhead₂ : (s₂.write c (s₁.vmaArr q)).vmaHead child = s.vmaHead child := by
        rw [← hheads, ← hs₂]
        rfl
      rw [hhead₂]
      exact hreplace

/-- One VMA of the loop, and the same on lists. -/
theorem forkVma (ppml4 cpml4 : Word) :
    (∃ e, Pools.copyVma ppml4 cpml4 (cs, p) q = .error e ∧
      s.forkVma ppml4 cpml4 child childVmas q = .error e) ∨
    ∃ c s' p', Pools.copyVma ppml4 cpml4 (cs, p) q = .ok (cs ++ [c], p') ∧
      s.forkVma ppml4 cpml4 child childVmas q = .ok (c, s') ∧ (s'.vmaArr q).next = qs.head? ∧
      Forking s₀ child (cs ++ [c]) qs (some c) s' p' := by
  cases hp : p.freeVmas with
  | nil =>
    have hget : p.getFreeVma = (none, p) := by rw [Pools.getFreeVma, hp]
    refine .inl ⟨.nullPointer, ?_, ?_⟩
    · simp only [Pools.copyVma, hget]
      rfl
    · rw [VmaSys.forkVma, h.forkNode_nil hp]
      rfl
  | cons c fs =>
    obtain ⟨s₁, hnode, h₁⟩ := h.forkNode_cons hp
    have hcq : q ≠ c := fun hqc => (h.apart c (hp ▸ List.mem_cons_self ..)).2 (hqc ▸ List.mem_cons_self ..)
    have hfork : s.forkVma ppml4 cpml4 child childVmas q =
        (paged ((s₁.vmaArr q).pages.foldlM (Mm.forkPage ppml4 cpml4) s₁.mm)).bind fun mm =>
          pure (c, { s₁ with mm := mm }) := by
      rw [VmaSys.forkVma, hnode]
      rfl
    have hqcs : q ∉ cs := fun hm => h.copies_apart q hm (List.mem_cons_self ..)
    have hsame : s₁.vmaArr q = s.vmaArr q := by
      rw [h.same q hqcs]
      refine h₁.same q fun hm => ?_
      rcases List.mem_append.mp hm with hm | hm
      · exact hqcs hm
      · exact hcq (List.mem_singleton.mp hm)
    have hq : (s₁.vmaArr q).toVma = p.vmaArr q := by rw [hsame, h.fields q]
    have hnext : (s₁.vmaArr q).next = qs.head? := by
      rw [hsame]
      exact h.rest.2.start_eq
    rw [hfork, Pools.copyVma_cons hp hcq, hq, h₁.mm]
    cases paged ((p.vmaArr q).pages.foldlM (Mm.forkPage ppml4 cpml4) p.mm) with
    | error e => exact .inl ⟨e, rfl, rfl⟩
    | ok mm => exact .inr ⟨c, _, _, rfl, rfl, hnext, { h₁ with mm := rfl }⟩

end Forking

/-- The loop, and the same on lists. -/
theorem Forking.forkLoop (ppml4 cpml4 : Word) : ∀ {qs cs : List ℕ} {childVmas : Option ℕ} {s : VmaSys} {p : Pools} {fuel : ℕ},
    Forking s₀ child cs qs childVmas s p → qs.length ≤ fuel →
    (∃ e, qs.foldlM (Pools.copyVma ppml4 cpml4) (cs, p) = .error e ∧
      forkLoop ppml4 cpml4 child fuel childVmas qs.head? s = .error e) ∨
    ∃ cs' s' p', qs.foldlM (Pools.copyVma ppml4 cpml4) (cs, p) = .ok (cs', p') ∧
      forkLoop ppml4 cpml4 child fuel childVmas qs.head? s = .ok s' ∧
      Forking s₀ child cs' [] cs'.getLast? s' p'
  | [], cs, _, s, p, fuel, h, _ => by
    refine .inr ⟨cs, s, p, rfl, ?_, h.last ▸ h⟩
    cases fuel with
    | zero => rfl
    | succ fuel => rfl
  | q :: qs, cs, childVmas, s, p, fuel, h, hlen => by
    obtain ⟨fuel, rfl⟩ : ∃ k, fuel = k + 1 := ⟨fuel - 1, by rw [List.length_cons] at hlen; omega⟩
    rcases h.forkVma ppml4 cpml4 with
      ⟨e, hcopy, hfork⟩ | ⟨c, s₁, p₁, hcopy, hfork, hnext, h₁⟩
    · refine .inl ⟨e, ?_, ?_⟩
      · rw [List.foldlM_cons, hcopy]
        rfl
      · rw [List.head?_cons, VmaSys.forkLoop, hfork]
        rfl
    · have hloop : VmaSys.forkLoop ppml4 cpml4 child (fuel + 1) childVmas (some q) s =
          VmaSys.forkLoop ppml4 cpml4 child fuel (some c) qs.head? s₁ := by
        rw [VmaSys.forkLoop, hfork, ← hnext]
        rfl
      have hlist : (q :: qs).foldlM (Pools.copyVma ppml4 cpml4) (cs, p) =
          qs.foldlM (Pools.copyVma ppml4 cpml4) (cs ++ [c], p₁) := by
        rw [List.foldlM_cons, hcopy]
        rfl
      rw [List.head?_cons, hloop, hlist]
      exact h₁.forkLoop ppml4 cpml4 (Nat.le_of_succ_le_succ hlen)

/-! ## The copy -/

/-- The list of the child in `s'` is a deep copy of the list `ps` of its parent in `s`, made of the first of
the free VMAs `free`. -/
structure DeepCopy (s : VmaSys) (child : ℕ) (ps free : List ℕ) (s' : VmaSys) : Prop where
  /-- There are as many copies as the parent has VMAs. -/
  length : (free.take ps.length).length = ps.length
  /-- No VMA is taken twice. -/
  nodup : (free.take ps.length).Nodup
  /-- The child's list is the copies, and ends in the null pointer. -/
  copies : Chain s'.links (s'.vmaHead child) (free.take ps.length)
  /-- The copies have the fields of the VMAs of the parent, in order. -/
  fields : (free.take ps.length).map (fun v => (s'.vmaArr v).toVma) = ps.map fun v => (s.vmaArr v).toVma
  /-- The rest of the free list is what is left of it. -/
  rest : Chain s'.links s'.freeVmaHead (free.drop ps.length)
  /-- The other VMAs are as they were, with their links. -/
  others : ∀ v ∉ free.take ps.length, s'.vmaArr v = s.vmaArr v
  /-- The other tasks, of which the parent is one, have the lists that they had, and share no VMA with the
  child. -/
  tasks : ∀ t ≠ child, s'.vmaHead t = s.vmaHead t ∧
    ∀ l, Chain s.links (s.vmaHead t) l → (∀ v ∈ l, v ∉ free) →
      Chain s'.links (s'.vmaHead t) l ∧ ∀ v ∈ l, v ∉ free.take ps.length

/-- With enough free VMAs, `fork_process` gives the child a deep copy of the list of its parent, unless it
runs out of frames for the tables of the child. -/
theorem fork_copies_vmas (s : VmaSys) (parent child : ℕ) (ps free : List ℕ) (hne : parent ≠ child)
    (hparent : Chain s.links (s.vmaHead parent) ps) (hlt : ∀ v ∈ ps, v < numVma)
    (hfree : Chain s.links s.freeVmaHead free) (hoff : ∀ v ∈ free, v ∉ ps)
    (hlen : ps.length ≤ free.length) (ppml4 cpml4 : Word) :
    match s.forkVmas parent child ppml4 cpml4 with
    | .error e => e = .outOfPages
    | .ok s' => s.DeepCopy child ps free s' := by
  obtain ⟨p, hp⟩ : ∃ p : Pools, (⟨s.mm, fun v => (s.vmaArr v).toVma, free⟩ : Pools) = p := ⟨_, rfl⟩
  have hfuel : ps.length ≤ numVma + 1 := by
    have hsub : ps ⊆ List.range numVma := fun v hv => List.mem_range.mpr (hlt v hv)
    have hle := (hparent.nodup.subperm hsub).length_le
    rw [List.length_range] at hle
    exact hle.trans (Nat.le_succ _)
  obtain ⟨s₁, hs₁⟩ : ∃ s₁ : VmaSys, { s with vmaHead := Function.update s.vmaHead child none } = s₁ :=
    ⟨_, rfl⟩
  have hstart : Forking s child [] ps none s₁ p := by
    subst hp
    subst hs₁
    refine ⟨rfl, fun _ => rfl, hfree, hparent.start_eq ▸ hparent, ?_, rfl, fun _ _ => rfl,
      fun t ht => Function.update_of_ne ht .., fun v hv => ⟨List.not_mem_nil, hoff v hv⟩,
      fun v hv => absurd hv List.not_mem_nil⟩
    exact Function.update_self ..
  have hrun : s.forkVmas parent child ppml4 cpml4 =
      forkLoop ppml4 cpml4 child (numVma + 1) none ps.head? s₁ := by
    have hhead : s₁.vmaHead parent = s.vmaHead parent := by
      rw [← hs₁]
      exact Function.update_of_ne hne ..
    rw [← hparent.start_eq, ← hhead, ← hs₁]
    rfl
  have hspec := Pools.copyVmas_spec ppml4 cpml4 ps [] p (hp ▸ hlen)
    (hp ▸ hfree.nodup) (hp ▸ hoff)
  rw [hrun]
  rcases hstart.forkLoop ppml4 cpml4 hfuel with
    ⟨e, hcopy, hfork⟩ | ⟨cs, s', p', hcopy, hfork, h⟩
  · rw [hcopy] at hspec
    rw [hfork]
    exact hspec
  · rw [hcopy] at hspec
    rw [hfork]
    have hpf : p.freeVmas = free := hp ▸ rfl
    have hpa : p.vmaArr = fun v => (s.vmaArr v).toVma := hp ▸ rfl
    rw [hpf, hpa] at hspec
    obtain ⟨rfl, hrest, -, hfields⟩ := hspec
    rw [List.nil_append] at h
    have hcopies : Chain s'.links (s'.vmaHead child) (free.take ps.length) := by
      have hc := h.copies
      rw [List.append_nil, ite_eq_right_iff.mpr Eq.symm] at hc
      exact hc
    refine ⟨List.length_take_of_le hlen, hfree.nodup.sublist (List.take_sublist ..), hcopies, ?_, ?_,
      h.same, fun t ht => ⟨h.heads t ht, fun l hl hlfree => ?_⟩⟩
    · rw [← hfields]
      exact List.map_congr_left fun v _ => h.fields v
    · rw [← hrest]
      exact h.free
    · have hltake : ∀ v ∈ l, v ∉ free.take ps.length := fun v hv hm =>
        hlfree v hv (List.mem_of_mem_take hm)
      refine ⟨?_, hltake⟩
      rw [h.heads t ht]
      exact hl.congr fun v hv => congrArg VmaNode.next (h.same v (hltake v hv))

/-- The VMAs 0 to 4 of `vma_arr`. The task 0 has the first two, and the others are free. -/
def smallVmas : VmaSys where
  mm := Mm.blank
  vmaArr v := ⟨⟨0x1000, 0x1000, 5, .text, 16, BitVec.ofNat 64 v⟩,
    if v = 1 ∨ 4 ≤ v then none else some (v + 1), none⟩
  freeVmaHead := some 2
  vmaHead t := if t = 0 then some 0 else none

theorem fork_copies_vmas_small : ∃ s', smallVmas.forkVmas 0 1 (convertVA 0) (convertVA 1) = .ok s' ∧
    smallVmas.DeepCopy 1 [0, 1] [2, 3, 4] s' := by
  have hcopy := fork_copies_vmas smallVmas 0 1 [0, 1] [2, 3, 4] (by decide) (by decide) (by decide)
    (by decide) (by decide) (by decide) (convertVA 0) (convertVA 1)
  cases hrun : smallVmas.forkVmas 0 1 (convertVA 0) (convertVA 1) with
  | error e => cases hrun
  | ok s' =>
    rw [hrun] at hcopy
    exact ⟨s', rfl, hcopy⟩

end VmaSys

end Nascent.Proc
