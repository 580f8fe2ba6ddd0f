import Nascent.Lib.Controller

/-!
# The interrupt controllers

`PIC_remap` of `pic.c`, and the interrupts of devices from then on. Every handler of a device ends its interrupt
with a byte to the first controller, and so do those of `isr_handler` and `int13` for exceptions. All of them run
with interrupts masked.

The lines of the first controller are never blocked (`pic_run`): a tick of the timer that waits is the next
interrupt, and a key is unless there is a tick. Nothing ends an interrupt at the second controller. So a line there
interrupts at most once, and it blocks those behind it for good.
-/

namespace Nascent.Asm

open Controller

/-- The bytes that `PIC_remap` writes. -/
def picRemap : List (BitVec 16 × Byte) :=
  [(0x20, 0x11), (0xA0, 0x11), (0x21, 0x20), (0xA1, 0x28), (0x21, 0x04), (0xA1, 0x02), (0x21, 0x01),
    (0xA1, 0x01), (0x21, 0x0), (0xA1, 0x0)]

/-- What happens at the controllers. -/
inductive Signal
  /-- A device requests a line. -/
  | request (k : Fin 16)
  /-- The processor takes an interrupt, if there is one, and runs the handler to its end. -/
  | serve
  /-- A handler runs for an exception. -/
  | exception
deriving DecidableEq

/-- One of them, with the vector of the interrupt. -/
def signal (p : Pair) : Signal → Option (Pair × Option Byte)
  | .request k => some (p.request k, none)
  | .serve =>
    match p.interrupt with
    | none => some (p, none)
    | some (v, p') => (p'.outb 0x20 0x20).map (·, some v)
  | .exception => (p.outb 0x20 0x20).map (·, none)

/-- A run, with the vectors of its interrupts in their order. -/
def signals (p : Pair) : List Signal → Option (Pair × List Byte)
  | [] => some (p, [])
  | a :: as => do
    let (p, v) ← signal p a
    let (p, vs) ← signals p as
    pure (p, v.toList ++ vs)

/-- A controller behind `PIC_remap`. -/
structure Remapped (c : Pic) (offset cascade : Byte) : Prop where
  /-- The vector of line 0. -/
  offset : c.offset = offset
  /-- The connection. -/
  cascade : c.cascade = cascade
  /-- No line is masked. -/
  masked : ∀ j, c.masked j = false
  /-- Interrupts do not end by themselves. -/
  auto : c.auto = false

/-- The controllers whenever no handler runs. -/
structure Idle (p : Pair) : Prop where
  /-- The first one. -/
  first : Remapped p.first 0x20 4
  /-- The second one. -/
  second : Remapped p.second 0x28 2
  /-- No line of the first one is in service. -/
  free : ∀ j, p.first.inService j = false

/-- The first line of the second controller that is in service, or 8. -/
def blocked (p : Pair) : ℕ := ((Fin.find? p.second.inService).map Fin.val).getD 8

/-- The vector of a line. -/
def vector (k : Fin 16) : Byte := 0x20 + BitVec.ofNat 8 k

/-- A line that is not of the first controller is one of the second. -/
theorem sub_lt_eight {k : Fin 16} (h : ¬ k.val < 8) : k.val - 8 < 8 := by omega

/-- A line is requested. -/
def waiting (p : Pair) (k : Fin 16) : Bool :=
  if h : k.val < 8 then p.first.requested ⟨k.val, h⟩ else p.second.requested ⟨k.val - 8, sub_lt_eight h⟩

variable {p p' q : Pair} {a : Signal} {as : List Signal} {v : Byte} {vs : List Byte} {i : Line} {k : Fin 16}

/-- `PIC_remap` sets both controllers up, whatever they did before. -/
theorem picRemap_idle (p : Pair) : ∃ p', p.outbs picRemap = some p' ∧ Idle p' ∧ blocked p' = 8 ∧
    ∀ k, waiting p' k = false := by
  refine ⟨_, rfl, ⟨⟨rfl, rfl, fun j => ?_, rfl⟩, ⟨rfl, rfl, fun j => ?_, rfl⟩, fun j => rfl⟩, rfl, fun k => ?_⟩
  · exact BitVec.getLsbD_zero
  · exact BitVec.getLsbD_zero
  · unfold waiting
    split_ifs <;> rfl

/-- What an interrupt was. -/
theorem interrupt_eq (h : Idle p) (hint : p.interrupt = some (v, p')) :
    (∃ i, p.wired.pending = some i ∧ i ≠ 2 ∧ v = 0x20 + BitVec.ofNat 8 i ∧
      p' = { p with first := p.first.acknowledge i }) ∨
    ∃ k, p.wired.pending = some 2 ∧ p.second.pending = some k ∧ v = 0x28 + BitVec.ofNat 8 k ∧
      p' = ⟨p.first.acknowledge 2, p.second.acknowledge k⟩ := by
  have hcascade : ∀ i : Line, (4 : Byte).getLsbD i = decide (i = 2) := by decide
  unfold Pair.interrupt at hint
  cases hi : p.wired.pending with
  | none =>
    rw [hi] at hint
    cases hint
  | some i =>
    rw [hi] at hint
    dsimp only at hint
    rw [h.first.cascade, hcascade] at hint
    split_ifs at hint with h2
    · rw [decide_eq_true_iff] at h2
      subst h2
      cases hk : p.second.pending with
      | none =>
        rw [hk] at hint
        cases hint
      | some k =>
        rw [hk] at hint
        obtain ⟨rfl, rfl⟩ := Prod.mk.inj (Option.some.inj hint)
        exact .inr ⟨k, rfl, rfl, by rw [h.second.offset], rfl⟩
    · obtain ⟨rfl, rfl⟩ := Prod.mk.inj (Option.some.inj hint)
      exact .inl ⟨i, rfl, by simpa using h2, by rw [h.first.offset], rfl⟩

/-- A line of the second controller is in front of those in service there, and becomes the first of them. -/
theorem blocked_acknowledge {c : Pic} {j : Line} (h : Idle p) (hj : p.second.pending = some j) :
    j.val < blocked p ∧ blocked ⟨c, p.second.acknowledge j⟩ = j := by
  have hserved : (p.second.acknowledge j).inService = Function.update p.second.inService j true := by
    rw [Pic.acknowledge, h.second.auto]
    rfl
  have hfree := (Pic.pending_spec hj).2.2
  constructor
  · unfold blocked
    cases hfind : Fin.find? p.second.inService with
    | none => exact j.isLt
    | some i => exact Pic.pending_lt hj (Fin.eq_true_of_find?_eq_some hfind)
  · have hfind : Fin.find? (p.second.acknowledge j).inService = some j := by
      rw [hserved, Fin.find?_eq_some_iff]
      refine ⟨Function.update_self .., fun i hi => ?_⟩
      rw [Function.update_of_ne (Fin.ne_of_lt hi)]
      exact hfree i hi.le
    unfold blocked
    rw [hfind]
    rfl

/-- A line of the first controller keeps the set-up. -/
theorem Remapped.acknowledge {c : Pic} {offset cascade : Byte} (h : Remapped c offset cascade) :
    Remapped (c.acknowledge i) offset cascade := ⟨h.offset, h.cascade, h.masked, h.auto⟩

/-- An interrupt from the first controller, and its end. -/
theorem Idle.endOfInterrupt {c : Pic} (h : Idle p) (hc : Remapped c 0x28 2) :
    Idle ⟨(p.first.acknowledge i).endOfInterrupt, c⟩ := by
  rw [Pic.endOfInterrupt_acknowledge h.free h.first.auto]
  exact ⟨⟨h.first.offset, h.first.cascade, h.first.masked, h.first.auto⟩, hc, h.free⟩

/-- One step: a vector of the second controller is below those that are blocked, and blocks those from it on. -/
theorem signal_spec (h : Idle p) (a : Signal) : ∃ p' v, signal p a = some (p', v) ∧ Idle p' ∧
    ((∀ w ∈ v, 0x20 ≤ w.toNat ∧ w.toNat < 0x28) ∧ blocked p' = blocked p ∨
      ∃ w, v = some w ∧ w.toNat = 0x28 + blocked p' ∧ blocked p' < blocked p) := by
  cases a with
  | request k =>
    refine ⟨_, _, rfl, ?_⟩
    unfold Pair.request
    split_ifs with hk
    · exact ⟨⟨⟨h.first.offset, h.first.cascade, h.first.masked, h.first.auto⟩, h.second, h.free⟩,
        .inl ⟨by simp, rfl⟩⟩
    · exact ⟨⟨h.first, ⟨h.second.offset, h.second.cascade, h.second.masked, h.second.auto⟩, h.free⟩,
        .inl ⟨by simp, rfl⟩⟩
  | serve =>
    cases hint : p.interrupt with
    | none => exact ⟨p, none, by rw [signal, hint], h, .inl ⟨by simp, rfl⟩⟩
    | some w =>
      obtain ⟨w, p'⟩ := w
      refine ⟨_, some w, by rw [signal, hint]; rfl, ?_⟩
      obtain ⟨i, -, -, rfl, rfl⟩ | ⟨k, -, hk, rfl, rfl⟩ := interrupt_eq h hint
      · refine ⟨h.endOfInterrupt h.second, .inl ⟨?_, rfl⟩⟩
        have hall : ∀ i : Line, 0x20 ≤ (0x20 + BitVec.ofNat 8 i : Byte).toNat ∧
          (0x20 + BitVec.ofNat 8 i : Byte).toNat < 0x28 := by decide
        rintro w ⟨⟩
        exact hall i
      · obtain ⟨hlt, hblocked⟩ := blocked_acknowledge (c := (p.first.acknowledge 2).endOfInterrupt) h hk
        refine ⟨h.endOfInterrupt h.second.acknowledge, .inr ⟨_, rfl, ?_, ?_⟩⟩
        · have hall : ∀ k : Line, (0x28 + BitVec.ofNat 8 k : Byte).toNat = 0x28 + k.val := by decide
          rw [hall, ← hblocked]
        · exact hblocked.trans_lt hlt
  | exception =>
    refine ⟨_, _, rfl, ?_⟩
    rw [Pic.endOfInterrupt_of_free h.free]
    exact ⟨h, .inl ⟨by simp, rfl⟩⟩

/-- A run. -/
theorem signals_spec (h : Idle p) (as : List Signal) : ∃ q vs, signals p as = some (q, vs) ∧ Idle q ∧
    (∀ v ∈ vs, 0x20 ≤ v.toNat ∧ v.toNat < 0x28 + blocked p) ∧
    (vs.filter fun v => 0x28 ≤ v.toNat).Pairwise fun v w => w.toNat < v.toNat := by
  induction as generalizing p with
  | nil => exact ⟨p, [], rfl, h, by simp, List.Pairwise.nil⟩
  | cons a as ih =>
    obtain ⟨p', v, hstep, hidle, hv⟩ := signal_spec h a
    obtain ⟨q, vs, hrun, hq, hvs, hsorted⟩ := ih hidle
    refine ⟨q, v.toList ++ vs, ?_, hq, ?_, ?_⟩
    · simp [signals, hstep, hrun]
    · intro w hw
      rw [List.mem_append, Option.mem_toList] at hw
      rcases hw with hw | hw
      · obtain ⟨hw', -⟩ | ⟨w', hw', heq, hlt⟩ := hv
        · have hrange := hw' w hw
          omega
        · obtain rfl := Option.some.inj (hw'.symm.trans hw)
          omega
      · have hrange := hvs w hw
        have hle : blocked p' ≤ blocked p := by
          obtain ⟨-, heq⟩ | ⟨-, -, -, hlt⟩ := hv
          · exact heq.le
          · exact hlt.le
        omega
    · cases v with
      | none => exact hsorted
      | some w =>
        rw [Option.toList_some, List.singleton_append, List.filter_cons]
        split_ifs with hw
        · refine List.pairwise_cons.mpr ⟨fun w' hw' => ?_, hsorted⟩
          have hrange := hvs w' (List.mem_of_mem_filter hw')
          obtain ⟨hlow, -⟩ | ⟨w', hw', heq, hlt⟩ := hv
          · have hlow := hlow w rfl
            rw [decide_eq_true_iff] at hw
            omega
          · obtain rfl := Option.some.inj hw'
            omega
        · exact hsorted

/-- The next interrupt is that of the first line of the first controller that is requested. -/
theorem serve_first (h : Idle p) (hi : p.wired.requested i = true) (hne : i ≠ 2)
    (hfirst : ∀ j < i, p.wired.requested j = false) :
    ∃ q, signal p .serve = some (q, some (0x20 + BitVec.ofNat 8 i)) := by
  have hpending : p.wired.pending = some i := Pic.pending_of_first hi hfirst h.first.masked h.free
  have hcascade : ∀ i : Line, i ≠ 2 → (4 : Byte).getLsbD i = false := by decide
  refine ⟨⟨(p.first.acknowledge i).endOfInterrupt, p.second⟩, ?_⟩
  rw [signal, Pair.interrupt, hpending]
  dsimp only
  rw [h.first.cascade, hcascade i hne, h.first.offset]
  rfl

/-! ## Requests -/

/-- A request is for its own line. -/
theorem waiting_request (j : Fin 16) : waiting (p.request j) k = (waiting p k || decide (j = k)) := by
  unfold waiting Pair.request
  by_cases hj : j.val < 8 <;> by_cases hk : k.val < 8
  · simp only [dif_pos hj, dif_pos hk, Function.update_apply]
    grind
  · simp only [dif_pos hj, dif_neg hk]
    grind
  · simp only [dif_neg hj, dif_pos hk]
    grind
  · simp only [dif_neg hj, dif_neg hk, Function.update_apply]
    grind

theorem vector_inj : ∀ j k : Fin 16, vector j = vector k ↔ j = k := by decide

/-- An interrupt is that of a line that is requested, and the line is not requested any more. -/
theorem serve_waiting (h : Idle p) (hs : signal p .serve = some (p', some v)) :
    ∃ j, j ≠ 2 ∧ v = vector j ∧ waiting p j = true ∧
      ∀ k, k ≠ 2 → waiting p' k = (waiting p k && decide (j ≠ k)) := by
  rw [signal] at hs
  cases hint : p.interrupt with
  | none =>
    rw [hint] at hs
    cases hs
  | some w =>
    obtain ⟨w, p₁⟩ := w
    rw [hint] at hs
    obtain ⟨rfl, hw⟩ := Prod.mk.inj (Option.some.inj hs)
    obtain rfl := Option.some.inj hw
    obtain ⟨i, hi, hne, rfl, rfl⟩ | ⟨i, -, hi, rfl, rfl⟩ := interrupt_eq h hint
    · refine ⟨⟨i, by omega⟩, fun hc => ?_, rfl, ?_, fun k _ => ?_⟩
      · have heq : i.val = 2 := congrArg Fin.val hc
        exact hne (Fin.ext heq)
      · have hreq : Function.update p.first.requested 2 _ i = true := (Pic.pending_spec hi).1
        rw [Function.update_of_ne hne] at hreq
        unfold waiting
        rw [dif_pos i.isLt]
        exact hreq
      · rw [Pic.endOfInterrupt_acknowledge h.free h.first.auto]
        unfold waiting
        split_ifs with hk
        · simp only [Function.update_apply]
          grind
        · grind
    · refine ⟨⟨i + 8, by omega⟩, fun hc => ?_, ?_, ?_, fun k hk2 => ?_⟩
      · have heq : i.val + 8 = 2 := congrArg Fin.val hc
        omega
      · have hall : ∀ i : Line, 0x28 + BitVec.ofNat 8 i = vector ⟨i + 8, by omega⟩ := by decide
        exact hall i
      · unfold waiting
        rw [dif_neg (Nat.not_lt.mpr (Nat.le_add_left 8 i))]
        exact (Pic.pending_spec hi).1
      · -- Line 2 itself is not requested by the second controller.
        rw [Pic.endOfInterrupt_acknowledge h.free h.first.auto]
        have hne (hk : k.val < 8) : (⟨k, hk⟩ : Line) ≠ 2 := fun hc => by
          have heq : k.val = 2 := congrArg Fin.val hc
          exact hk2 (Fin.ext heq)
        unfold waiting
        split_ifs with hk
        · have hj : (⟨i + 8, by omega⟩ : Fin 16) ≠ k := fun hc => by
            have heq : i.val + 8 = k.val := congrArg Fin.val hc
            omega
          show Function.update p.first.requested 2 false _ = _
          rw [Function.update_of_ne (hne hk), decide_eq_true hj, Bool.and_true]
        · show Function.update p.second.requested i false _ = _
          rw [Function.update_apply]
          grind
/-- An interrupt of a line uses up a request for it. -/
theorem signal_waiting (h : Idle p) {v : Option Byte} (hs : signal p a = some (p', v)) (hk : k ≠ 2) :
    v.toList.count (vector k) + (waiting p' k).toNat ≤ (waiting p k).toNat + [a].count (.request k) := by
  cases a with
  | request j =>
    obtain ⟨rfl, rfl⟩ := Prod.mk.inj (Option.some.inj hs)
    rw [waiting_request]
    by_cases hj : j = k
    · subst hj
      simp
    · simp [hj]
  | serve =>
    cases v with
    | none =>
      cases hint : p.interrupt with
      | none =>
        rw [signal, hint] at hs
        obtain ⟨rfl, -⟩ := Prod.mk.inj (Option.some.inj hs)
        simp
      | some w =>
        rw [signal, hint] at hs
        cases hs
    | some v =>
      obtain ⟨j, -, rfl, hj, hrest⟩ := serve_waiting h hs
      rw [hrest k hk]
      by_cases hjk : j = k
      · subst hjk
        simp [hj]
      · have hne : vector j ≠ vector k := mt (vector_inj j k).mp hjk
        simp [hjk, hne]
  | exception =>
    obtain ⟨rfl, rfl⟩ := Prod.mk.inj (Option.some.inj hs)
    rw [Pic.endOfInterrupt_of_free h.free]
    simp

/-- A run has no more interrupts of a line than there were requests for it. -/
theorem signals_count (h : Idle p) (hs : signals p as = some (q, vs)) (hk : k ≠ 2) :
    vs.count (vector k) + (waiting q k).toNat ≤ (waiting p k).toNat + as.count (.request k) := by
  induction as generalizing p vs with
  | nil =>
    obtain ⟨rfl, rfl⟩ := Prod.mk.inj (Option.some.inj hs)
    simp
  | cons a as ih =>
    obtain ⟨p', v, hstep, hidle, -⟩ := signal_spec h a
    obtain ⟨r, hrun, hr⟩ := Option.bind_eq_some_iff.mp
      (show (signals p' as).bind (fun r => some (r.1, v.toList ++ r.2)) = some (q, vs) by
        simpa [signals, hstep] using hs)
    obtain ⟨rfl, rfl⟩ := Prod.mk.inj (Option.some.inj hr)
    have hone := signal_waiting h hstep hk
    have hrest := ih hidle hrun
    have hcons : (a :: as).count (.request k) = [a].count (.request k) + as.count (.request k) := by
      rw [← List.count_append, List.singleton_append]
    rw [List.count_append, hcons]
    omega

/-- After `PIC_remap`, whatever the devices do: an interrupt has a request of its own, no line of the second
controller interrupts twice, nor one behind another that has, and the next interrupt is that of the first line that
waits at the first controller. -/
theorem pic_run (p : Pair) (as : List Signal) : ∃ p₀ q vs, p.outbs picRemap = some p₀ ∧
    signals p₀ as = some (q, vs) ∧
    (∀ v ∈ vs, 0x20 ≤ v.toNat ∧ v.toNat < 0x30) ∧
    (∀ k, k ≠ 2 → vs.count (vector k) ≤ as.count (.request k)) ∧
    ((vs.filter fun v => 0x28 ≤ v.toNat).Pairwise fun v w => w.toNat < v.toNat) ∧
    ∀ i : Line, i ≠ 2 → q.wired.requested i = true → (∀ j < i, q.wired.requested j = false) →
      ∃ q', signal q .serve = some (q', some (0x20 + BitVec.ofNat 8 i)) := by
  obtain ⟨p₀, hremap, hidle, hblocked, hwaiting⟩ := picRemap_idle p
  obtain ⟨q, vs, hrun, hq, hrange, hsorted⟩ := signals_spec hidle as
  rw [hblocked] at hrange
  refine ⟨p₀, q, vs, hremap, hrun, hrange, fun k hk => ?_, hsorted, fun i hne hi hfirst =>
    serve_first hq hi hne hfirst⟩
  have hcount := signals_count hidle hrun hk
  rw [hwaiting, Bool.toNat_false, Nat.zero_add] at hcount
  exact Nat.le_of_add_right_le hcount

end Nascent.Asm
