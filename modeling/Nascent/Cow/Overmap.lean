import Nascent.Cow.Simulation
import Nascent.Virmem.Cost

/-!
# Mapping over a page

`elf_read` and the branches of `page_fault_handler` for pages that are not present map a fresh frame without
a look at what the page has. Where it has a frame, this frame loses a reference that is not released, so
the counts are not exact any more. What the copies to user addresses rely on still holds: a page that was
mapped so has its frame for itself (`Own`). So an address space all of whose pages were mapped so is its own
map of pages (`Private`), and the frame that such a page has had is mapped nowhere afterwards (`Remaps`).
-/

namespace Nascent

open Bytes (Byte Block)

namespace Mm

variable {s s' s₁ : Mm} {roots : Finset ℕ} {held held₁ : ℕ → ℕ} {f g r t : ℕ} {v : VPage} {e va : Word}
  {m : Pages} {tar : Word → Byte}

/-! ## Fresh frames -/

/-- A fresh frame with the contents `data` has been mapped at a page. -/
structure MapsFresh (s s' : Mm) (roots : Finset ℕ) (r : ℕ) (v : VPage) (data : Block) (g : ℕ) : Prop where
  /-- The frame was free. -/
  fresh : s.refCount g = 0
  /-- It is in use. -/
  used_self : s'.refCount g ≠ 0
  /-- Its contents. -/
  mem_self : s'.mem g = data
  /-- Frames in use stay so. -/
  used : ∀ f, s.refCount f ≠ 0 → s'.refCount f = s.refCount f
  /-- Frames in use other than tables keep their contents. -/
  mem : ∀ f, s.refCount f ≠ 0 → ¬ s.IsTable (User roots) f → s'.mem f = s.mem f
  /-- The frame of the new entry. -/
  frame : frameOf (getPA g ||| 7) = g
  /-- No other entry of a page changes. -/
  leaf : ∀ n ∈ roots, ∀ w : VPage, w.InUser →
    s'.leaf n w = if n = r ∧ w = v then some (getPA g ||| 7) else s.leaf n w

/-- A fresh frame is mapped at a page, whatever the page has had. -/
theorem Accounted.mapFresh {data : Block} (h : s.Accounted roots held) (hr : r ∈ roots)
    (hv : (vpage va).InUser) (hs : s.mapFresh (convertVA r) va data = some s') :
    ∃ g held', s'.Accounted roots held' ∧ MapsFresh s s' roots r (vpage va) data g := by
  cases hg : s.freePageHead with
  | none =>
    have hnone : s.kmalloc = none := by simp [kmalloc, hg]
    simp [Mm.mapFresh, hnone] at hs
  | some g =>
    obtain ⟨hlt, h0, -⟩ := h.head hg
    have hb := h.lt_two_pow hlt
    simp only [Mm.mapFresh, (alloc_eq hg).2.1, frameOf_getPA hb, Option.bind_eq_bind, Option.bind_some] at hs
    -- The frame is taken from the free list and gets its contents, which no table has.
    obtain ⟨hgrown, hloose⟩ := h.grown_alloc hg
    have ha₁ := hgrown.account.setBlock (b := data) hloose.not_isTable
    have hleaf₁ := fun n (hn : n ∈ roots) (w : VPage) (hw : w.InUser) =>
      leaf_setBlock (b := data) hloose.not_isTable hn hw
    obtain ⟨-, hloose₁⟩ := hloose.setBlock (b := data)
    -- Then it is mapped.
    obtain ⟨s₂, held₂, t, hgrown₂, hw, rfl⟩ := ha₁.setMapping hr hv hs
    obtain ⟨hloose₂, hmem₂⟩ := hloose₁.grown ha₁ hgrown₂
    have h₂ := hgrown₂.account
    have hframe : frameOf (getPA g ||| 7) = g := by rw [frameOf_or (by decide), frameOf_getPA hb]
    have hnew : (present? (getPA g ||| 7)).map frameOf = some g := by
      rw [present?, if_pos (present_or_seven _), Option.map_some, hframe]
    have hleaf₂ : ∀ n ∈ roots, ∀ w : VPage, w.InUser → s₂.leaf n w = s.leaf n w := fun n hn w hwu =>
      ((hgrown₂.leaf n hn w hwu).trans (hleaf₁ n hn w hwu)).trans (hgrown.leaf n hn w hwu)
    -- The kernel keeps the reference to the frame that the page has had.
    have ha : (s₂.setEntry t (vpage va).pte (getPA g ||| 7)).Accounted roots fun f =>
        held₂ f + (if s₂.leafFrame (r, vpage va) = some f then 1 else 0) - if g = f then 1 else 0 := by
      refine h₂.setLeaf hr hv hw (fun f => ?_) fun f hf => ?_
      · rw [hnew]
        by_cases hgf : g = f
        · have hone := hloose₂.held_eq
          rw [hgf] at hone
          rw [if_pos hgf, if_pos (congrArg some hgf)]
          omega
        · rw [if_neg hgf, if_neg fun hc => hgf (Option.some.inj hc)]
          rfl
      · rw [hnew] at hf
        obtain rfl := Option.some.inj hf
        exact ⟨hloose₂.lt, hloose₂.not_isTable⟩
    have hused : ∀ f, s.refCount f ≠ 0 → s₂.refCount f = s.refCount f := fun f hf => by
      have hf₁ : ((s.takeHead g (convertVA g)).setBlock g data).refCount f = s.refCount f := (hgrown.used f hf).1
      rw [(hgrown₂.used f (by rw [hf₁]; exact hf)).1, hf₁]
    have htable : ∀ f, s₂.refCount f ≠ 0 → ¬ s₂.IsTable (User roots) f →
        (s₂.setEntry t (vpage va).pte (getPA g ||| 7)).mem f = s₂.mem f := fun f _ hnot =>
      Function.update_of_ne (fun hft : f = t => hnot (hft ▸ ⟨r, _, user_dir hr hv, hw⟩)) ..
    have hg₂ : s₂.refCount g ≠ 0 := by
      rw [h₂.count g hloose₂.lt, hloose₂.held_eq]
      omega
    refine ⟨g, _, ha, h0, hg₂, ?_, hused, fun f hf hnot => ?_, hframe, fun n hn w hwu => ?_⟩
    · rw [htable g hg₂ hloose₂.not_isTable, hmem₂]
      exact Function.update_self ..
    · have hfg : f ≠ g := fun hfg => hf (hfg ▸ h0)
      have hf₁ : ((s.takeHead g (convertVA g)).setBlock g data).refCount f ≠ 0 := by
        rw [show ((s.takeHead g (convertVA g)).setBlock g data).refCount f = s.refCount f from (hgrown.used f hf).1]
        exact hf
      have hnot₁ : ¬ ((s.takeHead g (convertVA g)).setBlock g data).IsTable (User roots) f := fun ht =>
        hgrown.not_isTable f hf hnot ((isTable_setBlock hloose.not_isTable).mp ht)
      rw [htable f (by rw [hused f hf]; exact hf) (hgrown₂.not_isTable f hf₁ hnot₁), hgrown₂.mem f hf₁ hnot₁]
      exact (Function.update_of_ne hfg ..).trans (hgrown.mem f hf hnot)
    · rw [leaf_setLeaf (positions_user roots) h₂.separate (user_dir hr hv) hw (user_dir hn hwu),
        present?, if_pos (present_or_seven _), hleaf₂ n hn w hwu]

/-- The views after a fresh frame is mapped. -/
theorem MapsFresh.setsView {data : Block} (hm : MapsFresh s s' roots r v data g) (h : s.Accounted roots held)
    (hr : r ∈ roots) (hv : v.InUser) : SetsView s s' roots r v (some data) := by
  refine ⟨?_, fun n hn w hwu hne => ?_⟩
  · rw [view, hm.leaf r hr v hv, if_pos ⟨rfl, rfl⟩, Option.map_some, hm.frame, hm.mem_self]
  · refine view_congr ((hm.leaf n hn w hwu).trans (if_neg hne)) fun e he => ?_
    exact hm.mem _ (h.refCount_leaf_ne hn hwu he) (h.not_isTable hn hwu he)

/-- Where a fresh frame is mapped, one more frame is spent, and those of the tables. -/
theorem Spent.of_mapFresh {s₀ : Mm} {n N : ℕ} {Q : Finset (List Idx)} {data : Block}
    (h : s₀.Spent roots r N n Q s held) (hr : r ∈ roots) (hv : (vpage va).InUser)
    (hs : s.mapFresh (convertVA r) va data = some s') :
    ∃ held', s₀.Spent roots r N (n + 1) (Q ∪ (vpage va).paths) s' held' := by
  obtain ⟨g, held', ha, -⟩ := h.account.mapFresh hr hv hs
  obtain ⟨g, hg, hs⟩ : ∃ g, s.freePageHead = some g ∧
      ((s.takeHead g (convertVA g)).setBlock g data).setMapping (convertVA r) va (getPA g) 7 = some s' := by
    cases hg : s.freePageHead with
    | none =>
      have hnone : s.kmalloc = none := by simp [kmalloc, hg]
      simp [Mm.mapFresh, hnone] at hs
    | some g =>
      have hb := h.account.lt_two_pow (h.account.head hg).1
      simp only [Mm.mapFresh, (alloc_eq hg).2.1, frameOf_getPA hb, Option.bind_eq_bind, Option.bind_some] at hs
      exact ⟨g, rfl, hs⟩
  obtain ⟨-, hloose⟩ := h.account.grown_alloc hg
  obtain ⟨s₂, held₂, t, rfl, h₂, hw⟩ :=
    ((h.takeHead hg).setBlock (b := data) hloose.not_isTable).of_setMapping hr hv hs
  refine ⟨held', ha, fun q hq => ?_, ?_⟩
  · rw [table_setLeaf (positions_user roots) h₂.account.separate (user_dir hr hv) hw hq]
    exact h₂.table q hq
  · obtain ⟨l, hl, hlen⟩ := h₂.free
    exact ⟨l, hl.congr rfl rfl rfl hl.unused, hlen⟩

/-- With the frames for the page and for its tables, a fresh frame is mapped. -/
theorem Spent.mapFresh {s₀ : Mm} {n N : ℕ} {Q : Finset (List Idx)}
    (h : s₀.Spent roots r N n Q s held) (data : Block) (hr : r ∈ roots) (hv : (vpage va).InUser)
    (hN : n + 1 + (s₀.missing r (Q ∪ (vpage va).paths)).card ≤ N) :
    (s.mapFresh (convertVA r) va data).isSome := by
  have hmono : (s₀.missing r Q).card ≤ (s₀.missing r (Q ∪ (vpage va).paths)).card :=
    missing_mono Finset.subset_union_left
  obtain ⟨g, hg⟩ := Option.ne_none_iff_exists'.mp (h.head_ne_none (by omega))
  have hb := h.account.lt_two_pow (h.account.head hg).1
  obtain ⟨-, hloose⟩ := h.account.grown_alloc hg
  have hmap := ((h.takeHead hg).setBlock (b := data) hloose.not_isTable).setMapping hr hv hN (getPA g) 7
  simpa only [Mm.mapFresh, (alloc_eq hg).2.1, frameOf_getPA hb, Option.bind_eq_bind, Option.bind_some] using hmap

/-! ## The frame of one page -/

/-- The page has the frame `g` by an entry with the write bit, and no other entry refers to it. -/
structure Own (s : Mm) (roots : Finset ℕ) (r : ℕ) (v : VPage) (g : ℕ) : Prop where
  /-- The account balances. -/
  account : ∃ held, s.Accounted roots held
  /-- The entry. -/
  entry : ∃ e, s.leaf r v = some e ∧ writable e = true ∧ frameOf e = g
  /-- It is alone. -/
  alone : ∀ n ∈ roots, ∀ w : VPage, w.InUser → ∀ e, s.leaf n w = some e → frameOf e = g → n = r ∧ w = v

/-- A fresh frame that is mapped at the page. -/
theorem Accounted.own_mapFresh {data : Block} (h : s.Accounted roots held) (hr : r ∈ roots)
    (hv : (vpage va).InUser) (hs : s.mapFresh (convertVA r) va data = some s') :
    ∃ g, s'.Own roots r (vpage va) g ∧ s'.mem g = data := by
  obtain ⟨g, held', ha, hm⟩ := h.mapFresh hr hv hs
  refine ⟨g, ⟨⟨held', ha⟩, ⟨getPA g ||| 7, ?_, ?_, hm.frame⟩, fun n hn w hw e he hf => ?_⟩, hm.mem_self⟩
  · rw [hm.leaf r hr _ hv, if_pos ⟨rfl, rfl⟩]
  · rw [writable_eq]
    simp
  · rw [hm.leaf n hn w hw] at he
    split_ifs at he with hpage
    · exact hpage
    · exact absurd (hf ▸ hm.fresh) (h.refCount_leaf_ne hn hw he)

namespace Own

variable (h : s.Own roots r v g) (hr : r ∈ roots)

include h hr

theorem getPteEntry : ∃ e, s.leaf r v = some e ∧ writable e = true ∧ frameOf e = g ∧
    ∀ x, s.getPteEntry (convertVA r) x = s.leaf r (vpage x) := by
  obtain ⟨held, ha⟩ := h.account
  obtain ⟨e, he, hwr, hf⟩ := h.entry
  exact ⟨e, he, hwr, hf, fun x => getPteEntry_eq (ha.root_lt hr)⟩

/-- What is read on the page. -/
theorem readByte (hx : vpage x = v) : s.readByte (convertVA r) x = some (s.mem g (pageOff x)) := by
  obtain ⟨e, he, -, rfl, hget⟩ := h.getPteEntry hr
  rw [Mm.readByte, hget, hx, he, Option.map_some]

variable (hv : v.InUser)

include hv

/-- A fresh frame that is mapped at another page. -/
theorem mapFresh {data : Block} (hx : (vpage x).InUser) (hne : vpage x ≠ v)
    (hs : s.mapFresh (convertVA r) x data = some s') : s'.Own roots r v g ∧ s'.mem g = s.mem g := by
  obtain ⟨held, ha⟩ := h.account
  obtain ⟨e, he, hwr, rfl⟩ := h.entry
  obtain ⟨g', held', ha', hm⟩ := ha.mapFresh hr hx hs
  have hused := ha.refCount_leaf_ne hr hv he
  refine ⟨⟨⟨held', ha'⟩, ⟨e, ?_, hwr, rfl⟩, fun n hn w hw e' he' hf => ?_⟩, hm.mem _ hused (ha.not_isTable hr hv he)⟩
  · rw [hm.leaf r hr v hv, if_neg fun hc => hne hc.2.symm, he]
  · rw [hm.leaf n hn w hw] at he'
    split_ifs at he' with hpage
    · rw [← Option.some.inj he', hm.frame] at hf
      exact absurd (hf ▸ hm.fresh) hused
    · exact h.alone n hn w hw e' he' hf

/-- A write to a frame that is mapped. -/
theorem setByte {w : VPage} {e : Word} {o : ℕ} (hw : w.InUser) (he : s.leaf r w = some e) :
    (s.setByte (frameOf e) o b).Own roots r v g := by
  obtain ⟨held, ha⟩ := h.account
  obtain ⟨e₀, he₀, hwr, hf⟩ := h.entry
  have hnot := ha.not_isTable hr hw he
  refine ⟨⟨held, ha.setBlock hnot⟩, ⟨e₀, ?_, hwr, hf⟩, fun n hn w' hw' e' he' hf' => ?_⟩
  · exact (leaf_setBlock hnot hr hv).trans he₀
  · exact h.alone n hn w' hw' e' ((leaf_setBlock hnot hn hw').symm.trans he') hf'

end Own

/-! ## Address spaces of their own -/

/-- The address space in frame `r` has the pages `m`, each with a frame for itself. -/
structure Private (s : Mm) (roots : Finset ℕ) (r : ℕ) (m : Pages) : Prop where
  /-- The account balances. -/
  account : ∃ held, s.Accounted roots held
  /-- A page that it does not have. -/
  absent : ∀ v : VPage, v.InUser → m v = none → s.leaf r v = none
  /-- A page that it has. -/
  present : ∀ v : VPage, v.InUser → ∀ b, m v = some b → ∃ g, s.Own roots r v g ∧ s.mem g = b

/-- The pages `P` of an address space have got frames that were free, and all other entries are as before. -/
structure Remaps (s s' : Mm) (roots : Finset ℕ) (r : ℕ) (P : VPage → Prop) : Prop where
  /-- Frames in use stay so. -/
  used : ∀ f, s.refCount f ≠ 0 → s'.refCount f = s.refCount f
  /-- The other entries. -/
  kept : ∀ n ∈ roots, ∀ w : VPage, w.InUser → ¬ (n = r ∧ P w) → s'.leaf n w = s.leaf n w
  /-- The frames of these pages. -/
  fresh : ∀ w : VPage, w.InUser → P w → ∃ e, s'.leaf r w = some e ∧ s.refCount (frameOf e) = 0

namespace Remaps

variable {P Q : VPage → Prop}

/-- An operation that does not change the entries. -/
theorem of_leaf (hused : s'.refCount = s.refCount)
    (hleaf : ∀ n ∈ roots, ∀ w : VPage, w.InUser → s'.leaf n w = s.leaf n w) :
    s.Remaps s' roots r fun _ => False :=
  ⟨fun f _ => congrFun hused f, fun n hn w hw _ => hleaf n hn w hw, fun _ _ hP => hP.elim⟩

theorem refl : s.Remaps s roots r fun _ => False := of_leaf rfl fun _ _ _ _ => rfl

theorem trans (hr : r ∈ roots) (h₁ : s.Remaps s₁ roots r P) (h₂ : s₁.Remaps s' roots r Q) :
    s.Remaps s' roots r fun w => P w ∨ Q w := by
  refine ⟨fun f hf => ?_, fun n hn w hw hne => ?_, fun w hw hPQ => ?_⟩
  · rw [h₂.used f (by rw [h₁.used f hf]; exact hf), h₁.used f hf]
  · rw [h₂.kept n hn w hw fun hc => hne ⟨hc.1, .inr hc.2⟩, h₁.kept n hn w hw fun hc => hne ⟨hc.1, .inl hc.2⟩]
  · by_cases hQ : Q w
    · -- A frame that is free later was free before.
      obtain ⟨e, he, h0⟩ := h₂.fresh w hw hQ
      refine ⟨e, he, ?_⟩
      by_contra hf
      rw [h₁.used _ hf] at h0
      exact hf h0
    · obtain ⟨e, he, h0⟩ := h₁.fresh w hw (hPQ.resolve_right hQ)
      exact ⟨e, (h₂.kept r hr w hw fun hc => hQ hc.2).trans he, h0⟩

theorem congr (h : s.Remaps s' roots r P) (hiff : ∀ w, P w ↔ Q w) : s.Remaps s' roots r Q := by
  obtain rfl : P = Q := funext fun w => propext (hiff w)
  exact h

/-- The frame of a page that had it for itself is mapped nowhere in the address space after the page has
got another. -/
theorem unmapped (h : s.Remaps s' roots r P) (hr : r ∈ roots) (hown : s.Own roots r v g) (hv : v.InUser)
    (hP : P v) {w : VPage} (hw : w.InUser) (he : s'.leaf r w = some e) : frameOf e ≠ g := by
  obtain ⟨held, ha⟩ := hown.account
  obtain ⟨e₀, he₀, -, hf₀⟩ := hown.entry
  have hused : s.refCount g ≠ 0 := hf₀ ▸ ha.refCount_leaf_ne hr hv he₀
  intro hf
  by_cases hPw : P w
  · obtain ⟨e', he', h0⟩ := h.fresh w hw hPw
    obtain rfl := Option.some.inj (he.symm.trans he')
    exact hused (hf ▸ h0)
  · have hold : s.leaf r w = some e := (h.kept r hr w hw fun hc => hPw hc.2).symm.trans he
    exact hPw ((hown.alone r hr w hw e hold hf).2 ▸ hP)

end Remaps

namespace Private

variable (h : s.Private roots r m) (hr : r ∈ roots)

include h hr

theorem root_lt : r < 2^52 := by
  obtain ⟨held, ha⟩ := h.account
  exact ha.root_lt hr

omit hr in
/-- The entry of a page that the address space has. -/
theorem leaf_ne_none (hv : v.InUser) : s.leaf r v ≠ none ↔ m v ≠ none := by
  refine not_congr ⟨fun hleaf => ?_, fun hm => h.absent v hv hm⟩
  by_contra hm
  obtain ⟨b, hb⟩ := Option.ne_none_iff_exists'.mp hm
  obtain ⟨g, hown, -⟩ := h.present v hv b hb
  obtain ⟨e, he, -⟩ := hown.entry
  rw [hleaf] at he
  cases he

/-- A read. -/
theorem readByte (hv : (vpage va).InUser) : s.readByte (convertVA r) va = m.readByte va := by
  cases hm : m (vpage va) with
  | none =>
    rw [Mm.readByte, getPteEntry_eq (h.root_lt hr), h.absent _ hv hm, Pages.readByte, hm]
    rfl
  | some b =>
    obtain ⟨g, hown, rfl⟩ := h.present _ hv b hm
    rw [hown.readByte hr rfl, Pages.readByte, hm, Option.map_some]

/-- A fresh frame is mapped at a page, whatever the page has had. -/
theorem mapFresh {data : Block} (hv : (vpage va).InUser)
    (hs : s.mapFresh (convertVA r) va data = some s') :
    s'.Private roots r (m.mapFresh va data) ∧ s.Remaps s' roots r fun w => w = vpage va := by
  obtain ⟨held, ha⟩ := h.account
  obtain ⟨g₀, held', ha', hm⟩ := ha.mapFresh hr hv hs
  refine ⟨⟨⟨held', ha'⟩, fun w hw hnone => ?_, fun w hw b hb => ?_⟩, hm.used, fun n hn w hw hne => ?_,
    fun w hw hwv => ⟨getPA g₀ ||| 7, ?_, hm.frame.symm ▸ hm.fresh⟩⟩
  · have hwv : w ≠ vpage va := fun hwv => by
      rw [hwv, Pages.mapFresh, Function.update_self] at hnone
      cases hnone
    rw [Pages.mapFresh, Function.update_of_ne hwv] at hnone
    rw [hm.leaf r hr w hw, if_neg fun hc => hwv hc.2, h.absent w hw hnone]
  · by_cases hwv : w = vpage va
    · obtain ⟨g, hown, hmem⟩ := ha.own_mapFresh hr hv hs
      rw [hwv, Pages.mapFresh, Function.update_self] at hb
      exact ⟨g, hwv ▸ hown, hmem.trans (Option.some.inj hb)⟩
    · rw [Pages.mapFresh, Function.update_of_ne hwv] at hb
      obtain ⟨g, hown, hmem⟩ := h.present w hw b hb
      obtain ⟨hown', hmem'⟩ := hown.mapFresh hr hw hv (Ne.symm hwv) hs
      exact ⟨g, hown', hmem'.trans hmem⟩
  · rw [hm.leaf n hn w hw, if_neg hne]
  · rw [hm.leaf r hr w hw, if_pos ⟨rfl, hwv⟩]

/-- A write to a page that the address space has. -/
theorem writeByte {b : Byte} (hs : s.writeByte (convertVA r) va b = some s') :
    ∃ m', m.writeByte va b = some m' ∧ s'.Private roots r m' ∧ s.Remaps s' roots r fun _ => False := by
  rw [Mm.writeByte, getPteEntry_eq (h.root_lt hr)] at hs
  cases he : s.leaf r (vpage va) with
  | none => simp [he] at hs
  | some e =>
    simp only [he, Option.ite_none_right_eq_some, Option.some.injEq] at hs
    obtain ⟨⟨-, hv⟩, rfl⟩ := hs
    obtain ⟨held, ha⟩ := h.account
    have hnot := ha.not_isTable hr hv he
    have hleaf : ∀ n ∈ roots, ∀ w : VPage, w.InUser →
        (s.setByte (frameOf e) (pageOff va) b).leaf n w = s.leaf n w := fun n hn w hw =>
      leaf_setBlock hnot hn hw
    obtain ⟨blk, hblk⟩ := Option.ne_none_iff_exists'.mp ((h.leaf_ne_none hv).mp (by rw [he]; exact Option.some_ne_none e))
    refine ⟨_, by rw [Pages.writeByte, hblk, Option.map_some], ⟨⟨held, ha.setBlock hnot⟩, fun w hw hnone => ?_,
      fun w hw b' hb' => ?_⟩, .of_leaf rfl hleaf⟩
    · have hwv : w ≠ vpage va := fun hwv => by
        rw [hwv, Function.update_self] at hnone
        cases hnone
      rw [Function.update_of_ne hwv] at hnone
      exact (hleaf r hr w hw).trans (h.absent w hw hnone)
    · by_cases hwv : w = vpage va
      · subst hwv
        obtain ⟨g, hown, rfl⟩ := h.present _ hw blk hblk
        obtain ⟨e', he', -, rfl⟩ := hown.entry
        obtain rfl := Option.some.inj (he.symm.trans he')
        rw [Function.update_self] at hb'
        exact ⟨frameOf e, hown.setByte hr hw hw he, (Function.update_self ..).trans (Option.some.inj hb')⟩
      · rw [Function.update_of_ne hwv] at hb'
        obtain ⟨g, hown, hmem⟩ := h.present w hw b' hb'
        have hne : g ≠ frameOf e := fun hc => hwv (hown.alone r hr _ hv e he hc.symm).2.symm
        exact ⟨g, hown.setByte hr hw hv he, (Function.update_of_ne hne ..).trans hmem⟩

/-- A copy to pages that the address space has. -/
theorem memcopyUser {source destination : Word} {n : ℕ}
    (hs : s.memcopyUser tar (convertVA r) source destination n = some s') :
    ∃ m', m.memcopyUser tar source destination n = some m' ∧ s'.Private roots r m' ∧
      s.Remaps s' roots r fun _ => False := by
  rw [Mm.memcopyUser] at hs
  rw [Pages.memcopyUser]
  -- The induction is on the list of offsets.
  generalize List.range n = offsets at hs ⊢
  induction offsets generalizing s m with
  | nil =>
    obtain rfl := Option.some.inj hs
    exact ⟨m, rfl, h, .refl⟩
  | cons i is ih =>
    rw [List.foldlM_cons] at hs
    obtain ⟨s₁, hs₁, hs⟩ := Option.bind_eq_some_iff.mp hs
    obtain ⟨m₁, hm₁, h₁, hr₁⟩ := h.writeByte hr hs₁
    obtain ⟨m', hm', h', hr'⟩ := ih h₁ hs
    refine ⟨m', ?_, h', (hr₁.trans hr hr').congr fun _ => or_self_iff⟩
    rw [List.foldlM_cons, hm₁]
    exact hm'

end Private

end Mm

end Nascent
