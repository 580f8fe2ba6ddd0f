import Nascent.Exec.Frames
import Nascent.Virmem.Regain

/-!
# Which segments stay intact

`Nascent.Exec.Overlap` says what the loop of `elf_read` over the program headers leaves where it comes to its end. It
comes to its end where the allocators can take the frames and the pages of each segment are mapped for it or for one
in front of it. Then no segment damages another if and only if no page is mapped for two of them
(`segments_intact_iff`).
-/

namespace Nascent

namespace Proc

open Memory (Mem)

variable {m : Mem} {elf : Word} {roots : Finset ℕ} {held : ℕ → ℕ} {r : ℕ} {l l' : Load} {fs : List ℕ} {ph : Phdr}

/-- What is copied for a segment lies in it. -/
theorem Phdr.Sound.contains (h : ph.Sound) {a : Word} (ha : ph.Copies a) : ph.Contains a := by
  have hle : ph.filesz.toNat ≤ ph.memsz.toNat := h.filesz_le
  have hbss := Phdr.bssSize_le h.filesz_le
  have hlt := ph.memsz.isLt
  rw [Phdr.Contains, BitVec.lt_def]
  rcases ha with ha | ha
  · exact (BitVec.lt_def.mp ha).trans_le hle
  · bv_omega

theorem Phdr.Sound.atUser (h : ph.Sound) : ph.AtUser := ⟨h.user, fun a ha => h.user a (h.contains ha)⟩

/-- The pages of each segment are mapped for it or for one in front of it. -/
def EachMapped (phs : List Phdr) : Prop :=
  ∀ front ph behind, phs = front ++ ph :: behind → ∀ a, ph.Contains a → vpage a ∈ pagesOf (front ++ [ph])

/-- So what is copied goes to pages that are there. -/
theorem covered_of_eachMapped (s : Mm) (r : ℕ) : ∀ (phs done : List Phdr), (∀ ph ∈ phs, ph.Sound) →
    (∀ front ph behind, phs = front ++ ph :: behind → ∀ a, ph.Contains a → vpage a ∈ pagesOf (done ++ front ++ [ph])) →
    Covered s r done phs
  | [], _, _, _ => trivial
  | ph :: phs, done, hsound, h => by
    refine ⟨fun a ha => .inr ?_, covered_of_eachMapped s r phs _ (fun q hq => hsound q (List.mem_cons_of_mem _ hq))
      fun front q behind heq a ha => ?_⟩
    · have hself := h [] ph phs rfl a ((hsound ph (List.mem_cons_self ..)).contains ha)
      rwa [List.append_nil] at hself
    · have hrest := h (ph :: front) q behind (congrArg (ph :: ·) heq) a ha
      rwa [List.append_assoc done, List.singleton_append]

/-- The state before the first header. -/
theorem loading_self (h : l.pools.mm.Accounted roots held) (hl : l.pools.mm.FreeChain fs) :
    Loading l.pools.mm roots r fs.length l.mm l.pools.freeVmas [] l where
  spent := ⟨held, h.spent hl⟩
  writes := fun _ _ => (or_iff_left List.not_mem_nil).symm
  vmas := (List.append_nil _).symm
  freeVmas := rfl

/-- In an address space that was empty, `elf_read` comes to the end of its program headers and no segment has damaged
another, if the allocators can take the frames for the pages and their tables, the pages of each segment are mapped
for it or for one in front of it, and no page is mapped for two of them. And where it comes to the end of the headers,
no segment has damaged another if and only if no page was mapped for two of them, and the pages of each were mapped
for some segment. -/
theorem segments_intact_iff (m : Mem) (elf : Word) (r : ℕ) (roots : Finset ℕ) (held : ℕ → ℕ)
    (xs : List (Phdr × Word × Word)) (l : Load) (ha : l.pools.mm.Accounted roots held) (hr : r ∈ roots)
    (hempty : ∀ v : VPage, v.InUser → l.pools.mm.leaf r v = none) (hsegs : Segments (loads xs)) :
    ((∃ fs, l.pools.mm.Stock fs ∧ cost l.pools.mm r (pagesOf (loads xs)) ≤ fs.length) ∧ EachMapped (loads xs) ∧
        Unshared (loads xs) →
      ∃ l', xs.foldlM (loadSegment m elf (convertVA r)) l = .ok l' ∧ Intact m elf r xs l l') ∧
    ∀ l', xs.foldlM (loadSegment m elf (convertVA r)) l = .ok l' →
      (Intact m elf r xs l l' ↔ Unshared (loads xs) ∧
        ∀ ph ∈ loads xs, ∀ a, ph.Contains a → ∃ q ∈ loads xs, vpage a ∈ q.mappedPages) := by
  constructor
  · rintro ⟨⟨fs, ⟨⟨fs', hchain⟩, -⟩, hcost⟩, hmapped, hunsh⟩
    have hroom : cost l.pools.mm r (pagesOf ([] ++ loads xs)) ≤ (fs ++ fs').length := by
      rw [List.length_append]
      exact hcost.trans (Nat.le_add_right _ _)
    obtain ⟨l', hs⟩ := Loading.exists_run hr m elf xs [] l (loading_self ha hchain)
      (fun ph hph => (hsegs.sound ph hph).atUser) hroom
      (covered_of_eachMapped _ _ _ _ hsegs.sound fun front ph behind heq a hc => hmapped front ph behind heq a hc)
    refine ⟨l', hs, (intact_iff_of_ok m elf r roots held xs l l' ha hr hempty hsegs hs).mpr ⟨hunsh, ?_⟩⟩
    intro ph hph a hc
    obtain ⟨front, behind, heq⟩ := List.append_of_mem hph
    obtain ⟨q, hq, hv⟩ := List.mem_flatMap.mp (hmapped front ph behind heq a hc)
    refine ⟨q, ?_, hv⟩
    rw [heq, List.append_cons]
    exact List.mem_append_left _ hq
  · exact fun l' hs => intact_iff_of_ok m elf r roots held xs l l' ha hr hempty hsegs hs

/-! ## Two small segments -/

/-- A data segment of one byte. -/
def byteSegment (vaddr : Word) : Phdr := ⟨1, 6, 0, vaddr, 1, 1⟩

/-- Two such segments. -/
def smallPair (a b : Word) : List (Phdr × Word × Word) := [(byteSegment a, 0, 0), (byteSegment b, 0, 0)]

/-- A task with an empty address space in a small memory. -/
def emptyLoad : Load := ⟨.clean, ⟨Mm.roomy, fun _ => ⟨0, 0, 0, .anon, 0, 0⟩, []⟩, 0⟩

/-- A file of which every byte is 5. -/
def fives : Mem := fun _ => 5

theorem emptyLoad_leaf (v : VPage) : emptyLoad.pools.mm.leaf 0 v = none := by
  have hnil : v.dir ≠ [] := List.cons_ne_nil _ _
  by_contra hleaf
  obtain ⟨e, he⟩ := Option.ne_none_iff_exists'.mp hleaf
  obtain ⟨t, ht, -⟩ := Option.bind_eq_some_iff.mp he
  exact hnil (Mm.table_of_zero rfl ⟨rfl, by simp [VPage.dir]⟩ ht).1

theorem segments_smallPair {a b : Word} (ha : a.toNat + 1 ≤ b.toNat) (hb : b.toNat + 1 ≤ 2^47) :
    Segments (loads (smallPair a b)) := by
  have hsound : ∀ x : Word, x.toNat + 1 ≤ 2^47 → (byteSegment x).Sound := fun x hx =>
    ⟨fun c hc => by
      have hlt : (c - x).toNat < 1 := hc
      rw [BitVec.toNat_sub] at hlt
      rw [UserAddr]
      have hclt := c.isLt
      omega, BitVec.le_refl _⟩
  have hloads : loads (smallPair a b) = [byteSegment a, byteSegment b] := rfl
  rw [hloads]
  refine ⟨fun ph hph => ?_, List.pairwise_pair.mpr fun c hca hcb => ?_⟩
  · rcases List.mem_pair.mp hph with rfl | rfl
    · exact hsound a (by omega)
    · exact hsound b hb
  · have hlow := ((Phdr.contains_iff (hsound a (by omega)).user).mp hca).2
    have hhigh := ((Phdr.contains_iff (hsound b hb).user).mp hcb).1
    have hsize : (byteSegment a).vaddr.toNat + (byteSegment a).memsz.toNat = a.toNat + 1 := rfl
    have hstart : (byteSegment b).vaddr.toNat = b.toNat := rfl
    omega

/-- Segments on two pages. -/
theorem segments_intact_iff_pages : ∃ l', (smallPair 0x400000 0x401000).foldlM
      (loadSegment fives 0 (convertVA 0)) emptyLoad = .ok l' ∧
    Intact fives 0 0 (smallPair 0x400000 0x401000) emptyLoad l' := by
  have hsegs : Segments (loads (smallPair 0x400000 0x401000)) := segments_smallPair (by decide) (by decide)
  have hloads : loads (smallPair 0x400000 0x401000) = [byteSegment 0x400000, byteSegment 0x401000] := rfl
  have hmapped : ∀ x : Word, (byteSegment x).mappedPages = [vpage x] := fun x => by
    have hcount : (byteSegment x).stepCount = 1 := by
      show ((1 : Word).toNat + 4095) / 4096 = 1
      decide
    rw [Phdr.mappedPages, hcount]
    exact congrArg (fun y => [vpage y]) (stepAddr_zero x)
  have hone : ∀ x a : Word, (byteSegment x).Contains a → a = x := fun x a ha => by
    have hlt : a - x < 1 := ha
    bv_omega
  have hstock : emptyLoad.pools.mm.Stock [1, 2, 3, 4, 5] :=
    ⟨⟨[], by decide, by decide, by decide, by decide⟩, by decide⟩
  have hcost : cost emptyLoad.pools.mm 0 (pagesOf (loads (smallPair 0x400000 0x401000))) ≤ 5 := by
    have hcard : (pathsTo (pagesOf [byteSegment 0x400000, byteSegment 0x401000])).card = 3 := by
      rw [pagesOf, List.flatMap_cons, List.flatMap_singleton, hmapped, hmapped]
      decide
    have hlen : (pagesOf [byteSegment 0x400000, byteSegment 0x401000]).length = 2 := by
      rw [pagesOf, List.flatMap_cons, List.flatMap_singleton, hmapped, hmapped]
      rfl
    rw [hloads, cost, hlen]
    exact Nat.add_le_add_left (Mm.card_missing_le.trans hcard.le) 2
  refine (segments_intact_iff fives 0 0 {0} Mm.roomy.refCount (smallPair 0x400000 0x401000) emptyLoad
    Mm.accounted_roomy (Finset.mem_singleton_self 0) (fun v _ => emptyLoad_leaf v) hsegs).1
    ⟨⟨_, hstock, hcost⟩, fun front ph behind heq a hc => ?_, ?_⟩
  · have hmem : ph ∈ loads (smallPair 0x400000 0x401000) := by
      rw [heq]
      exact List.mem_append_right _ (List.mem_cons_self ..)
    rw [pagesOf_concat]
    refine List.mem_append_right _ ?_
    rw [hloads] at hmem
    rcases List.mem_pair.mp hmem with rfl | rfl
    · rw [hone _ a hc, hmapped]
      exact List.mem_singleton_self _
    · rw [hone _ a hc, hmapped]
      exact List.mem_singleton_self _
  · rw [hloads]
    refine List.pairwise_pair.mpr fun v hv => ?_
    rw [hmapped, List.mem_singleton] at hv ⊢
    rw [hv]
    decide

/-- Segments on one page: the first one is lost. -/
theorem first_segment_lost : ¬ ∀ (m : Mem) (elf : Word) (r : ℕ) (roots : Finset ℕ) (held : ℕ → ℕ)
    (xs : List (Phdr × Word × Word)) (l l' : Load), l.pools.mm.Accounted roots held → r ∈ roots →
    (∀ v : VPage, v.InUser → l.pools.mm.leaf r v = none) → Segments (loads xs) →
    xs.foldlM (loadSegment m elf (convertVA r)) l = .ok l' → Intact m elf r xs l l' := by
  intro hall
  have hread : ((smallPair 0x400000 0x400100).foldlM (loadSegment fives 0 (convertVA 0)) emptyLoad).toOption.map
      (fun l' => l'.pools.mm.readByte (convertVA 0) 0x400000) = some (some 0) := by
    decide +kernel
  cases hs : (smallPair 0x400000 0x400100).foldlM (loadSegment fives 0 (convertVA 0)) emptyLoad with
  | error e =>
    rw [hs] at hread
    cases hread
  | ok l' =>
    have hintact := hall fives 0 0 {0} Mm.roomy.refCount _ emptyLoad l' Mm.accounted_roomy
      (Finset.mem_singleton_self 0) (fun v _ => emptyLoad_leaf v) (segments_smallPair (by decide) (by decide)) hs
    have hfive := hintact.bytes (byteSegment 0x400000) (List.mem_cons_self ..) 0x400000 (by decide)
    rw [hs] at hread
    have hzero : l'.pools.mm.readByte (convertVA 0) 0x400000 = some 0 := Option.some.inj hread
    rw [hzero] at hfive
    exact absurd hfive (by decide)

end Proc

end Nascent
