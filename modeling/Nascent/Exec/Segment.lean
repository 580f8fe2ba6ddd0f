import Nascent.Cow.Simulation
import Nascent.Exec.Model
import Nascent.Virmem.Map

/-!
# The pages of a segment

The loop of `elf_read` that maps a frame at each page of a segment. It steps by the size of a page from the
first address of the segment, which need not be the start of a page, and stops at the end of the segment. So
it maps as many pages as the size of the segment rounded up, from the page of the first address on. Where
the segment begins late in its first page and ends early in its last one, the last page is one more
(`segment_mapped_iff`).
-/

namespace Nascent

namespace Mm

variable {s s' : Mm} {r g : ℕ} {l : List ℕ}

/-- A frame from `kmalloc` is off the tables, so no page changes. -/
theorem Paged.takeHead (h : s.Paged r l) (hg : s.freePageHead = some g) :
    (s.takeHead g (convertVA g)).Paged r l.tail ∧ (s.takeHead g (convertVA g)).pageMap r = s.pageMap r := by
  obtain ⟨l', rfl⟩ : ∃ l', l = g :: l' := by
    have hstart := h.free.start_eq
    rw [hg] at hstart
    exact List.head?_eq_some_iff.mp hstart.symm
  have hb := h.lt g (List.mem_cons_self ..)
  have hO := positions_below r
  have htbl : ∀ m, s.IsTable (Below r) m → (s.takeHead g (convertVA g)).tbl m = s.tbl m := by
    intro m hm
    have hmg : m ≠ g := fun hmg => h.off m hm (hmg ▸ List.mem_cons_self ..)
    rw [takeHead_eq hb]
    exact tbl_congr (Function.update_of_ne hmg ..)
  refine ⟨⟨?_, fun f hf => h.lt f (List.mem_cons_of_mem _ hf), h.root, h.separate.frame hO htbl,
    fun t ht hm => h.off t ((isTable_frame hO htbl).mp ht) (List.mem_cons_of_mem _ hm)⟩,
    funext fun v => leaf_frame hO htbl ⟨rfl, le_refl _⟩⟩
  rw [takeHead_eq hb]
  exact h.free.2

/-- `kmalloc` takes the head of the free list. -/
theorem Paged.kmalloc {p : Word} (h : s.Paged r l) (hs : s.kmalloc = some (p, s')) :
    s'.Paged r l.tail ∧ s'.pageMap r = s.pageMap r ∧ l ≠ [] := by
  cases hg : s.freePageHead with
  | none =>
    rw [Mm.kmalloc, hg] at hs
    cases hs
  | some g =>
    rw [(alloc_eq hg).2.1] at hs
    obtain ⟨-, rfl⟩ := Prod.mk.inj (Option.some.inj hs)
    obtain ⟨hp, hmap⟩ := h.takeHead hg
    refine ⟨hp, hmap, ?_⟩
    rintro rfl
    rw [h.free.start_eq] at hg
    cases hg

end Mm

namespace Proc

open Mm (present?)

variable {s s' : Mm} {r fuel : ℕ} {l : List ℕ} {pres stop : Word}

/-- The address from which the loop maps its page in the repetition `i`. -/
def stepAddr (start : Word) (i : ℕ) : Word := start + BitVec.ofNat 64 (4096 * i)

theorem stepAddr_zero (start : Word) : stepAddr start 0 = start := BitVec.add_zero start

theorem stepAddr_succ (start : Word) (i : ℕ) : stepAddr (start + 4096) i = stepAddr start (i + 1) := by
  rw [stepAddr, stepAddr, BitVec.add_assoc, Nat.mul_succ, Nat.add_comm, BitVec.ofNat_add]
  rfl

/-- The repetitions of the loop: the first, and those of the rest. -/
theorem exists_step_succ {P : Word → Prop} {pres : Word} {n : ℕ} :
    (∃ i < n + 1, P (stepAddr pres i)) ↔ P pres ∨ ∃ i < n, P (stepAddr (pres + 4096) i) := by
  constructor
  · rintro ⟨i, hi, hP⟩
    cases i with
    | zero =>
      rw [stepAddr_zero] at hP
      exact .inl hP
    | succ i => exact .inr ⟨i, by omega, by rwa [stepAddr_succ]⟩
  · rintro (hP | ⟨i, hi, hP⟩)
    · exact ⟨0, by omega, by rwa [stepAddr_zero]⟩
    · exact ⟨i + 1, by omega, by rwa [← stepAddr_succ]⟩

/-- What all repetitions of the loop do: the first, and those of the rest. -/
theorem forall_step_succ {P : Word → Prop} {pres : Word} {n : ℕ} :
    (∀ i < n + 1, P (stepAddr pres i)) ↔ P pres ∧ ∀ i < n, P (stepAddr (pres + 4096) i) := by
  constructor
  · intro h
    have hfirst := h 0 (Nat.succ_pos n)
    rw [stepAddr_zero] at hfirst
    refine ⟨hfirst, fun i hi => ?_⟩
    rw [stepAddr_succ]
    exact h (i + 1) (Nat.succ_lt_succ hi)
  · rintro ⟨hfirst, hrest⟩ i hi
    cases i with
    | zero => rwa [stepAddr_zero]
    | succ i =>
      rw [← stepAddr_succ]
      exact hrest i (Nat.lt_of_succ_lt_succ hi)

/-- The loop maps a page in each repetition, and each repetition takes a frame. -/
theorem mapSegment_spec : ∀ (fuel : ℕ) (pres : Word) (s : Mm) (l : List ℕ), s.Paged r l →
    mapSegment (convertVA r) stop fuel pres s = some s' →
    ∃ n ≤ l.length, (∃ k, s'.Paged r (l.drop k)) ∧ (∀ i < n, stepAddr pres i < stop) ∧
      ¬ stepAddr pres n < stop ∧
      ∀ v, s'.pageMap r v ≠ none ↔ s.pageMap r v ≠ none ∨ ∃ i < n, v = vpage (stepAddr pres i)
  | 0, _, _, _, _, hs => by cases hs
  | fuel + 1, pres, s, l, hp, hs => by
    rw [mapSegment] at hs
    split at hs
    · rename_i hlt
      obtain ⟨⟨phys, s₁⟩, hk, hs⟩ := Option.bind_eq_some_iff.mp hs
      obtain ⟨s₂, hm, hs⟩ := Option.bind_eq_some_iff.mp hs
      obtain ⟨hp₁, hmap₁, hne⟩ := hp.kmalloc hk
      obtain ⟨⟨k, -, hp₂⟩, hmap₂⟩ := hp₁.setMapping hm
      obtain ⟨n, hn, ⟨k', hp'⟩, hsteps, hstop, hmap⟩ := mapSegment_spec fuel (pres + 4096) s₂ _ hp₂ hs
      have hpos := List.length_pos_of_ne_nil hne
      rw [List.length_drop, List.length_tail] at hn
      rw [List.drop_drop, ← List.drop_one, List.drop_drop] at hp'
      rw [present?, if_pos (Mm.present_or_seven _), vpage_scaleDown, hmap₁] at hmap₂
      refine ⟨n + 1, by omega, ⟨_, hp'⟩, forall_step_succ (P := (· < stop)).mpr ⟨hlt, hsteps⟩, ?_, fun v => ?_⟩
      · rwa [← stepAddr_succ]
      · rw [hmap v, hmap₂]
        -- The first page, and those of the rest of the loop.
        have hfirst : Function.update (s.pageMap r) (vpage pres) (some (phys ||| 7)) v ≠ none ↔
            s.pageMap r v ≠ none ∨ v = vpage pres := by
          by_cases hv : v = vpage pres
          · rw [hv, Function.update_self]
            exact iff_of_true (Option.some_ne_none _) (.inr rfl)
          · rw [Function.update_of_ne hv]
            exact (or_iff_left hv).symm
        rw [hfirst, or_assoc, exists_step_succ (P := fun a => v = vpage a)]
    · rename_i hge
      obtain rfl := Option.some.inj hs
      refine ⟨0, Nat.zero_le _, ⟨0, hp⟩, fun i hi => absurd hi (Nat.not_lt_zero i), by rwa [stepAddr_zero],
        fun v => ⟨.inl, ?_⟩⟩
      rintro (hv | ⟨i, hi, -⟩)
      · exact hv
      · exact absurd hi (Nat.not_lt_zero i)

/-- With four frames for each page, the loop returns. -/
theorem mapSegment_isSome {n : ℕ} (hp : s.Paged r l) (hlen : 4 * n ≤ l.length) (hfuel : n < fuel)
    (hsteps : ∀ i < n, stepAddr pres i < stop) (hstop : ¬ stepAddr pres n < stop) :
    (mapSegment (convertVA r) stop fuel pres s).isSome := by
  induction fuel generalizing n pres s l with
  | zero => exact absurd hfuel (Nat.not_lt_zero n)
  | succ fuel ih =>
    rw [mapSegment]
    cases n with
    | zero =>
      rw [stepAddr_zero] at hstop
      rw [if_neg hstop]
      rfl
    | succ n =>
      obtain ⟨hfirst, hsteps⟩ := forall_step_succ (P := (· < stop)).mp hsteps
      have hne : l ≠ [] := List.ne_nil_of_length_pos (by omega)
      obtain ⟨g, l', rfl⟩ := List.exists_cons_of_ne_nil hne
      have hg : s.freePageHead = some g := hp.free.1
      obtain ⟨hp₁, -⟩ := hp.takeHead hg
      rw [List.length_cons] at hlen
      rw [List.tail_cons] at hp₁
      obtain ⟨s₂, hs₂⟩ := Option.isSome_iff_exists.mp
        (hp₁.setMapping_isSome (by omega) (scaleDown pres) (getPA g) 7)
      obtain ⟨⟨k, hk, hp₂⟩, -⟩ := hp₁.setMapping hs₂
      have hrest : (mapSegment (convertVA r) stop fuel (pres + 4096) s₂).isSome :=
        ih hp₂ (by rw [List.length_drop]; omega) (Nat.lt_of_succ_lt_succ hfuel)
          hsteps (by rwa [stepAddr_succ])
      rw [if_pos hfirst, (Mm.alloc_eq hg).2.1]
      simp only [Option.bind_eq_bind, Option.bind_some, hs₂]
      exact hrest

/-- The number of pages that the loop maps for a segment. -/
def Phdr.stepCount (ph : Phdr) : ℕ := (ph.memsz.toNat + 4095) / 4096

section Steps

variable {ph : Phdr} {n : ℕ} (hwrap : ph.vaddr.toNat + ph.memsz.toNat < 2^64)

include hwrap

theorem toNat_endAddr : ph.endAddr.toNat = ph.vaddr.toNat + ph.memsz.toNat := by
  rw [Phdr.endAddr, BitVec.toNat_add]
  exact Nat.mod_eq_of_lt hwrap

/-- Where the loop stops without running out of frames, it has not wrapped around. -/
theorem stepCount_eq (hn : n < 2^31) (hsteps : ∀ i < n, stepAddr ph.vaddr i < ph.endAddr)
    (hstop : ¬ stepAddr ph.vaddr n < ph.endAddr) :
    n = ph.stepCount ∧ ph.vaddr.toNat + 4096 * n < 2^64 := by
  have hend := toNat_endAddr hwrap
  have hstep : ∀ i < 2^31, (stepAddr ph.vaddr i).toNat = (ph.vaddr.toNat + 4096 * i) % 2^64 := by
    intro i hi
    rw [stepAddr, BitVec.toNat_add, BitVec.toNat_ofNat, Nat.mod_eq_of_lt (by omega : 4096 * i < 2^64)]
  rw [BitVec.lt_def, hend, hstep n hn] at hstop
  have hlast : 0 < n → (ph.vaddr.toNat + 4096 * (n - 1)) % 2^64 < ph.vaddr.toNat + ph.memsz.toNat := by
    intro hpos
    have hlt := hsteps (n - 1) (by omega)
    rwa [BitVec.lt_def, hend, hstep _ (by omega)] at hlt
  rw [Phdr.stepCount]
  omega

omit hwrap in
/-- The address of a repetition. -/
theorem toNat_stepAddr {i : ℕ} (hi : i ≤ n) (hn : ph.vaddr.toNat + 4096 * n < 2^64) :
    (stepAddr ph.vaddr i).toNat = ph.vaddr.toNat + 4096 * i := by
  rw [stepAddr, BitVec.toNat_add, BitVec.toNat_ofNat, Nat.mod_eq_of_lt (by omega : 4096 * i < 2^64)]
  exact Nat.mod_eq_of_lt (by omega)

/-- The loop goes through all its repetitions and stops, where the addresses do not wrap around. -/
theorem stepCount_spec (htop : ph.vaddr.toNat + 4096 * ph.stepCount < 2^64) :
    (∀ i < ph.stepCount, stepAddr ph.vaddr i < ph.endAddr) ∧ ¬ stepAddr ph.vaddr ph.stepCount < ph.endAddr := by
  have hend := toNat_endAddr hwrap
  constructor
  · intro i hi
    rw [BitVec.lt_def, toNat_stepAddr hi.le htop, hend]
    rw [Phdr.stepCount] at hi
    omega
  · rw [BitVec.lt_def, toNat_stepAddr le_rfl htop, hend, Phdr.stepCount]
    omega

end Steps

/-- The frames of the free list are frames of the machine, so there are fewer than `2^31`. -/
theorem length_lt_of_freeChain (hl : s.FreeChain l) : l.length ≤ s.pageCount ∧ l.length < 2^31 := by
  have hle : l.length ≤ s.pageCount := by
    have hsub : l.toFinset ⊆ Finset.range s.pageCount := fun f hf =>
      Finset.mem_range.mpr (hl.lt f (List.mem_toFinset.mp hf))
    have hcard := Finset.card_le_card hsub
    rwa [List.toFinset_card_of_nodup hl.chain.nodup, Finset.card_range] at hcard
  exact ⟨hle, hle.trans_lt hl.bound⟩

/-- The loop of `elf_read` leaves every page of a segment present if and only if the offset of the first
address in its page and that of the last address from there do not add up to another page, or the last page
was present before. The loop returns where there are frames for its pages and their tables. -/
theorem segment_mapped_iff (s : Mm) (r : ℕ) (l : List ℕ) (ph : Phdr) (hp : s.Paged r l)
    (hl : s.FreeChain l) (hpos : 0 < ph.memsz.toNat)
    (hwrap : ph.vaddr.toNat + ph.memsz.toNat < 2^64) :
    (4 * ph.stepCount ≤ l.length → ph.vaddr.toNat + 4096 * ph.stepCount < 2^64 →
      (mapSegment (convertVA r) ph.endAddr (s.pageCount + 1) ph.vaddr s).isSome) ∧
    ∀ s', mapSegment (convertVA r) ph.endAddr (s.pageCount + 1) ph.vaddr s = some s' →
      ((∀ va, ph.vaddr ≤ va → va < ph.endAddr → s'.getPteEntry (convertVA r) va ≠ none) ↔
        ph.vaddr.toNat % 4096 + (ph.memsz.toNat - 1) % 4096 < 4096 ∨
          s.getPteEntry (convertVA r) (ph.endAddr - 1) ≠ none) := by
  have hend := toNat_endAddr hwrap
  obtain ⟨hle, hlt⟩ := length_lt_of_freeChain hl
  refine ⟨fun hlen htop => ?_, fun s' hs => ?_⟩
  · obtain ⟨hsteps, hstop⟩ := stepCount_spec hwrap htop
    exact mapSegment_isSome hp hlen (by omega) hsteps hstop
  · obtain ⟨n, hn, ⟨k, hp'⟩, hsteps, hstop, hmap⟩ := mapSegment_spec _ _ _ _ hp hs
    obtain ⟨rfl, htop⟩ := stepCount_eq hwrap (by omega) hsteps hstop
    have haddr := fun i (hi : i ≤ ph.stepCount) => toNat_stepAddr hi htop
    have hlast : (ph.endAddr - 1).toNat = ph.vaddr.toNat + ph.memsz.toNat - 1 := by
      rw [BitVec.toNat_sub, hend]
      have hone : (1 : Word).toNat = 1 := rfl
      omega
    have hcount : 4096 * (ph.stepCount - 1) < ph.memsz.toNat ∧ ph.memsz.toNat ≤ 4096 * ph.stepCount ∧
        0 < ph.stepCount := by
      rw [Phdr.stepCount]
      omega
    simp only [hp'.getPteEntry, hp.getPteEntry, hmap]
    constructor
    · intro hall
      -- The last page was mapped by the loop, or it was present before.
      obtain hbefore | ⟨i, hi, hpage⟩ := hall (ph.endAddr - 1)
        (by rw [BitVec.le_def, hlast]; omega) (by rw [BitVec.lt_def, hlast, hend]; omega)
      · exact .inr hbefore
      · rw [vpage_eq_iff_div, hlast, haddr i hi.le] at hpage
        exact .inl (by omega)
    · intro hcond va hva hva'
      rw [BitVec.le_def] at hva
      rw [BitVec.lt_def, hend] at hva'
      by_cases hin : va.toNat / 4096 < ph.vaddr.toNat / 4096 + ph.stepCount
      · refine .inr ⟨va.toNat / 4096 - ph.vaddr.toNat / 4096, by omega, vpage_eq_of_div ?_⟩
        rw [haddr _ (by omega)]
        omega
      · rcases hcond with hoffset | hbefore
        · omega
        · have hpage : vpage va = vpage (ph.endAddr - 1) := vpage_eq_of_div (by rw [hlast]; omega)
          exact .inl (hpage ▸ hbefore)

/-- A data segment of 32 bytes from an address on. -/
def smallSegment (vaddr : Word) : Phdr := ⟨1, 6, 0, vaddr, 32, 32⟩

theorem segment_mapped_iff_small :
    (mapSegment (convertVA 0) (smallSegment 0x400000).endAddr 6 0x400000 Mm.blank).isSome ∧
    ∀ s', mapSegment (convertVA 0) (smallSegment 0x400000).endAddr 6 0x400000 Mm.blank = some s' →
      ∀ va : Word, 0x400000 ≤ va → va < (smallSegment 0x400000).endAddr →
        s'.getPteEntry (convertVA 0) va ≠ none := by
  obtain ⟨hreturns, hiff⟩ := segment_mapped_iff Mm.blank 0 [1, 2, 3, 4] (smallSegment 0x400000)
    Mm.paged_blank Mm.freeChain_blank (by decide) (by decide)
  exact ⟨hreturns (by decide) (by decide), fun s' hs => (hiff s' hs).mpr (.inl (by decide))⟩

/-- A segment that begins 16 bytes before the end of a page and ends 16 bytes behind it. -/
theorem last_page_missing : ¬ ∀ (s : Mm) (r : ℕ) (l : List ℕ) (ph : Phdr), s.Paged r l → s.FreeChain l →
    0 < ph.memsz.toNat → ph.vaddr.toNat + ph.memsz.toNat < 2^64 →
    ∀ s', mapSegment (convertVA r) ph.endAddr (s.pageCount + 1) ph.vaddr s = some s' →
      ∀ va, ph.vaddr ≤ va → va < ph.endAddr → s'.getPteEntry (convertVA r) va ≠ none := by
  intro hall
  have hsteps : ∀ i < 1, stepAddr 0x400ff0 i < (smallSegment 0x400ff0).endAddr := by decide
  have hstop : ¬ stepAddr 0x400ff0 1 < (smallSegment 0x400ff0).endAddr := by decide
  have hsome : (mapSegment (convertVA 0) (smallSegment 0x400ff0).endAddr 6 0x400ff0 Mm.blank).isSome :=
    mapSegment_isSome Mm.paged_blank (by decide) (by decide) hsteps hstop
  obtain ⟨s', hs⟩ := Option.isSome_iff_exists.mp hsome
  have hpresent := hall Mm.blank 0 [1, 2, 3, 4] (smallSegment 0x400ff0) Mm.paged_blank Mm.freeChain_blank
    (by decide) (by decide) s' hs 0x401000 (by decide) (by decide)
  obtain ⟨n, hn, ⟨k, hp⟩, hsteps', hstop', hmap⟩ := mapSegment_spec _ _ _ _ Mm.paged_blank hs
  obtain ⟨rfl, -⟩ := @stepCount_eq (smallSegment 0x400ff0) _ (by decide)
    (hn.trans_lt (by decide)) hsteps' hstop'
  rw [hp.getPteEntry] at hpresent
  -- The second page is not one that the loop maps, and the blank memory has none.
  rcases (hmap _).mp hpresent with hbefore | ⟨i, hi, hpage⟩
  · rw [← Mm.paged_blank.getPteEntry] at hbefore
    exact hbefore (by decide)
  · obtain rfl : i = 0 := Nat.lt_one_iff.mp hi
    exact absurd hpage (by decide)

end Proc

end Nascent
