import Nascent.Cow.Isolation
import Nascent.Cow.Overmap
import Nascent.Exec.Segment
import Nascent.Proc.Fork
import Nascent.Virmem.Release

/-!
# Segments that share a page

`elf_read` maps fresh frames at the pages of each segment without a look at what an earlier segment has
there. Two segments with disjoint bytes may still lie on one page: the second one then hides the frame of
the first, with the bytes of the first on it. Where no page is mapped for two segments, each segment keeps
its bytes, whatever the order of the headers (`intact_iff_of_ok`).
-/

namespace Nascent

open Bytes (Byte)

/-- The address is canonical, and none of the kernel's. -/
def UserAddr (a : Word) : Prop := a.toNat < 2^47 ∨ 2^64 - 2^47 ≤ a.toNat ∧ a.toNat < 2^64 - 2^39

instance (a : Word) : Decidable (UserAddr a) := inferInstanceAs (Decidable (_ ∨ _))

theorem UserAddr.inUser {a : Word} (h : UserAddr a) : (vpage a).InUser := by
  rw [inUser_iff]
  rw [UserAddr] at h
  omega

/-- The page and the offset of an address. -/
theorem UserAddr.ext {a b : Word} (ha : UserAddr a) (hb : UserAddr b) (hpage : vpage a = vpage b)
    (hoff : pageOff a = pageOff b) : a = b := by
  have hoffa : pageOff a = a.toNat % 4096 := toNat_and_pageOff a
  have hoffb : pageOff b = b.toNat % 4096 := toNat_and_pageOff b
  rw [vpage_eq_iff_div] at hpage
  rw [UserAddr] at ha hb
  apply BitVec.eq_of_toNat_eq
  omega

namespace Pages

variable {m m' : Pages} {tar : Word → Byte} {source destination w : Word}

/-- A copy writes to pages that are there, and leaves all pages there. -/
theorem memcopyUser_none : ∀ (n : ℕ) (m' : Pages), m.memcopyUser tar source destination n = some m' →
    (∀ v, m' v = none ↔ m v = none) ∧ ∀ i < n, m (vpage (destination + BitVec.ofNat 64 i)) ≠ none
  | 0, m', hs => by
    obtain rfl := Option.some.inj hs
    exact ⟨fun _ => Iff.rfl, fun i hi => absurd hi (Nat.not_lt_zero i)⟩
  | n + 1, m', hs => by
    rw [memcopyUser, Runs.foldlM_range_succ] at hs
    obtain ⟨m₁, h₁, hs⟩ := Option.bind_eq_some_iff.mp hs
    obtain ⟨hnone, hpages⟩ := memcopyUser_none n m₁ h₁
    obtain ⟨blk, hblk, rfl⟩ := Option.map_eq_some_iff.mp hs
    refine ⟨fun v => ?_, fun i hi => ?_⟩
    · rw [← hnone v]
      by_cases hv : v = vpage (destination + BitVec.ofNat 64 n)
      · rw [hv, Function.update_self, hblk]
        simp
      · rw [Function.update_of_ne hv]
    · rcases Nat.lt_succ_iff_lt_or_eq.mp hi with hlt | rfl
      · exact hpages i hlt
      · rw [ne_eq, ← hnone, hblk]
        simp

/-- What is read after a copy to user addresses. -/
theorem readByte_memcopyUser (hw : UserAddr w) : ∀ (n : ℕ) (m' : Pages), n < 2^64 →
    (∀ i < n, UserAddr (destination + BitVec.ofNat 64 i)) →
    m.memcopyUser tar source destination n = some m' →
    m'.readByte w = if (w - destination).toNat < n then some (tar (source + (w - destination)))
      else m.readByte w
  | 0, m', _, _, hs => by
    obtain rfl := Option.some.inj hs
    rw [if_neg (Nat.not_lt_zero _)]
  | n + 1, m', hn, huser, hs => by
    rw [memcopyUser, Runs.foldlM_range_succ] at hs
    obtain ⟨m₁, h₁, hs⟩ := Option.bind_eq_some_iff.mp hs
    have hread := readByte_memcopyUser hw n m₁ (by omega) (fun i hi => huser i (by omega)) h₁
    by_cases hlast : w = destination + BitVec.ofNat 64 n
    · -- The byte that this step writes.
      have hdist : w - destination = BitVec.ofNat 64 n := by
        rw [hlast, BitVec.add_comm, BitVec.add_sub_cancel]
      have hnat : (w - destination).toNat = n := by
        rw [hdist, BitVec.toNat_ofNat]
        exact Nat.mod_eq_of_lt (by omega)
      rw [if_pos (by omega), hdist]
      rw [← hlast] at hs
      exact readByte_writeByte hs
    · have hne : (w - destination).toNat ≠ n := fun hc => hlast (by
        have hdist : w - destination = BitVec.ofNat 64 n := BitVec.eq_of_toNat_eq (by
          rw [hc, BitVec.toNat_ofNat]
          exact (Nat.mod_eq_of_lt (by omega)).symm)
        rw [← hdist, BitVec.add_comm, BitVec.sub_add_cancel])
      rw [readByte_writeByte_of_ne hs fun hc => hlast (hw.ext (huser n (by omega))
        (Prod.mk.inj hc).1 (Prod.mk.inj hc).2), hread]
      exact if_congr (by omega) rfl rfl

end Pages

namespace Mm

variable {s s' : Mm} {roots : Finset ℕ} {held : ℕ → ℕ} {r : ℕ} {va : Word}

/-- A frame from `kmalloc` has zeros. -/
theorem Accounted.mapFresh_zero (h : s.Accounted roots held) (pml4 va : Word) :
    (s.kmalloc.bind fun p => p.2.setMapping pml4 va p.1 7) = s.mapFresh pml4 va Bytes.zero := by
  cases hg : s.freePageHead with
  | none =>
    have hnone : s.kmalloc = none := by simp [kmalloc, hg]
    rw [Mm.mapFresh, hnone]
    rfl
  | some g =>
    have hb := h.lt_two_pow (h.head hg).1
    have hzero : (s.takeHead g (convertVA g)).setBlock g Bytes.zero = s.takeHead g (convertVA g) := by
      rw [takeHead_eq hb, Mm.setBlock, Function.update_idem]
    simp only [Mm.mapFresh, (alloc_eq hg).2.1, frameOf_getPA hb, Option.bind_eq_bind, Option.bind_some, hzero]

end Mm

namespace Proc

open Memory (Mem)

/-! ## One segment -/

namespace Phdr

variable (ph : Phdr)

/-- The address lies in the segment. -/
def Contains (a : Word) : Prop := a - ph.vaddr < ph.memsz

instance (a : Word) : Decidable (ph.Contains a) := inferInstanceAs (Decidable (_ < _))

/-- What the segment has at an address: the contents of the file, and zeros behind them. -/
def byteAt (m : Mem) (elf a : Word) : Byte :=
  if a - ph.vaddr < ph.filesz then m (elf + ph.offset + (a - ph.vaddr)) else 0

/-- The pages that the loop of `elf_read` maps for the segment. -/
def mappedPages : List VPage := (List.range ph.stepCount).map fun i => vpage (stepAddr ph.vaddr i)

/-- A segment of a program: it lies at user addresses, and is not smaller in memory than in the file. -/
structure Sound : Prop where
  /-- The addresses. -/
  user : ∀ a, ph.Contains a → UserAddr a
  /-- The sizes. -/
  filesz_le : ph.filesz ≤ ph.memsz

variable {ph}

theorem mem_mappedPages {v : VPage} : v ∈ ph.mappedPages ↔ ∃ i < ph.stepCount, v = vpage (stepAddr ph.vaddr i) := by
  simp only [mappedPages, List.mem_map, List.mem_range]
  exact exists_congr fun i => and_congr_right fun _ => eq_comm

/-- The address of a byte of the segment. -/
theorem contains_add {i : ℕ} (hi : i < ph.memsz.toNat) : ph.Contains (ph.vaddr + BitVec.ofNat 64 i) := by
  have hlt := ph.memsz.isLt
  rw [Contains, BitVec.add_comm, BitVec.add_sub_cancel, BitVec.lt_def, BitVec.toNat_ofNat,
    Nat.mod_eq_of_lt (by omega)]
  exact hi

section User

variable (huser : ∀ a, ph.Contains a → UserAddr a)

include huser

/-- A segment at user addresses ends below the addresses of the kernel. -/
theorem end_le (hpos : 0 < ph.memsz.toNat) : ph.vaddr.toNat + ph.memsz.toNat ≤ 2^64 - 2^39 := by
  have hlt := ph.vaddr.isLt
  by_contra hgt
  -- The first address of the kernel, or the first one of the segment.
  obtain ⟨a, ha⟩ : ∃ a, a = max ph.vaddr.toNat (2^64 - 2^39) - ph.vaddr.toNat := ⟨_, rfl⟩
  have huser := huser _ (contains_add (i := a) (by omega))
  rw [UserAddr, BitVec.toNat_add, BitVec.toNat_ofNat] at huser
  omega

/-- So it does not wrap around. -/
theorem no_wrap : ph.vaddr.toNat + ph.memsz.toNat < 2^64 := by
  have hlt := ph.vaddr.isLt
  rcases Nat.eq_zero_or_pos ph.memsz.toNat with hzero | hpos
  · omega
  · have hend := end_le huser hpos
    omega

/-- Its addresses, as numbers. -/
theorem contains_iff {a : Word} :
    ph.Contains a ↔ ph.vaddr.toNat ≤ a.toNat ∧ a.toNat < ph.vaddr.toNat + ph.memsz.toNat := by
  have hlt := ph.vaddr.isLt
  have halt := a.isLt
  rcases Nat.eq_zero_or_pos ph.memsz.toNat with hzero | hpos
  · rw [Contains, BitVec.lt_def]
    omega
  · have hend := end_le huser hpos
    rw [Contains, BitVec.lt_def, BitVec.toNat_sub]
    omega

/-- The loop maps pages of the user half. -/
theorem inUser_of_lt {a : Word} (hle : ph.vaddr ≤ a) (hlt : a < ph.endAddr) : (vpage a).InUser := by
  rw [BitVec.lt_def, toNat_endAddr (no_wrap huser)] at hlt
  exact (huser a ((contains_iff huser).mpr ⟨hle, hlt⟩)).inUser

end User

/-- The pages that are mapped for a segment lie in the user half. -/
theorem Sound.inUser_mapped (h : ph.Sound) {v : VPage} (hv : v ∈ ph.mappedPages) : v.InUser := by
  obtain ⟨i, hi, rfl⟩ := mem_mappedPages.mp hv
  rw [Phdr.stepCount] at hi
  exact (h.user _ (contains_add (by omega))).inUser

end Phdr

variable {m : Mem} {elf stop : Word} {s s' : Mm} {roots : Finset ℕ} {r : ℕ} {pages : Pages} {ph : Phdr}
  {l l' : Load} {junk : Word × Word}

/-- The loop maps a page of zeros in each repetition, whatever the pages have had. -/
theorem mapSegment_private (hr : r ∈ roots) :
    ∀ (fuel : ℕ) (pres : Word) (s : Mm) (pages : Pages), s.Private roots r pages →
      (∀ a, pres ≤ a → a < stop → (vpage a).InUser) →
      mapSegment (convertVA r) stop fuel pres s = some s' →
      ∃ n < fuel, (∀ i < n, stepAddr pres i < stop) ∧ ¬ stepAddr pres n < stop ∧
        s.Remaps s' roots r (fun v => ∃ i < n, v = vpage (stepAddr pres i)) ∧
        ∃ pages', s'.Private roots r pages' ∧ ∀ v, ((∃ i < n, v = vpage (stepAddr pres i)) →
          pages' v = some Bytes.zero) ∧ ((¬ ∃ i < n, v = vpage (stepAddr pres i)) → pages' v = pages v)
  | 0, _, _, _, _, _, hs => by cases hs
  | fuel + 1, pres, s, pages, h, hu, hs => by
    rw [mapSegment] at hs
    split at hs
    · rename_i hlt
      obtain ⟨p, hk, hs⟩ := Option.bind_eq_some_iff.mp hs
      obtain ⟨s₁, hm, hs⟩ := Option.bind_eq_some_iff.mp hs
      obtain ⟨held, ha⟩ := h.account
      have hfresh : s.mapFresh (convertVA r) (scaleDown pres) Bytes.zero = some s₁ := by
        rw [← ha.mapFresh_zero]
        exact Option.bind_eq_some_iff.mpr ⟨p, hk, hm⟩
      have hpres : (vpage (scaleDown pres)).InUser := by
        rw [vpage_scaleDown]
        exact hu pres (BitVec.le_refl _) hlt
      obtain ⟨h₁, hmap₁⟩ := h.mapFresh hr hpres hfresh
      rw [vpage_scaleDown] at hmap₁
      have hnext : (pres + 4096).toNat = pres.toNat + 4096 := by
        have h4096 : (4096 : Word).toNat = 4096 := rfl
        have huser := inUser_iff.mp (hu pres (BitVec.le_refl _) hlt)
        have hlt' := pres.isLt
        rw [BitVec.toNat_add, h4096]
        omega
      obtain ⟨n, hn, hsteps, hend, hmap, pages', h', hpages⟩ := mapSegment_private hr fuel (pres + 4096)
        s₁ _ h₁ (fun a hle hlt' => hu a (by rw [BitVec.le_def] at hle ⊢; omega) hlt') hs
      refine ⟨n + 1, by omega, forall_step_succ (P := (· < stop)).mpr ⟨hlt, hsteps⟩, ?_,
        (hmap₁.trans hr hmap).congr fun v => ?_, pages', h', fun v => ?_⟩
      · rwa [← stepAddr_succ]
      · exact exists_step_succ (P := fun a => v = vpage a).symm
      · rw [exists_step_succ (P := fun a => v = vpage a)]
        by_cases hrest : ∃ i < n, v = vpage (stepAddr (pres + 4096) i)
        · exact ⟨fun _ => (hpages v).1 hrest, fun hc => absurd (.inr hrest) hc⟩
        · rw [(hpages v).2 hrest, or_iff_left hrest, Pages.mapFresh, vpage_scaleDown]
          refine ⟨fun hv => ?_, fun hv => Function.update_of_ne hv ..⟩
          rw [hv, Function.update_self]
    · rename_i hge
      obtain rfl := Option.some.inj hs
      refine ⟨0, Nat.succ_pos _, fun i hi => absurd hi (Nat.not_lt_zero i), by rwa [stepAddr_zero],
        Mm.Remaps.refl.congr fun v => ?_, pages, h, fun v => ⟨?_, fun _ => rfl⟩⟩
      · constructor
        · exact False.elim
        · rintro ⟨i, hi, -⟩
          exact Nat.not_lt_zero i hi
      · rintro ⟨i, hi, -⟩
        exact absurd hi (Nat.not_lt_zero i)

/-- The bytes that are cleared lie behind the contents of the file in the segment. -/
theorem Phdr.bssSize_le (h : ph.filesz ≤ ph.memsz) : ph.filesz.toNat + ph.bssSize ≤ ph.memsz.toNat := by
  have hle : ph.filesz.toNat ≤ ph.memsz.toNat := h
  have hsub : (ph.memsz - ph.filesz).toNat = ph.memsz.toNat - ph.filesz.toNat := BitVec.toNat_sub_of_le h
  have hint : ((ph.memsz - ph.filesz).setWidth 32).toInt.toNat ≤ ((ph.memsz - ph.filesz).setWidth 32).toNat := by
    rw [BitVec.toInt_eq_toNat_cond]
    split_ifs <;> omega
  rw [BitVec.toNat_setWidth, hsub] at hint
  rw [Phdr.bssSize]
  omega

/-- What the two copies of `elf_read` leave in the pages of the address space. -/
structure Filled (m : Mem) (elf : Word) (ph : Phdr) (pages pages' : Pages) : Prop where
  /-- No page comes or goes. -/
  none_iff : ∀ v, pages' v = none ↔ pages v = none
  /-- The pages of the file are there. -/
  file_pages : ∀ w : Word, w - ph.vaddr < ph.filesz → pages (vpage w) ≠ none
  /-- The contents of the file. -/
  file : ∀ w, UserAddr w → w - ph.vaddr < ph.filesz → pages'.readByte w = some (ph.byteAt m elf w)
  /-- The rest of the segment is cleared, or as before. -/
  rest : ∀ w, UserAddr w → ¬ w - ph.vaddr < ph.filesz → pages'.readByte w = some 0 ∧ ph.Contains w ∨
    pages'.readByte w = pages.readByte w

/-- An address in the file's part of a segment. -/
theorem Phdr.eq_add_of_lt {w base size : Word} (hw : w - base < size) :
    ∃ i < size.toNat, w = base + BitVec.ofNat 64 i := by
  refine ⟨(w - base).toNat, hw, ?_⟩
  rw [BitVec.ofNat_toNat, BitVec.setWidth_eq, BitVec.add_comm, BitVec.sub_add_cancel]

/-- The two copies of `elf_read`, in an address space that has its frames for itself. -/
theorem fillSegment_private (hr : r ∈ roots) (h : s.Private roots r pages) (hph : ph.Sound)
    (hs : fillSegment m elf (convertVA r) ph s = some s') :
    s.Remaps s' roots r (fun _ => False) ∧ ∃ pages', s'.Private roots r pages' ∧ Filled m elf ph pages pages' := by
  have hle : ph.filesz.toNat ≤ ph.memsz.toNat := hph.filesz_le
  have hbss := Phdr.bssSize_le hph.filesz_le
  have hlt := ph.memsz.isLt
  obtain ⟨s₁, hs₁, hs⟩ := Option.bind_eq_some_iff.mp hs
  obtain ⟨pages₁, hcopy₁, h₁, hmap₁⟩ := h.memcopyUser hr hs₁
  obtain ⟨pages₂, hcopy₂, h₂, hmap₂⟩ := h₁.memcopyUser hr hs
  obtain ⟨hnone₁, hpages₁⟩ := Pages.memcopyUser_none _ _ hcopy₁
  obtain ⟨hnone₂, -⟩ := Pages.memcopyUser_none _ _ hcopy₂
  have hread₁ := fun w (hw : UserAddr w) => Pages.readByte_memcopyUser hw _ _ ph.filesz.isLt
    (fun i hi => hph.user _ (Phdr.contains_add (by omega))) hcopy₁
  have haddr : ∀ i, ph.vaddr + ph.filesz + BitVec.ofNat 64 i =
      ph.vaddr + BitVec.ofNat 64 (ph.filesz.toNat + i) := fun i => by
    rw [BitVec.ofNat_add, BitVec.ofNat_toNat, BitVec.setWidth_eq, BitVec.add_assoc]
  have hread₂ := fun w (hw : UserAddr w) => Pages.readByte_memcopyUser hw _ _ (by omega)
    (fun i hi => by rw [haddr]; exact hph.user _ (Phdr.contains_add (by omega))) hcopy₂
  refine ⟨(hmap₁.trans hr hmap₂).congr fun _ => or_self_iff, pages₂, h₂, fun v => (hnone₂ v).trans (hnone₁ v),
    fun w hw => ?_, fun w hu hw => ?_, fun w hu hw => ?_⟩
  · obtain ⟨i, hi, rfl⟩ := Phdr.eq_add_of_lt hw
    exact hpages₁ i hi
  · -- The bytes that are cleared are behind the contents of the file.
    have hnot : ¬ (w - (ph.vaddr + ph.filesz)).toNat < ph.bssSize := by
      rw [BitVec.lt_def] at hw
      bv_omega
    rw [hread₂ w hu, if_neg hnot, hread₁ w hu, if_pos (BitVec.lt_def.mp hw), Phdr.byteAt, if_pos hw]
  · rw [hread₂ w hu, hread₁ w hu, if_neg (mt BitVec.lt_def.mpr hw)]
    split_ifs with hclear
    · refine .inl ⟨rfl, ?_⟩
      rw [Phdr.Contains, BitVec.lt_def]
      rw [BitVec.lt_def] at hw
      bv_omega
    · exact .inr rfl

/-! ## All segments -/

/-- The segments have no byte in common. -/
def Disjoint (phs : List Phdr) : Prop := phs.Pairwise fun p q => ∀ a, p.Contains a → ¬ q.Contains a

/-- No page is mapped for two segments. -/
def Unshared (phs : List Phdr) : Prop := phs.Pairwise fun p q => ∀ v ∈ p.mappedPages, v ∉ q.mappedPages

/-- The address space after the segments `done` have been loaded. -/
structure Loaded (m : Mem) (elf : Word) (s : Mm) (roots : Finset ℕ) (r : ℕ) (done : List Phdr) (pages : Pages) :
    Prop where
  /-- It has its frames for itself. -/
  own : s.Private roots r pages
  /-- It has the pages that the loops have mapped. -/
  present : ∀ v : VPage, v.InUser → (pages v ≠ none ↔ ∃ ph ∈ done, v ∈ ph.mappedPages)
  /-- The contents of the files lie on its pages. -/
  file : ∀ ph ∈ done, ∀ w : Word, w - ph.vaddr < ph.filesz → pages (vpage w) ≠ none
  /-- Where no page was mapped twice, each segment has its bytes, and the rest of its pages is zero. -/
  bytes : Disjoint done → Unshared done → ∀ w, UserAddr w → ∀ b, pages.readByte w = some b →
    (∀ ph ∈ done, ph.Contains w → b = ph.byteAt m elf w) ∧ ((∀ ph ∈ done, ¬ ph.Contains w) → b = 0)

/-- An empty address space. -/
theorem loaded_nil {held : ℕ → ℕ} (h : s.Accounted roots held)
    (hempty : ∀ v : VPage, v.InUser → s.leaf r v = none) : Loaded m elf s roots r [] fun _ => none := by
  refine ⟨⟨⟨held, h⟩, fun v hv _ => hempty v hv, fun _ _ _ hb => nomatch hb⟩, fun v _ => ?_, nofun,
    fun _ _ _ _ _ hb => nomatch hb⟩
  simp

theorem mapped_eq_ok {α : Type} {o : Option α} {a : α} (h : mapped o = .ok a) : o = some a := by
  cases o with
  | none => cases h
  | some b => rw [mapped, Except.ok.injEq] at h; rw [h]

/-- The two steps of `elf_read` for a segment. -/
theorem loadSegment_ok (hload : ph.isLoad = true)
    (hs : loadSegment m elf (convertVA r) l (ph, junk) = .ok l') :
    ∃ s, mapSegment (convertVA r) ph.endAddr (l.pools.mm.pageCount + 1) ph.vaddr l.pools.mm = some s ∧
      fillSegment m elf (convertVA r) ph s = some l'.pools.mm := by
  rw [loadSegment, if_pos hload] at hs
  have hmm : ∀ vma, (l.pools.fetchFreeVma vma).2.mm = l.pools.mm := fun vma => by
    rw [Pools.fetchFreeVma]
    split <;> rfl
  dsimp only at hs
  rw [hmm] at hs
  obtain ⟨s, hmap, hs⟩ := bind_eq_ok hs
  obtain ⟨s', hfill, hs⟩ := bind_eq_ok hs
  refine ⟨s, paged_eq_ok hmap, ?_⟩
  obtain rfl := Except.ok.inj hs
  exact mapped_eq_ok hfill

/-- The loop of `elf_read` maps the pages of the segment. -/
theorem mapSegment_sound {fuel : ℕ} (hr : r ∈ roots) (h : s.Private roots r pages) (hph : ph.Sound)
    (hfuel : fuel ≤ 2^31) (hs : mapSegment (convertVA r) ph.endAddr fuel ph.vaddr s = some s') :
    s.Remaps s' roots r (· ∈ ph.mappedPages) ∧ ∃ pages', s'.Private roots r pages' ∧
      ∀ v, (v ∈ ph.mappedPages → pages' v = some Bytes.zero) ∧ (v ∉ ph.mappedPages → pages' v = pages v) := by
  obtain ⟨n, hn, hsteps, hstop, hmap, pages', h', hpages⟩ := mapSegment_private hr fuel _ s pages h
    (fun a hle hlt => Phdr.inUser_of_lt hph.user hle hlt) hs
  obtain ⟨rfl, -⟩ := stepCount_eq (Phdr.no_wrap hph.user) (hn.trans_le hfuel) hsteps hstop
  simp only [← Phdr.mem_mappedPages] at hmap hpages
  exact ⟨hmap, pages', h', hpages⟩

/-- One more segment. -/
theorem Loaded.load {done : List Phdr} (h : Loaded m elf l.pools.mm roots r done pages) (hr : r ∈ roots)
    (hph : ph.Sound) (hload : ph.isLoad = true)
    (hs : loadSegment m elf (convertVA r) l (ph, junk) = .ok l') :
    l.pools.mm.Remaps l'.pools.mm roots r (· ∈ ph.mappedPages) ∧
      ∃ pages', Loaded m elf l'.pools.mm roots r (done ++ [ph]) pages' := by
  obtain ⟨s, hmap, hfill⟩ := loadSegment_ok hload hs
  obtain ⟨held, ha⟩ := h.own.account
  obtain ⟨fs, hfree⟩ := ha.free
  have hbound := hfree.bound
  obtain ⟨hremaps, pages₁, h₁, hpages₁⟩ := mapSegment_sound hr h.own hph (by omega) hmap
  obtain ⟨hremaps', pages', h', hfilled⟩ := fillSegment_private hr h₁ hph hfill
  have hkept : ∀ v, pages v ≠ none → pages₁ v ≠ none := fun v hv => by
    by_cases hmem : v ∈ ph.mappedPages
    · rw [(hpages₁ v).1 hmem]
      exact Option.some_ne_none _
    · rwa [(hpages₁ v).2 hmem]
  refine ⟨(hremaps.trans hr hremaps').congr fun v => or_iff_left id, pages', h', fun v hv => ?_,
    fun q hq w hw => ?_, fun hdisj hunsh w hu b hb => ?_⟩
  · rw [ne_eq, hfilled.none_iff]
    by_cases hmem : v ∈ ph.mappedPages
    · rw [(hpages₁ v).1 hmem]
      exact iff_of_true (Option.some_ne_none _) ⟨ph, List.mem_append_right _ (List.mem_singleton_self _), hmem⟩
    · rw [(hpages₁ v).2 hmem, ← ne_eq, h.present v hv]
      simp only [List.mem_append, List.mem_singleton]
      exact ⟨fun ⟨q, hq, hv⟩ => ⟨q, .inl hq, hv⟩, fun ⟨q, hq, hv⟩ => ⟨q, hq.resolve_right fun hc => hmem (hc ▸ hv), hv⟩⟩
  · rw [ne_eq, hfilled.none_iff]
    rcases List.mem_append.mp hq with hq | hq
    · exact hkept _ (h.file q hq w hw)
    · obtain rfl := List.mem_singleton.mp hq
      exact hfilled.file_pages w hw
  · obtain ⟨hdisj, -, hapart⟩ := List.pairwise_append.mp hdisj
    obtain ⟨hunsh, -, hpages⟩ := List.pairwise_append.mp hunsh
    have hself := List.mem_singleton_self ph
    -- The bytes before the copies: a page that is new has not had a part of a file.
    have hmapped : ∀ b, pages₁.readByte w = some b → (∀ q ∈ done, q.Contains w → b = q.byteAt m elf w) ∧
        ((∀ q ∈ done, ¬ q.Contains w) → b = 0) := by
      intro b hb
      by_cases hmem : vpage w ∈ ph.mappedPages
      · have hzero : b = 0 := by
          rw [Pages.readByte, (hpages₁ _).1 hmem, Option.map_some] at hb
          exact (Option.some.inj hb).symm
        refine ⟨fun q hq _ => ?_, fun _ => hzero⟩
        have hfile : ¬ w - q.vaddr < q.filesz := fun hc => by
          obtain ⟨p, hp, hv⟩ := (h.present _ hu.inUser).mp (h.file q hq w hc)
          exact hpages p hp ph hself _ hv hmem
        rw [hzero, Phdr.byteAt, if_neg hfile]
      · rw [Pages.readByte, (hpages₁ _).2 hmem] at hb
        exact h.bytes hdisj hunsh w hu b hb
    by_cases hin : ph.Contains w
    · have hnone : ∀ q ∈ done, ¬ q.Contains w := fun q hq hc => hapart q hq ph hself w hc hin
      refine ⟨fun q hq hc => ?_, fun hall => absurd hin (hall ph (List.mem_append_right _ hself))⟩
      rcases List.mem_append.mp hq with hq | hq
      · exact absurd hc (hnone q hq)
      · obtain rfl := List.mem_singleton.mp hq
        by_cases hfile : w - q.vaddr < q.filesz
        · rw [hfilled.file w hu hfile] at hb
          exact (Option.some.inj hb).symm
        · have hzero : b = 0 := by
            rcases hfilled.rest w hu hfile with ⟨hclear, -⟩ | hsame
            · rw [hclear] at hb
              exact (Option.some.inj hb).symm
            · exact (hmapped b (hsame.symm.trans hb)).2 hnone
          rw [hzero, Phdr.byteAt, if_neg hfile]
    · have hfile : ¬ w - ph.vaddr < ph.filesz := fun hc =>
        hin (BitVec.lt_def.mpr ((BitVec.lt_def.mp hc).trans_le (BitVec.le_def.mp hph.filesz_le)))
      have hsame := (hfilled.rest w hu hfile).resolve_left fun hc => hin hc.2
      obtain ⟨hbytes, hzero⟩ := hmapped b (hsame.symm.trans hb)
      refine ⟨fun q hq hc => ?_, fun hall => hzero fun q hq => hall q (List.mem_append_left _ hq)⟩
      rcases List.mem_append.mp hq with hq | hq
      · exact hbytes q hq hc
      · obtain rfl := List.mem_singleton.mp hq
        exact absurd hc hin

/-- The segments that are loaded. -/
def loads (xs : List (Phdr × Word × Word)) : List Phdr := (xs.map Prod.fst).filter Phdr.isLoad

theorem loads_append (xs ys : List (Phdr × Word × Word)) : loads (xs ++ ys) = loads xs ++ loads ys := by
  rw [loads, List.map_append, List.filter_append, loads, loads]

theorem loads_cons_of_pos {x : Phdr × Word × Word} {xs : List (Phdr × Word × Word)} (hload : x.1.isLoad) :
    loads (x :: xs) = x.1 :: loads xs := by
  rw [loads, List.map_cons, List.filter_cons_of_pos hload, loads]

theorem loads_cons_of_neg {x : Phdr × Word × Word} {xs : List (Phdr × Word × Word)} (hload : ¬ x.1.isLoad) :
    loads (x :: xs) = loads xs := by
  rw [loads, List.map_cons, List.filter_cons_of_neg hload, loads]

/-- The loop of `elf_read` over the program headers. -/
theorem Loaded.run (hr : r ∈ roots) : ∀ (xs : List (Phdr × Word × Word)) (done : List Phdr) (pages : Pages)
    (l : Load), Loaded m elf l.pools.mm roots r done pages → (∀ ph ∈ loads xs, ph.Sound) →
    xs.foldlM (loadSegment m elf (convertVA r)) l = .ok l' →
    l.pools.mm.Remaps l'.pools.mm roots r (fun v => ∃ ph ∈ loads xs, v ∈ ph.mappedPages) ∧
      ∃ pages', Loaded m elf l'.pools.mm roots r (done ++ loads xs) pages'
  | [], done, pages, l, h, _, hs => by
    obtain rfl := Except.ok.inj hs
    refine ⟨Mm.Remaps.refl.congr fun v => ⟨False.elim, nofun⟩, pages, ?_⟩
    rwa [loads, List.map_nil, List.filter_nil, List.append_nil]
  | (ph, junk) :: xs, done, pages, l, h, hsound, hs => by
    rw [List.foldlM_cons] at hs
    obtain ⟨l₁, h₁, hs⟩ := bind_eq_ok hs
    by_cases hload : ph.isLoad
    · rw [loads_cons_of_pos hload] at hsound ⊢
      obtain ⟨hremaps, pages₁, hl₁⟩ := h.load hr (hsound ph (List.mem_cons_self ..)) hload h₁
      obtain ⟨hremaps', pages', hl'⟩ := Loaded.run hr xs _ pages₁ l₁ hl₁
        (fun q hq => hsound q (List.mem_cons_of_mem _ hq)) hs
      refine ⟨(hremaps.trans hr hremaps').congr fun v => ?_, pages', ?_⟩
      · simp only [List.mem_cons, exists_eq_or_imp]
      · rwa [List.append_assoc, List.singleton_append] at hl'
    · rw [loads_cons_of_neg hload] at hsound ⊢
      rw [loadSegment, if_neg hload] at h₁
      obtain rfl := Except.ok.inj h₁
      exact Loaded.run hr xs done pages l h hsound hs

/-- The loop over some of the headers, and over the others. -/
theorem foldlM_split {ys zs : List (Phdr × Word × Word)}
    (hs : (ys ++ zs).foldlM (loadSegment m elf (convertVA r)) l = .ok l') :
    ∃ l₁, ys.foldlM (loadSegment m elf (convertVA r)) l = .ok l₁ ∧
      zs.foldlM (loadSegment m elf (convertVA r)) l₁ = .ok l' := by
  rw [List.foldlM_append] at hs
  exact bind_eq_ok hs

/-- A relation between what stands before and what stands behind any place of the headers. -/
theorem pairwise_loads {R : Phdr → Phdr → Prop} : ∀ xs : List (Phdr × Word × Word),
    (∀ ys zs, xs = ys ++ zs → ∀ p ∈ loads ys, ∀ q ∈ loads zs, R p q) → (loads xs).Pairwise R
  | [], _ => .nil
  | x :: xs, h => by
    have hrest := pairwise_loads xs fun ys zs hxs p hp q hq =>
      h (x :: ys) zs (by rw [hxs, List.cons_append]) p
        (by rw [← List.singleton_append, loads_append]; exact List.mem_append_right _ hp) q hq
    rw [← List.singleton_append, loads_append, List.pairwise_append]
    refine ⟨?_, hrest, fun p hp q hq => h [x] xs rfl p hp q hq⟩
    rw [loads, List.map_singleton]
    exact (List.pairwise_singleton R x.1).sublist List.filter_sublist

/-- After the loop of `elf_read`, every segment has its bytes, and every frame that was mapped after some of
the headers still is. -/
structure Intact (m : Mem) (elf : Word) (r : ℕ) (xs : List (Phdr × Word × Word)) (l l' : Load) : Prop where
  /-- The bytes. -/
  bytes : ∀ ph ∈ loads xs, ∀ a, ph.Contains a →
    l'.pools.mm.readByte (convertVA r) a = some (ph.byteAt m elf a)
  /-- The frames. -/
  reachable : ∀ ys zs l₁, xs = ys ++ zs → ys.foldlM (loadSegment m elf (convertVA r)) l = .ok l₁ →
    ∀ v : VPage, v.InUser → ∀ e, l₁.pools.mm.leaf r v = some e →
      ∃ w : VPage, w.InUser ∧ ∃ e', l'.pools.mm.leaf r w = some e' ∧ frameOf e' = frameOf e

/-- The program headers of a file whose segments have disjoint bytes at user addresses. -/
structure Segments (phs : List Phdr) : Prop where
  /-- Each is sound. -/
  sound : ∀ ph ∈ phs, ph.Sound
  /-- They have no byte in common. -/
  disjoint : Disjoint phs

/-- Where the loop of `elf_read` has gone through all program headers, in an address space that was empty, no
segment has damaged another if and only if no page was mapped for two segments, and the pages of each were
mapped for some segment. -/
theorem intact_iff_of_ok (m : Mem) (elf : Word) (r : ℕ) (roots : Finset ℕ) (held : ℕ → ℕ)
    (xs : List (Phdr × Word × Word)) (l l' : Load) (ha : l.pools.mm.Accounted roots held) (hr : r ∈ roots)
    (hempty : ∀ v : VPage, v.InUser → l.pools.mm.leaf r v = none) (hsegs : Segments (loads xs))
    (hs : xs.foldlM (loadSegment m elf (convertVA r)) l = .ok l') :
    Intact m elf r xs l l' ↔
      Unshared (loads xs) ∧ ∀ ph ∈ loads xs, ∀ a, ph.Contains a → ∃ q ∈ loads xs, vpage a ∈ q.mappedPages := by
  have hnil : Loaded m elf l.pools.mm roots r [] fun _ => none := loaded_nil ha hempty
  obtain ⟨hmap, pages', h'⟩ := Loaded.run hr xs [] _ l hnil hsegs.sound hs
  rw [List.nil_append] at h'
  have huser : ∀ ph ∈ loads xs, ∀ a, ph.Contains a → UserAddr a := fun ph hph => (hsegs.sound ph hph).user
  constructor
  · refine fun hintact => ⟨pairwise_loads xs fun ys zs hxs p hp q hq v hvp hvq => ?_, fun ph hph a hc => ?_⟩
    · -- The frame that the first segment has got at a shared page is lost with the second one.
      subst hxs
      rw [loads_append] at hsegs
      obtain ⟨l₁, h₁, h₂⟩ := foldlM_split hs
      obtain ⟨-, pages₁, hl₁⟩ := Loaded.run hr ys [] _ l hnil
        (fun ph hph => hsegs.sound ph (List.mem_append_left _ hph)) h₁
      obtain ⟨hremaps, -⟩ := Loaded.run hr zs _ _ l₁ hl₁
        (fun ph hph => hsegs.sound ph (List.mem_append_right _ hph)) h₂
      have hv := (hsegs.sound p (List.mem_append_left _ hp)).inUser_mapped hvp
      obtain ⟨b, hb⟩ := Option.ne_none_iff_exists'.mp ((hl₁.present v hv).mpr ⟨p, hp, hvp⟩)
      obtain ⟨g, hown, -⟩ := hl₁.own.present v hv b hb
      obtain ⟨e, he, -, hframe⟩ := hown.entry
      obtain ⟨w, hw, e', he', hf⟩ := hintact.reachable ys zs l₁ rfl h₁ v hv e he
      exact hremaps.unmapped hr hown hv ⟨q, hq, hvq⟩ hw he' (hf.trans hframe)
    · have hread := hintact.bytes ph hph a hc
      have hu := (huser ph hph a hc).inUser
      rw [h'.own.readByte hr hu] at hread
      refine (h'.present _ hu).mp fun hnone => ?_
      rw [Pages.readByte, hnone] at hread
      cases hread
  · rintro ⟨hunsh, hpages⟩
    refine ⟨fun ph hph a hc => ?_, fun ys zs l₁ hxs h₁ v hv e he => ?_⟩
    · have hu := huser ph hph a hc
      obtain ⟨b, hb⟩ := Option.ne_none_iff_exists'.mp ((h'.present _ hu.inUser).mpr (hpages ph hph a hc))
      have hread : pages'.readByte a = some (b (pageOff a)) := by rw [Pages.readByte, hb, Option.map_some]
      rw [h'.own.readByte hr hu.inUser, hread, (h'.bytes hsegs.disjoint hunsh a hu _ hread).1 ph hph hc]
    · subst hxs
      rw [loads_append] at hsegs hunsh
      obtain ⟨l₁', h₁', h₂⟩ := foldlM_split hs
      obtain rfl := Except.ok.inj (h₁.symm.trans h₁')
      obtain ⟨-, pages₁, hl₁⟩ := Loaded.run hr ys [] _ l hnil
        (fun ph hph => hsegs.sound ph (List.mem_append_left _ hph)) h₁
      obtain ⟨hremaps, -⟩ := Loaded.run hr zs _ _ l₁ hl₁
        (fun ph hph => hsegs.sound ph (List.mem_append_right _ hph)) h₂
      have hpresent := (hl₁.own.leaf_ne_none hv).mp (by rw [he]; exact Option.some_ne_none e)
      obtain ⟨p, hp, hvp⟩ := (hl₁.present v hv).mp hpresent
      -- No segment behind has this page.
      have hnot : ∀ q ∈ loads zs, v ∉ q.mappedPages := fun q hq =>
        (List.pairwise_append.mp hunsh).2.2 p hp q hq v hvp
      refine ⟨v, hv, e, ?_, rfl⟩
      rw [hremaps.kept r hr v hv fun hc => hc.2.elim fun q hq => hnot q hq.1 hq.2, he]

end Proc

end Nascent
