import Nascent.Cow.Model
import Nascent.Page.Address
import Nascent.Lib.Runs

/-!
# Lazy loading

Pages of a program that are not present are loaded by `page_fault_handler` when they are first
touched (`src/sys/pagefault.c`). The memory of the program is taken as its pages that are present and
the bytes at its addresses: `set_mapping` with a frame from `kmalloc` adds a page of zeros. The handler
copies in kernel mode to the addresses of the program, and where it meets a page that is not present
it is entered once more, so it takes a bound on the number of handlers that are active. `Fault/Loads.lean`
shows that the handler of the frames and the page tables does to an address space what this one does here.

`loads_in_order` is about runs of first touches and stores: as long as no fault is of a kind that the
handler gets wrong, every page that is present has what loading the whole segment at once would have
put there, but for what the program has stored.
-/

namespace Nascent.Lazy

open Nascent.Bytes (Byte)
open Nascent.Runs

/-- The memory of a program. -/
structure UserMem where
  /-- Whether a page is present. -/
  present : ℕ → Bool
  /-- The bytes. -/
  mem : Word → Byte

/-- A frame from `kmalloc`, mapped by `set_mapping`. -/
def UserMem.mapFresh (u : UserMem) (va : Word) : UserMem where
  present := Function.update u.present (frameOf va) true
  mem x := if frameOf x = frameOf va then 0 else u.mem x

/-- The memory with one byte set. -/
def UserMem.setByte (u : UserMem) (va : Word) (b : Byte) : UserMem :=
  { u with mem := Function.update u.mem va b }

theorem UserMem.mapFresh_present (u : UserMem) (a : Word) :
    (u.mapFresh (scaleDown a)).present = Function.update u.present (frameOf a) true := by
  rw [mapFresh, frameOf_scaleDown]

theorem UserMem.mapFresh_mem_of_eq {x a : Word} (h : frameOf x = frameOf a) (u : UserMem) :
    (u.mapFresh (scaleDown a)).mem x = 0 := if_pos (by rw [frameOf_scaleDown, h])

theorem UserMem.mapFresh_mem_of_ne {x a : Word} (h : frameOf x ≠ frameOf a) (u : UserMem) :
    (u.mapFresh (scaleDown a)).mem x = u.mem x := if_neg (by rwa [frameOf_scaleDown])

@[simp] theorem UserMem.setByte_mem_self (u : UserMem) (va : Word) (b : Byte) :
    (u.setByte va b).mem va = b := Function.update_self ..

theorem UserMem.setByte_mem_of_ne {x va : Word} (h : x ≠ va) (u : UserMem) (b : Byte) :
    (u.setByte va b).mem x = u.mem x := Function.update_of_ne h ..

/-! ## `page_fault_handler` -/

/-- The loop of `memcopy` to the addresses of the program, with what handles a fault, from the byte
`i` on. -/
def memcopyLoop (fault : UserMem → Word → Option UserMem) (tar : Word → Byte)
    (source destination : Word) : ℕ → ℕ → UserMem → Option UserMem
  | 0, _, u => some u
  | n + 1, i, u =>
    let x := destination + BitVec.ofNat 64 i
    (if u.present (frameOf x) then some u else fault u x).bind fun u =>
      memcopyLoop fault tar source destination n (i + 1)
        (u.setByte x (tar (source + BitVec.ofNat 64 i)))

/-- `memcopy` to the addresses of the program. -/
def memcopy (fault : UserMem → Word → Option UserMem) (tar : Word → Byte)
    (source destination size : Word) (u : UserMem) : Option UserMem :=
  memcopyLoop fault tar source destination size.toNat 0 u

/-- The copy of the part of the file that belongs on a page, in the four cases of the source. -/
def copySegment (fault : UserMem → Word → Option UserMem) (tar : Word → Byte) (vma : Vma) (sda : Word)
    (u : UserMem) : Option UserMem :=
  let vmaStart := vma.startAddr
  let bssAddr := vmaStart + vma.pFilesz
  let offset := sda - vmaStart
  if sda < vmaStart ∧ sda + 4 * 1024 > bssAddr then
    memcopy fault tar vma.tarfsBase vmaStart vma.pFilesz u
  else if sda ≤ vmaStart then
    memcopy fault tar vma.tarfsBase vmaStart
      (if vma.pFilesz < 4 * 1024 - vmaStart then vma.pFilesz else 4 * 1024 - vmaStart) u
  else if sda + 4 * 1024 > bssAddr then
    memcopy fault tar (vma.tarfsBase + offset) sda (bssAddr - sda) u
  else memcopy fault tar (vma.tarfsBase + offset) sda (4 * 1024) u

/-- `page_fault_handler`, for a page that is not present. Outside the VMAs it ends the program, and
there is no result. -/
def pageFaultHandler (tar : Word → Byte) (vmas : List Vma) : ℕ → UserMem → Word → Option UserMem
  | 0, _, _ => none
  | active + 1, u, faultingAddr =>
    match checkVma vmas faultingAddr with
    | none => none
    | some vma =>
      let sda := scaleDown faultingAddr
      if vma.vmtype = .text ∨ vma.vmtype = .data then
        if faultingAddr < vma.startAddr + vma.pFilesz then
          copySegment (pageFaultHandler tar vmas active) tar vma sda (u.mapFresh sda)
        else some (u.mapFresh sda)
      else if vma.vmtype = .stack then some (u.mapFresh sda)
      else some u

/-! ## Runs -/

/-- The state of a run. -/
structure State where
  /-- The memory. -/
  user : UserMem
  /-- What the program has stored last at each address. -/
  stored : Word → Option Byte

/-- The state before the first touch. -/
def State.start (m : Word → Byte) : State := ⟨⟨fun _ => false, m⟩, fun _ => none⟩

/-- What a program does with its segment. -/
inductive Access
  /-- A load, or a store that starts with a fault. -/
  | touch (a : Word)
  /-- A store to a page that is present. -/
  | store (a : Word) (b : Byte)

/-- One access to a segment, with at most `active` handlers. -/
def State.step (tar : Word → Byte) (vmas : List Vma) (vma : Vma) (active : ℕ) (s : State) :
    Access → Option State
  | .touch a =>
    if vma.startAddr ≤ a ∧ a < vma.endAddr then
      if s.user.present (frameOf a) then some s
      else (pageFaultHandler tar vmas active s.user a).map fun u => { s with user := u }
    else none
  | .store a b =>
    if (vma.startAddr ≤ a ∧ a < vma.endAddr) ∧ s.user.present (frameOf a) then
      some ⟨s.user.setByte a b, Function.update s.stored a (some b)⟩
    else none

/-- What the eager copy of `elf_read` leaves at an address: the file, and zeros behind it. -/
def eagerByte (tar : Word → Byte) (vma : Vma) (x : Word) : Byte :=
  if x - vma.startAddr < vma.pFilesz then tar (vma.tarfsBase + (x - vma.startAddr)) else 0

/-- The pages that are present have what the eager copy leaves, but for what the program has stored. -/
def State.Loaded (tar : Word → Byte) (vma : Vma) (s : State) : Prop :=
  ∀ x, vma.startAddr ≤ x → x < vma.endAddr → s.user.present (frameOf x) →
    s.user.mem x = (s.stored x).getD (eagerByte tar vma x)

/-- The first touches that the handler serves well: a page that has a part of the file is first touched
below the end of the file, and the file does not go on from another page to the last one of the address
space. The first page of the file is not one of a segment at 4096, and, for a segment above that,
nothing has been stored to the other pages of the file. -/
structure State.ServedAt (vma : Vma) (s : State) (a : Word) : Prop where
  /-- A page that is first touched behind the file has no part of it. -/
  bss : vma.startAddr + vma.pFilesz ≤ a →
    vma.startAddr + vma.pFilesz ≤ scaleDown a ∨ vma.pFilesz = 0
  /-- The segment does not start at 4096. -/
  start_ne : a < vma.startAddr + vma.pFilesz → scaleDown a ≤ vma.startAddr → vma.startAddr ≠ 4096
  /-- The copy to the first page does not go on to pages to which something has been stored. -/
  first : a < vma.startAddr + vma.pFilesz → scaleDown a ≤ vma.startAddr → vma.startAddr < 4096 ∨
    ∀ x, vma.startAddr ≤ x → x < vma.startAddr + vma.pFilesz → s.stored x = none
  /-- The file does not go on to the last page. -/
  last : a < vma.startAddr + vma.pFilesz → vma.startAddr + vma.pFilesz ≤ -4096 ∨ -4096 ≤ vma.startAddr

/-- The accesses that the handler serves well. -/
def State.Served (vma : Vma) (s : State) : Access → Prop
  | .touch a => s.user.present (frameOf a) = false → s.ServedAt vma a
  | .store _ _ => True

/-- A segment of a program: `check_vma` finds its VMA at each of its addresses, and the part of it that
is in the file ends within it. -/
structure Segment (vmas : List Vma) (vma : Vma) : Prop where
  /-- The VMA is one of a program's text or data. -/
  vmtype : vma.vmtype = .text ∨ vma.vmtype = .data
  /-- `check_vma` finds it. -/
  found : ∀ a, vma.startAddr ≤ a → a < vma.endAddr → checkVma vmas a = some vma
  /-- The file ends within the segment. -/
  filesz_le : vma.startAddr.toNat + vma.pFilesz.toNat ≤ vma.endAddr.toNat

/-! ## Copies -/

section Copy

variable (fault : UserMem → Word → Option UserMem) (tar : Word → Byte) (source destination : Word)

/-- The distance between two addresses, as a number. -/
theorem toNat_sub_of_le {x y : Word} (h : y.toNat ≤ x.toNat) : (x - y).toNat = x.toNat - y.toNat :=
  BitVec.toNat_sub_of_le (BitVec.le_def.mpr h)

/-- An address some bytes further on, where the sum does not wrap around. -/
theorem toNat_add_of_lt {x y : Word} (h : x.toNat + y.toNat < 2 ^ 64) :
    (x + y).toNat = x.toNat + y.toNat := by
  rw [BitVec.toNat_add, Nat.mod_eq_of_lt h]

/-- The loop of `memcopy` where the pages that it writes to are present. -/
theorem memcopyLoop_present : ∀ (n i : ℕ) (u : UserMem), destination.toNat + (i + n) ≤ 2 ^ 64 →
    (∀ x : Word, destination.toNat + i ≤ x.toNat → x.toNat < destination.toNat + (i + n) →
      u.present (frameOf x)) →
    ∃ u', memcopyLoop fault tar source destination n i u = some u' ∧ u'.present = u.present ∧
      ∀ x : Word, u'.mem x =
        if destination.toNat + i ≤ x.toNat ∧ x.toNat < destination.toNat + (i + n)
        then tar (source + (x - destination)) else u.mem x
  | 0, i, u, _, _ => ⟨u, rfl, rfl, fun x => by rw [if_neg (by omega)]⟩
  | n + 1, i, u, hend, hpres => by
    have hx : (destination + BitVec.ofNat 64 i).toNat = destination.toNat + i := by
      rw [BitVec.toNat_add, BitVec.toNat_ofNat]
      omega
    have hxpres := hpres _ hx.ge (by omega)
    obtain ⟨u', hu', hpres', hbytes⟩ := memcopyLoop_present n (i + 1)
      (u.setByte (destination + BitVec.ofNat 64 i) (tar (source + BitVec.ofNat 64 i)))
      (by omega) fun y h1 h2 => hpres y (by omega) (by omega)
    refine ⟨u', ?_, hpres', fun y => ?_⟩
    · rw [memcopyLoop, if_pos hxpres]
      exact hu'
    · rw [hbytes]
      by_cases hy : y = destination + BitVec.ofNat 64 i
      · -- The byte that this step writes.
        have hdist : y - destination = BitVec.ofNat 64 i := by
          rw [hy, BitVec.add_comm, BitVec.add_sub_cancel]
        rw [if_neg (by rw [hy]; omega), if_pos (by rw [hy]; omega), hdist, hy,
          UserMem.setByte_mem_self]
      · have hne : y.toNat ≠ destination.toNat + i := fun h =>
          hy (BitVec.eq_of_toNat_eq (h.trans hx.symm))
        rw [UserMem.setByte_mem_of_ne hy]
        by_cases hin : destination.toNat + (i + 1) ≤ y.toNat ∧
            y.toNat < destination.toNat + (i + 1 + n)
        · rw [if_pos hin, if_pos (by omega)]
        · rw [if_neg hin, if_neg (by omega)]

end Copy

/-! ## Faults -/

section Fault

variable {tar : Word → Byte} {vmas : List Vma} {vma : Vma} {active : ℕ} {u : UserMem} {s : State}
  {a x : Word}

/-- The end of the file in memory, as a number. -/
theorem Segment.toNat_bss (h : Segment vmas vma) :
    (vma.startAddr + vma.pFilesz).toNat = vma.startAddr.toNat + vma.pFilesz.toNat := by
  have := vma.endAddr.isLt
  have := h.filesz_le
  exact toNat_add_of_lt (by omega)

/-- What the eager copy leaves below the end of the file. -/
theorem eagerByte_file (h1 : vma.startAddr.toNat ≤ x.toNat)
    (h2 : x.toNat < vma.startAddr.toNat + vma.pFilesz.toNat) :
    eagerByte tar vma x = tar (vma.tarfsBase + (x - vma.startAddr)) := by
  refine if_pos (BitVec.lt_def.mpr ?_)
  rw [toNat_sub_of_le h1]
  omega

/-- What the eager copy leaves from the end of the file on. -/
theorem eagerByte_bss (h : vma.startAddr.toNat + vma.pFilesz.toNat ≤ x.toNat) :
    eagerByte tar vma x = 0 := by
  refine if_neg fun hlt => ?_
  rw [BitVec.lt_def, toNat_sub_of_le (by omega)] at hlt
  omega

/-- What the handler does in a segment, up to the copy. -/
theorem Segment.pageFaultHandler_eq (h : Segment vmas vma) (h1 : vma.startAddr ≤ a)
    (h2 : a < vma.endAddr) : pageFaultHandler tar vmas (active + 1) u a =
    if a < vma.startAddr + vma.pFilesz then
      copySegment (pageFaultHandler tar vmas active) tar vma (scaleDown a)
        (u.mapFresh (scaleDown a))
    else some (u.mapFresh (scaleDown a)) := by
  rw [pageFaultHandler, h.found a h1 h2]
  exact if_pos h.vmtype

/-- A memory that has one more page of the segment, with what belongs there. -/
structure Adds (tar : Word → Byte) (vma : Vma) (a : Word) (u u' : UserMem) : Prop where
  /-- The page is present. -/
  present : u'.present = Function.update u.present (frameOf a) true
  /-- It has what the eager copy leaves. -/
  mem : ∀ x, vma.startAddr ≤ x → frameOf x = frameOf a → u'.mem x = eagerByte tar vma x
  /-- The other pages are as before. -/
  other : ∀ x, frameOf x ≠ frameOf a → u'.mem x = u.mem x

/-- The addresses of a page. -/
theorem frameOf_eq_iff : frameOf x = frameOf a ↔
    (scaleDown a).toNat ≤ x.toNat ∧ x.toNat < (scaleDown a).toNat + 4096 := by
  rw [frameOf_eq_div, frameOf_eq_div, toNat_scaleDown]
  omega

/-- The copy of the first `n` bytes of a page, which are those of the file. -/
theorem memcopy_page (fault : UserMem → Word → Option UserMem) {n : Word} (hn : n.toNat ≤ 4096)
    (hlater : vma.startAddr.toNat < (scaleDown a).toNat)
    (hfile : ∀ x : Word, frameOf x = frameOf a →
      (x.toNat < (scaleDown a).toNat + n.toNat ↔
        x.toNat < vma.startAddr.toNat + vma.pFilesz.toNat)) :
    ∃ u', memcopy fault tar (vma.tarfsBase + (scaleDown a - vma.startAddr)) (scaleDown a) n
      (u.mapFresh (scaleDown a)) = some u' ∧ Adds tar vma a u u' := by
  have hsd := toNat_scaleDown a
  have halt := a.isLt
  have hpres : ∀ x : Word, (scaleDown a).toNat + 0 ≤ x.toNat →
      x.toNat < (scaleDown a).toNat + (0 + n.toNat) →
      (u.mapFresh (scaleDown a)).present (frameOf x) := fun x hx1 hx2 => by
    have hx : frameOf x = frameOf a := frameOf_eq_iff.mpr ⟨by omega, by omega⟩
    rw [UserMem.mapFresh_present, hx]
    exact Function.update_self ..
  obtain ⟨u', hu', hpres', hbytes⟩ := memcopyLoop_present fault tar
    (vma.tarfsBase + (scaleDown a - vma.startAddr)) (scaleDown a) n.toNat 0
    (u.mapFresh (scaleDown a)) (by omega) hpres
  refine ⟨u', hu', by rw [hpres', UserMem.mapFresh_present], fun x hx1 hx => ?_, fun x hx => ?_⟩
  · have hpage := frameOf_eq_iff.mp hx
    rw [hbytes]
    by_cases hlt : x.toNat < (scaleDown a).toNat + n.toNat
    · have hsum : scaleDown a - vma.startAddr + (x - scaleDown a) = x - vma.startAddr := by
        bv_omega
      rw [if_pos (by omega), eagerByte_file (hlater.le.trans hpage.1) ((hfile x hx).mp hlt),
        BitVec.add_assoc, hsum]
    · have hbss := mt (hfile x hx).mpr hlt
      rw [if_neg (by omega), eagerByte_bss (by omega), UserMem.mapFresh_mem_of_eq hx]
  · have hpage := mt frameOf_eq_iff.mpr hx
    rw [hbytes, if_neg (by omega), UserMem.mapFresh_mem_of_ne hx]

/-- The handler loads a page behind the first one of the segment. -/
theorem Segment.fault_later (h : Segment vmas vma) (tar : Word → Byte) (active : ℕ) (u : UserMem)
    (h1 : vma.startAddr ≤ a) (h2 : a < vma.endAddr)
    (hfile : a < vma.startAddr + vma.pFilesz) (hlater : vma.startAddr < scaleDown a)
    (hlast : vma.startAddr + vma.pFilesz ≤ -4096 ∨ -4096 ≤ vma.startAddr) :
    ∃ u', pageFaultHandler tar vmas (active + 1) u a = some u' ∧ Adds tar vma a u u' := by
  have hbss := h.toNat_bss
  have hsd := toNat_scaleDown a
  have halt := a.isLt
  rw [h.pageFaultHandler_eq h1 h2, if_pos hfile, copySegment]
  rw [BitVec.lt_def] at hfile hlater
  have hnext : (scaleDown a + 4 * 1024).toNat = (scaleDown a).toNat + 4096 := by
    have htop : (-4096 : Word).toNat = 2 ^ 64 - 4096 := rfl
    rw [BitVec.le_def, BitVec.le_def, htop] at hlast
    refine toNat_add_of_lt (y := 4 * 1024) ?_
    show (scaleDown a).toNat + 4096 < 2 ^ 64
    omega
  rw [if_neg (by rw [BitVec.lt_def]; omega), if_neg (by rw [BitVec.le_def]; omega)]
  split_ifs with hend <;> rw [gt_iff_lt, BitVec.lt_def, hnext] at hend
  · -- The file ends on this page.
    have hsize : (vma.startAddr + vma.pFilesz - scaleDown a).toNat =
        vma.startAddr.toNat + vma.pFilesz.toNat - (scaleDown a).toNat := by
      rw [toNat_sub_of_le (by omega), hbss]
    exact memcopy_page _ (by omega) hlater fun x hx => by omega
  · refine memcopy_page _ le_rfl hlater fun x hx => ?_
    have hpage := frameOf_eq_iff.mp hx
    show x.toNat < (scaleDown a).toNat + 4096 ↔ _
    omega

/-- What is present is right, but for the addresses that are still to be filled, and the program has
stored to pages that are present only. -/
structure Right (tar : Word → Byte) (vma : Vma) (stored : Word → Option Byte) (open? : Word → Prop)
    (u : UserMem) : Prop where
  /-- What is present is right. -/
  mem : ∀ x, vma.startAddr ≤ x → x < vma.endAddr → u.present (frameOf x) → ¬ open? x →
    u.mem x = (stored x).getD (eagerByte tar vma x)
  /-- The program has stored to pages that are present. -/
  stored : ∀ x, stored x ≠ none → u.present (frameOf x)

variable {stored : Word → Option Byte} {open? : Word → Prop} {u' : UserMem}

/-- One more page does not change which pages are present otherwise. -/
theorem Adds.mono (hadds : Adds tar vma a u u') {p : ℕ} (hp : u.present p) : u'.present p := by
  rw [hadds.present]
  by_cases hpa : p = frameOf a
  · rw [hpa]
    exact Function.update_self ..
  · rwa [Function.update_of_ne hpa]

/-- Nothing has been stored to a page that is not present. -/
theorem Right.stored_eq_none (h : Right tar vma stored open? u) (hnot : u.present (frameOf x) = false) :
    stored x = none := by
  by_contra hsome
  have hpres := h.stored x hsome
  rw [hnot] at hpres
  cases hpres

/-- A page is added. -/
theorem Right.adds (h : Right tar vma stored open? u) (hadds : Adds tar vma a u u')
    (hnot : u.present (frameOf a) = false) : Right tar vma stored open? u' := by
  refine ⟨fun x hx1 hx2 hpres hopen => ?_, fun x hx => hadds.mono (h.stored x hx)⟩
  by_cases hx : frameOf x = frameOf a
  · rw [hadds.mem x hx1 hx, h.stored_eq_none (hx ▸ hnot), Option.getD_none]
  · rw [hadds.present, Function.update_of_ne hx] at hpres
    rw [hadds.other x hx]
    exact h.mem x hx1 hx2 hpres hopen

/-- The program stores to a page that is present. -/
theorem Right.setByte (h : Right tar vma stored open? u) (hpres : u.present (frameOf a)) (b : Byte) :
    Right tar vma (Function.update stored a (some b)) open? (u.setByte a b) := by
  refine ⟨fun x hx1 hx2 hx hopen => ?_, fun x hx => ?_⟩
  · by_cases hxa : x = a
    · rw [hxa, UserMem.setByte_mem_self, Function.update_self, Option.getD_some]
    · rw [UserMem.setByte_mem_of_ne hxa, Function.update_of_ne hxa]
      exact h.mem x hx1 hx2 hx hopen
  · by_cases hxa : x = a
    · exact hxa ▸ hpres
    · rw [Function.update_of_ne hxa] at hx
      exact h.stored x hx

/-- The part of the file on the first page from its byte `i` on. -/
def FirstPart (vma : Vma) (i : ℕ) (x : Word) : Prop :=
  frameOf x = frameOf vma.startAddr ∧ vma.startAddr.toNat + i ≤ x.toNat ∧
    x.toNat < vma.startAddr.toNat + vma.pFilesz.toNat

/-- The copy to the first page, which may go on to the others, fills the segment. -/
theorem Segment.memcopyLoop_first (h : Segment vmas vma) (tar : Word → Byte) (active : ℕ)
    (hlast : vma.startAddr + vma.pFilesz ≤ -4096 ∨ -4096 ≤ vma.startAddr) :
    ∀ (n i : ℕ) (u : UserMem), i + n ≤ vma.pFilesz.toNat →
    (∀ x : Word, vma.startAddr ≤ x → x.toNat < vma.startAddr.toNat + (i + n) → stored x = none) →
    u.present (frameOf vma.startAddr) → Right tar vma stored (FirstPart vma i) u →
    ∃ u', memcopyLoop (pageFaultHandler tar vmas (active + 1)) tar vma.tarfsBase vma.startAddr n i u =
      some u' ∧ Right tar vma stored (FirstPart vma (i + n)) u'
  | 0, i, u, _, _, _, hr => ⟨u, rfl, hr⟩
  | n + 1, i, u, hn, hnone, hfirst, hr => by
    have hbss := h.toNat_bss
    have hend := h.filesz_le
    have hlt := vma.endAddr.isLt
    set y := vma.startAddr + BitVec.ofNat 64 i with hy
    have hyn : y.toNat = vma.startAddr.toNat + i := by
      rw [hy, BitVec.toNat_add, BitVec.toNat_ofNat]
      omega
    have hy1 : vma.startAddr ≤ y := by
      rw [BitVec.le_def]
      omega
    -- The page of the byte is made present.
    obtain ⟨u₁, hu₁, hr₁, hfirst₁⟩ : ∃ u₁, (if u.present (frameOf y) then some u
        else pageFaultHandler tar vmas (active + 1) u y) = some u₁ ∧
        Right tar vma stored (FirstPart vma i) u₁ ∧ u₁.present (frameOf vma.startAddr) := by
      by_cases hpres : u.present (frameOf y)
      · exact ⟨u, if_pos hpres, hr, hfirst⟩
      · have hlater : vma.startAddr < scaleDown y := by
          have hne : frameOf y ≠ frameOf vma.startAddr := fun heq => hpres (heq ▸ hfirst)
          rw [frameOf_eq_div, frameOf_eq_div] at hne
          rw [BitVec.lt_def, toNat_scaleDown]
          omega
        obtain ⟨u₁, hu₁, hadds⟩ := h.fault_later tar active u hy1 (by rw [BitVec.lt_def]; omega)
          (by rw [BitVec.lt_def]; omega) hlater hlast
        exact ⟨u₁, by rw [if_neg hpres, hu₁], hr.adds hadds (by simpa using hpres), hadds.mono hfirst⟩
    -- The byte is written, and the copy goes on.
    have hr₂ : Right tar vma stored (FirstPart vma (i + 1))
        (u₁.setByte y (tar (vma.tarfsBase + BitVec.ofNat 64 i))) := by
      refine ⟨fun x hx1 hx2 hpres hopen => ?_, hr₁.stored⟩
      by_cases hxy : x = y
      · have hdist : y - vma.startAddr = BitVec.ofNat 64 i := by
          rw [hy, BitVec.add_comm, BitVec.add_sub_cancel]
        rw [hxy, UserMem.setByte_mem_self, hnone y hy1 (by omega), Option.getD_none,
          eagerByte_file (by omega) (by omega), hdist]
      · have hne : x.toNat ≠ y.toNat := fun heq => hxy (BitVec.eq_of_toNat_eq heq)
        rw [UserMem.setByte_mem_of_ne hxy]
        refine hr₁.mem x hx1 hx2 hpres fun hpart => hopen ?_
        exact ⟨hpart.1, by have := hpart.2.1; omega, hpart.2.2⟩
    obtain ⟨u', hu', hr'⟩ := Segment.memcopyLoop_first h tar active hlast n (i + 1)
      (u₁.setByte y (tar (vma.tarfsBase + BitVec.ofNat 64 i))) (by omega) (fun x hx1 hx2 => hnone x hx1 (by omega)) hfirst₁ hr₂
    refine ⟨u', ?_, by rwa [show i + (n + 1) = i + 1 + n by omega]⟩
    rw [memcopyLoop, ← hy, hu₁]
    exact hu'

/-- The first page is mapped: all of the file on it is still to be filled. -/
theorem Right.mapFresh_first (hr : Right tar vma stored (fun _ => False) u)
    (hframe : frameOf a = frameOf vma.startAddr) (hnot : u.present (frameOf a) = false) :
    (u.mapFresh (scaleDown a)).present (frameOf vma.startAddr) ∧
      Right tar vma stored (FirstPart vma 0) (u.mapFresh (scaleDown a)) := by
  have hmono : ∀ p, u.present p → (u.mapFresh (scaleDown a)).present p := by
    intro p hp
    rw [UserMem.mapFresh_present]
    by_cases hpa : p = frameOf a
    · rw [hpa]
      exact Function.update_self ..
    · rwa [Function.update_of_ne hpa]
  refine ⟨?_, fun x hx1 hx2 hpres hopen => ?_, fun x hx => hmono _ (hr.stored x hx)⟩
  · rw [UserMem.mapFresh_present, hframe]
    exact Function.update_self ..
  · by_cases hx : frameOf x = frameOf a
    · -- An address of the first page that is not in the file.
      have hxbss : vma.startAddr.toNat + vma.pFilesz.toNat ≤ x.toNat := by
        by_contra hin
        exact hopen ⟨hx.trans hframe, BitVec.le_def.mp hx1, by omega⟩
      rw [UserMem.mapFresh_mem_of_eq hx, hr.stored_eq_none (hx ▸ hnot), Option.getD_none,
        eagerByte_bss hxbss]
    · rw [UserMem.mapFresh_present, Function.update_of_ne hx] at hpres
      rw [UserMem.mapFresh_mem_of_ne hx]
      exact hr.mem x hx1 hx2 hpres not_false

/-- The handler loads the first page of the segment, and any others that it comes to. -/
theorem Segment.fault_first (h : Segment vmas vma) (hr : Right tar vma s.stored (fun _ => False) s.user)
    (active : ℕ) (h1 : vma.startAddr ≤ a) (h2 : a < vma.endAddr)
    (hfile : a < vma.startAddr + vma.pFilesz) (hfirst : scaleDown a ≤ vma.startAddr)
    (hnot : s.user.present (frameOf a) = false) (hserved : s.ServedAt vma a) :
    ∃ u', pageFaultHandler tar vmas (active + 2) s.user a = some u' ∧
      Right tar vma s.stored (fun _ => False) u' := by
  have hbss := h.toNat_bss
  have hend := h.filesz_le
  have hsd := toNat_scaleDown a
  have hlt := vma.endAddr.isLt
  have hstart := hserved.start_ne hfile hfirst
  have hstored := hserved.first hfile hfirst
  have hlast := hserved.last hfile
  rw [h.pageFaultHandler_eq h1 h2, if_pos hfile, copySegment]
  rw [BitVec.lt_def] at hfile
  rw [BitVec.le_def] at h1 hfirst
  have hframe : frameOf a = frameOf vma.startAddr := by
    rw [frameOf_eq_div, frameOf_eq_div]
    omega
  obtain ⟨hpres₀, hr₀⟩ := hr.mapFresh_first hframe hnot
  -- The copy of `n` bytes, which are all of the file or all that is on the page.
  have hcopy : ∀ n : Word, n.toNat ≤ vma.pFilesz.toNat →
      (∀ x : Word, vma.startAddr ≤ x → x.toNat < vma.startAddr.toNat + n.toNat →
        s.stored x = none) →
      (∀ x, ¬ FirstPart vma n.toNat x) →
      ∃ u', memcopy (pageFaultHandler tar vmas (active + 1)) tar vma.tarfsBase vma.startAddr n
        (s.user.mapFresh (scaleDown a)) = some u' ∧ Right tar vma s.stored (fun _ => False) u' := by
    intro n hn hnone hall
    obtain ⟨u', hu', hr'⟩ := h.memcopyLoop_first tar active hlast n.toNat 0 _
      (by omega) (fun x hx1 hx2 => hnone x hx1 (by omega)) hpres₀ hr₀
    exact ⟨u', hu', fun x hx1 hx2 hp _ => hr'.mem x hx1 hx2 hp (by rw [Nat.zero_add]; exact hall x),
      hr'.stored⟩
  have hwhole : ∀ x, ¬ FirstPart vma vma.pFilesz.toNat x := fun x hx => by
    have := hx.2
    omega
  have hpage : ∀ x : Word, (scaleDown a).toNat ≤ x.toNat → x.toNat < (scaleDown a).toNat + 4096 →
      s.stored x = none := fun x hx1 hx2 =>
    hr.stored_eq_none ((frameOf_eq_iff (a := a)).mpr ⟨hx1, hx2⟩ ▸ hnot)
  by_cases hone : scaleDown a < vma.startAddr ∧ scaleDown a + 4 * 1024 > vma.startAddr + vma.pFilesz
  · -- All of the file is on one page, and starts behind the start of the page.
    rw [if_pos hone]
    have hnext : (scaleDown a + 4 * 1024).toNat = ((scaleDown a).toNat + 4096) % 2 ^ 64 :=
      BitVec.toNat_add ..
    rw [gt_iff_lt, BitVec.lt_def (y := scaleDown a + 4 * 1024), hnext, hbss] at hone
    exact hcopy _ le_rfl (fun x hx1 hx2 => hpage x (by rw [BitVec.le_def] at hx1; omega) (by omega))
      hwhole
  rw [if_neg hone, if_pos (BitVec.le_def.mpr hfirst)]
  have h4096 : (4 * 1024 : Word).toNat = 4096 := rfl
  by_cases hlow : vma.startAddr < 4096
  · -- The rest of the first page of the address space is as long as the source computes it.
    have hlow' : vma.startAddr.toNat < 4096 := BitVec.lt_def.mp hlow
    have hsize : (4 * 1024 - vma.startAddr).toNat = 4096 - vma.startAddr.toNat := by
      rw [toNat_sub_of_le (by omega), h4096]
    have hon : ∀ x : Word, vma.startAddr ≤ x → x.toNat < 4096 → s.stored x = none := fun x hx1 hx2 =>
      hpage x (by rw [BitVec.le_def] at hx1; omega) (by omega)
    split_ifs with hmin <;> rw [BitVec.lt_def, hsize] at hmin
    · exact hcopy _ le_rfl (fun x hx1 hx2 => hon x hx1 (by omega)) hwhole
    · refine hcopy _ (by omega) (fun x hx1 hx2 => hon x hx1 (by omega)) fun x hx => ?_
      obtain ⟨hx1, hx2, -⟩ := hx
      rw [frameOf_eq_div, frameOf_eq_div] at hx1
      omega
  · -- The difference wraps around, and the whole file is copied.
    have hne : vma.startAddr.toNat ≠ 4096 := fun heq => hstart (BitVec.eq_of_toNat_eq heq)
    have hhigh : ¬ vma.startAddr.toNat < 4096 := fun hlt => hlow (BitVec.lt_def.mpr hlt)
    have hsize : (4 * 1024 - vma.startAddr).toNat = 2 ^ 64 + 4096 - vma.startAddr.toNat := by
      rw [BitVec.toNat_sub, h4096]
      omega
    rw [if_pos (by rw [BitVec.lt_def, hsize]; omega)]
    exact hcopy _ le_rfl (fun x hx1 hx2 => hstored.resolve_left hlow x hx1
      (by rw [BitVec.lt_def]; omega)) hwhole

/-- The handler loads a page of the segment, and leaves what is present right. -/
theorem Segment.fault (h : Segment vmas vma) (hr : Right tar vma s.stored (fun _ => False) s.user)
    (active : ℕ) (h1 : vma.startAddr ≤ a) (h2 : a < vma.endAddr)
    (hnot : s.user.present (frameOf a) = false) (hserved : s.ServedAt vma a) :
    ∃ u', pageFaultHandler tar vmas (active + 2) s.user a = some u' ∧
      Right tar vma s.stored (fun _ => False) u' := by
  have hbss := h.toNat_bss
  by_cases hfile : a < vma.startAddr + vma.pFilesz
  · by_cases hfirst : scaleDown a ≤ vma.startAddr
    · exact h.fault_first hr active h1 h2 hfile hfirst hnot hserved
    · obtain ⟨u', hu', hadds⟩ := h.fault_later tar (active + 1) s.user h1 h2 hfile
        (BitVec.not_le.mp hfirst) (hserved.last hfile)
      exact ⟨u', hu', hr.adds hadds hnot⟩
  · -- A page of zeros.
    refine ⟨s.user.mapFresh (scaleDown a), ?_, hr.adds ⟨UserMem.mapFresh_present .., ?_, ?_⟩ hnot⟩
    · rw [h.pageFaultHandler_eq h1 h2, if_neg hfile]
    · intro x hx1 hx
      have hpage := frameOf_eq_iff.mp hx
      rw [UserMem.mapFresh_mem_of_eq hx, eagerByte_bss]
      rcases hserved.bss (BitVec.not_lt.mp hfile) with hle | hzero
      · rw [BitVec.le_def] at hle
        omega
      · rw [hzero, show (0 : Word).toNat = 0 from rfl]
        exact BitVec.le_def.mp hx1
    · exact fun x hx => UserMem.mapFresh_mem_of_ne hx _

end Fault

/-! ## Runs of accesses -/

/-- What is present in a state is right. -/
def State.Good (tar : Word → Byte) (vma : Vma) (s : State) : Prop :=
  Right tar vma s.stored (fun _ => False) s.user

variable {tar : Word → Byte} {vmas : List Vma} {vma : Vma} {active : ℕ} {s s' : State} {op : Access}

theorem State.good_start (m : Word → Byte) : (State.start m).Good tar vma :=
  ⟨fun _ _ _ hpres _ => absurd hpres Bool.false_ne_true, fun _ hx => absurd rfl hx⟩

/-- One access that is served well leaves what is present right. -/
theorem State.Good.step (hs : s.Good tar vma) (h : Segment vmas vma) (hserved : s.Served vma op)
    (hstep : s.step tar vmas vma (active + 2) op = some s') : s'.Good tar vma := by
  cases op with
  | touch a =>
    simp only [State.step] at hstep
    split_ifs at hstep with hin hpres
    · exact Option.some.inj hstep ▸ hs
    · have hnot : s.user.present (frameOf a) = false := by simpa using hpres
      obtain ⟨u', hu', hr⟩ := h.fault hs active hin.1 hin.2 hnot (hserved hnot)
      rw [hu'] at hstep
      exact Option.some.inj hstep ▸ hr
  | store a b =>
    simp only [State.step] at hstep
    split_ifs at hstep with hin
    obtain rfl := Option.some.inj hstep
    exact Right.setByte hs hin.2 b

/-- In every run of accesses that are served well, the pages that are present have what the eager copy
leaves, but for what the program has stored, and every fault that would be served well is handled. -/
theorem loads_in_order (tar : Word → Byte) (vmas : List Vma) (vma : Vma) (h : Segment vmas vma)
    (m : Word → Byte) (active : ℕ) (ops : List Access)
    (hserved : Along (State.step tar vmas vma (active + 2)) (State.Served vma) (State.start m) ops)
    (s : State) (hv : Visits (State.step tar vmas vma (active + 2)) (State.start m) ops s) :
    s.Loaded tar vma ∧ ∀ a, vma.startAddr ≤ a → a < vma.endAddr → s.Served vma (.touch a) →
      (s.step tar vmas vma (active + 2) (.touch a)).isSome := by
  have hgood : s.Good tar vma := hv.invariant hserved
    (fun _ _ _ hs hser hstep => hs.step h hser hstep) (State.good_start m)
  refine ⟨fun x hx1 hx2 hpres => hgood.mem x hx1 hx2 hpres not_false, fun a h1 h2 hser => ?_⟩
  rw [State.step, if_pos ⟨h1, h2⟩]
  split_ifs with hpres
  · rfl
  · have hnot : s.user.present (frameOf a) = false := by simpa using hpres
    obtain ⟨u', hu', -⟩ := h.fault hgood active h1 h2 hnot (hser hnot)
    rw [hu']
    rfl

/-- A segment of two bytes on two pages. -/
def sampleVma : Vma where
  startAddr := 0x400fff
  endAddr := 0x401001
  vmFlags := 1
  vmtype := .data
  pFilesz := 2
  tarfsBase := 0

theorem sampleVma_segment : Segment [sampleVma] sampleVma where
  vmtype := .inr rfl
  found a h1 h2 := by
    have h2' : a ≤ sampleVma.endAddr := by
      rw [BitVec.le_def]
      exact (BitVec.lt_def.mp h2).le
    rw [checkVma, List.find?_cons, decide_eq_true h1, decide_eq_true h2']
    rfl
  filesz_le := by decide

/-- The archive of a file that has a 7 in each of its bytes. -/
def sampleFile : Word → Byte := fun _ => 7

/-- The first byte is touched, and then the second one is stored. -/
theorem loads_in_order_sample : ∃ s, run (State.step sampleFile [sampleVma] sampleVma 2)
    (State.start fun _ => 0) [.touch 0x400fff, .store 0x401000 9] = some s ∧
      s.Loaded sampleFile sampleVma := by
  have hserved : (State.start fun _ => 0).Served sampleVma (.touch 0x400fff) := fun _ =>
    ⟨fun hle => absurd hle (by decide), fun _ _ => by decide, fun _ _ => .inr fun _ _ _ => rfl,
      fun _ => .inl (by decide)⟩
  refine ⟨_, rfl, (loads_in_order sampleFile _ _ sampleVma_segment _ 0
    [.touch 0x400fff, .store 0x401000 9] ⟨hserved, fun _ _ => ⟨trivial, fun _ _ => trivial⟩⟩ _
    (visits_of_run rfl)).1⟩

/-- The second byte is touched first and stored, and the fault at the first byte overwrites it. -/
theorem store_overwritten : ¬ ∀ (tar : Word → Byte) (vmas : List Vma) (vma : Vma),
    Segment vmas vma → ∀ (m : Word → Byte) (active : ℕ) (ops : List Access) (s : State),
      run (State.step tar vmas vma (active + 2)) (State.start m) ops = some s →
      (∀ x, vma.startAddr ≤ x → x < vma.endAddr → s.user.present (frameOf x)) →
      s.Loaded tar vma := by
  intro hall
  have hloaded := hall sampleFile _ _ sampleVma_segment (fun _ => 0) 0
    [.touch 0x401000, .store 0x401000 9, .touch 0x400fff] _ rfl fun x hx1 hx2 => by
      have hx : x = 0x400fff ∨ x = 0x401000 := by
        simp only [sampleVma] at hx1 hx2
        bv_omega
      rcases hx with rfl | rfl <;> decide
  have hbyte := hloaded 0x401000 (by decide) (by decide) (by decide)
  revert hbyte
  decide

end Nascent.Lazy
