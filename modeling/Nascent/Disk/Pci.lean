import Mathlib.Data.BitVec
import Mathlib.Data.List.GetD
import Mathlib.Logic.Function.Basic

/-!
# The search for the disk

`pci.c`. A register of the configuration space is named by the address that was written to the port 0xCF8 last, and
is read and written through 0xCFC. `checkAllBuses` looks for the first controller of class 0x0106 and moves its
registers to 0x3c000000, and `probe_port` takes the second of its ports that is implemented, whatever drive it has.

The search writes to no register but this one (`checkAllBuses_spec`). It leaves out bus 255. Left out of the model
are the messages on the console.
-/

namespace Nascent.Pci

/-- The place of a function: its bus, its device, and its number. -/
abbrev Place := BitVec 8 × BitVec 8 × BitVec 8

/-- The configuration space, behind its two ports. -/
structure Ports where
  /-- The address that was written last. -/
  address : BitVec 32
  /-- The registers, by bus, device, function, and register. -/
  config : BitVec 8 × BitVec 5 × BitVec 3 × BitVec 6 → BitVec 32

/-- The register that an address names. -/
def register (address : BitVec 32) : BitVec 8 × BitVec 5 × BitVec 3 × BitVec 6 :=
  (address.extractLsb' 16 8, address.extractLsb' 11 5, address.extractLsb' 8 3, address.extractLsb' 2 6)

/-- `inl(0xCFC)`. -/
def Ports.inl (p : Ports) : BitVec 32 := if p.address.getLsbD 31 then p.config (register p.address) else 0xffffffff

/-- `outl(0xCF8, val)`. -/
def Ports.outlAddress (p : Ports) (val : BitVec 32) : Ports := { p with address := val }

/-- `outl(0xCFC, val)`. -/
def Ports.outlData (p : Ports) (val : BitVec 32) : Ports :=
  if p.address.getLsbD 31 then { p with config := Function.update p.config (register p.address) val } else p

/-- The address that the functions of `pci.c` write. -/
def address (bus device func offset : BitVec 8) : BitVec 32 :=
  bus.setWidth 32 <<< 16 ||| device.setWidth 32 <<< 11 ||| func.setWidth 32 <<< 8 |||
    (offset &&& 0xfc).setWidth 32 ||| 0x80000000

/-- `pciConfigReadWord`. -/
def pciConfigReadWord (bus device func offset : BitVec 8) (p : Ports) : BitVec 16 × Ports :=
  let p := p.outlAddress (address bus device func offset)
  (((p.inl >>> ((offset &&& 2).toNat * 8)) &&& 0xffff).setWidth 16, p)

/-- `movebar5`. -/
def movebar5 (bus slot func offset : BitVec 8) (newAddress : BitVec 32) (p : Ports) : Ports :=
  (p.outlAddress (address bus slot func offset)).outlData newAddress

/-- `pciCheckForAHCI`. -/
def pciCheckForAHCI (bus device f : BitVec 8) (p : Ports) : Bool × Ports :=
  let (vendor, p) := pciConfigReadWord bus device f 0 p
  if vendor = 0xFFFF then (false, p)
  else
    let (resp, p) := pciConfigReadWord bus device f 10 p
    (resp = 0x0106, p)

/-- The results of `check_type`. -/
inductive Drive
  | sata
  | satapi
  | semb
  | pm
deriving DecidableEq

/-- `check_type`. -/
def checkType (sig : BitVec 32) : Drive :=
  if sig = 0xEB140101 then .satapi else if sig = 0xC33C0101 then .semb else if sig = 0x96690101 then .pm else .sata

/-- The loop of `probe_port`, from port `i` on, with `j` ports found. -/
def probeLoop (sig : ℕ → BitVec 32) : ℕ → ℕ → ℕ → BitVec 32 → Option ℕ
  | 0, _, _, _ => none
  | fuel + 1, i, j, pi =>
    if pi &&& 1 ≠ 0 then
      let j := match checkType (sig i) with
        | .sata => j + 1
        | .satapi => j + 1
        | .semb => j + 1
        | .pm => j + 1
      if j = 2 then some i else probeLoop sig fuel (i + 1) j (pi >>> 1)
    else probeLoop sig fuel (i + 1) j (pi >>> 1)

/-- `probe_port`, with the ports that are implemented and their signatures. -/
def probePort (pi : BitVec 32) (sig : ℕ → BitVec 32) : Option ℕ := probeLoop sig 32 0 0 pi

/-- The places in the order of the three loops of `checkAllBuses`. -/
def places : List Place :=
  (List.range 255).flatMap fun bus => (List.range 32).flatMap fun device => (List.range 8).map fun f =>
    (BitVec.ofNat 8 bus, BitVec.ofNat 8 device, BitVec.ofNat 8 f)

/-- The search of the loops. -/
def search : List Place → Ports → Option Place × Ports
  | [], p => (none, p)
  | l :: ls, p =>
    let (found, p) := pciCheckForAHCI l.1 l.2.1 l.2.2 p
    if found then (some l, p) else search ls p

/-- `checkAllBuses`, with what the controller has at 0x3c000000 then. -/
def checkAllBuses (pi : BitVec 32) (sig : ℕ → BitVec 32) (p : Ports) : Option ℕ × Ports :=
  match search places p with
  | (none, p) => (none, p)
  | (some (bus, device, f), p) => (probePort pi sig, movebar5 bus device f 0x24 0x3c000000 p)

/-! ## One function -/

variable {p q : Ports} {bus device f offset : BitVec 8} {l : Place} {ls : List Place} {pi : BitVec 32}
  {sig : ℕ → BitVec 32} {i j : ℕ}

/-- The address names the register. -/
theorem register_address (hdevice : device.toNat < 32) (hf : f.toNat < 8) :
    register (address bus device f offset) =
      (bus, device.setWidth 5, f.setWidth 3, offset.extractLsb' 2 6) := by
  have hd : ∀ i, 5 ≤ i → device.getLsbD i = false := fun i hi =>
    Nat.testBit_lt_two_pow (hdevice.trans_le (Nat.pow_le_pow_right Nat.two_pos hi))
  have hf' : ∀ i, 3 ≤ i → f.getLsbD i = false := fun i hi =>
    Nat.testBit_lt_two_pow (hf.trans_le (Nat.pow_le_pow_right Nat.two_pos hi))
  have hmask : ∀ i < 8, (0xfc : BitVec 8).getLsbD i = decide (2 ≤ i) := by decide
  have henable : ∀ i < 32, (0x80000000 : BitVec 32).getLsbD i = decide (i = 31) := by decide
  unfold register address
  refine Prod.ext ?_ (Prod.ext ?_ (Prod.ext ?_ ?_))
  all_goals
    apply BitVec.eq_of_getLsbD_eq
    intro i hi
    simp only [BitVec.getLsbD_extractLsb', BitVec.getLsbD_or, BitVec.getLsbD_shiftLeft, BitVec.getLsbD_setWidth,
      BitVec.getLsbD_and]
    grind

/-- The address is one. -/
theorem address_enabled : (address bus device f offset).getLsbD 31 = true := by
  have henable : (0x80000000 : BitVec 32).getLsbD 31 = true := by decide
  unfold address
  rw [BitVec.getLsbD_or, henable, Bool.or_true]

/-- The register of a function, of those that there are. -/
def reg (l : Place) (offset : BitVec 6) : BitVec 8 × BitVec 5 × BitVec 3 × BitVec 6 :=
  (l.1, l.2.1.setWidth 5, l.2.2.setWidth 3, offset)

/-- The place is one of the bus. -/
def Place.Valid (l : Place) : Prop := l.2.1.toNat < 32 ∧ l.2.2.toNat < 8

/-- A word is read from its register, and nothing else changes. -/
theorem pciConfigReadWord_eq (hl : l.Valid) : pciConfigReadWord l.1 l.2.1 l.2.2 offset p =
    ((p.config (reg l (offset.extractLsb' 2 6)) >>> ((offset &&& 2).toNat * 8)).setWidth 16,
      p.outlAddress (address l.1 l.2.1 l.2.2 offset)) := by
  have hmask (x : BitVec 32) : (x &&& 0xffff).setWidth 16 = x.setWidth 16 := by
    have hones : ∀ i < 16, (0xffff : BitVec 32).getLsbD i = true := by decide
    apply BitVec.eq_of_getLsbD_eq
    intro i hi
    rw [BitVec.getLsbD_setWidth, BitVec.getLsbD_and, hones i hi, Bool.and_true, BitVec.getLsbD_setWidth]
  unfold pciConfigReadWord Ports.inl Ports.outlAddress
  dsimp only
  rw [if_pos address_enabled, register_address hl.1 hl.2, hmask]
  rfl

/-- The function is a controller of the class that is looked for. -/
def IsAhci (config : BitVec 8 × BitVec 5 × BitVec 3 × BitVec 6 → BitVec 32) (l : Place) : Prop :=
  (config (reg l 0)).setWidth 16 ≠ (0xFFFF : BitVec 16) ∧ (config (reg l 2)).extractLsb' 16 16 = 0x0106

instance (config : BitVec 8 × BitVec 5 × BitVec 3 × BitVec 6 → BitVec 32) (l : Place) : Decidable (IsAhci config l) :=
  inferInstanceAs (Decidable (_ ∧ _))

/-- The two words that are read of a function. -/
theorem readWord_zero (hl : l.Valid) : pciConfigReadWord l.1 l.2.1 l.2.2 0 p =
    ((p.config (reg l 0)).setWidth 16, p.outlAddress (address l.1 l.2.1 l.2.2 0)) := by
  rw [pciConfigReadWord_eq hl]
  rfl

theorem readWord_class (hl : l.Valid) : pciConfigReadWord l.1 l.2.1 l.2.2 10 p =
    ((p.config (reg l 2)).extractLsb' 16 16, p.outlAddress (address l.1 l.2.1 l.2.2 10)) := by
  have hclass : ∀ x : BitVec 32, (x >>> 16).setWidth 16 = x.extractLsb' 16 16 := fun x => by
    apply BitVec.eq_of_getLsbD_eq
    intro i hi
    simp [hi]
  rw [pciConfigReadWord_eq hl, ← hclass]
  rfl

/-- One function is looked at. -/
theorem pciCheckForAHCI_spec (hl : l.Valid) : ∃ q, pciCheckForAHCI l.1 l.2.1 l.2.2 p =
    (decide (IsAhci p.config l), q) ∧ q.config = p.config := by
  unfold pciCheckForAHCI IsAhci
  rw [readWord_zero hl]
  dsimp only
  split_ifs with hvendor
  · exact ⟨_, Prod.ext (decide_eq_false fun h => h.1 hvendor).symm rfl, rfl⟩
  · rw [readWord_class hl]
    exact ⟨_, Prod.ext (decide_eq_decide.mpr ⟨fun h => ⟨hvendor, h⟩, And.right⟩) rfl, rfl⟩

/-! ## The search -/

/-- The search finds the first one, and writes to no register. -/
theorem search_spec (hls : ∀ l ∈ ls, l.Valid) : ∃ q, search ls p =
    (ls.find? fun l => decide (IsAhci p.config l), q) ∧ q.config = p.config := by
  induction ls generalizing p with
  | nil => exact ⟨p, rfl, rfl⟩
  | cons l ls ih =>
    obtain ⟨hl, hls⟩ := List.forall_mem_cons.mp hls
    obtain ⟨q, hcheck, hq⟩ := pciCheckForAHCI_spec (p := p) hl
    rw [search, hcheck]
    by_cases hahci : IsAhci p.config l
    · refine ⟨q, ?_, hq⟩
      simp [hahci]
    · obtain ⟨r, hsearch, hr⟩ := @ih q hls
      refine ⟨r, ?_, hr.trans hq⟩
      rw [hq] at hsearch
      simp [hahci, hsearch]

theorem places_valid : ∀ l ∈ places, l.Valid := by
  intro l hl
  simp only [places, List.mem_flatMap, List.mem_map, List.mem_range] at hl
  obtain ⟨bus, -, device, hdevice, f, hf, rfl⟩ := hl
  constructor
  · show (BitVec.ofNat 8 device).toNat < 32
    rw [BitVec.toNat_ofNat]
    omega
  · show (BitVec.ofNat 8 f).toNat < 8
    rw [BitVec.toNat_ofNat]
    omega

/-- The controller is moved. -/
theorem movebar5_eq {newAddress : BitVec 32} (hl : l.Valid) : movebar5 l.1 l.2.1 l.2.2 0x24 newAddress p =
    { address := address l.1 l.2.1 l.2.2 0x24, config := Function.update p.config (reg l 9) newAddress } := by
  unfold movebar5 Ports.outlAddress Ports.outlData
  rw [if_pos address_enabled, register_address hl.1 hl.2]
  rfl

/-! ## The ports -/

/-- The number of the implemented ports from one to before another. -/
def implemented (pi : BitVec 32) (i k : ℕ) : ℕ := (List.range' i (k - i)).countP pi.getLsbD

theorem implemented_self : implemented pi i i = 0 := by
  rw [implemented, Nat.sub_self]
  rfl

theorem implemented_succ {k : ℕ} (hik : i < k) :
    implemented pi i k = (pi.getLsbD i).toNat + implemented pi (i + 1) k := by
  obtain ⟨n, rfl⟩ : ∃ n, k = i + 1 + n := ⟨k - (i + 1), by omega⟩
  have h1 : i + 1 + n - i = n + 1 := by omega
  have h2 : i + 1 + n - (i + 1) = n := by omega
  unfold implemented
  rw [h1, h2, List.range'_succ, List.countP_cons, Nat.add_comm]
  cases pi.getLsbD i <;> rfl

/-- The loop finds the port with one implemented port in front of it. -/
theorem probeLoop_eq_some {fuel k : ℕ} (hj : j ≤ 1) : probeLoop sig fuel i j (pi >>> i) = some k ↔
    i ≤ k ∧ k < i + fuel ∧ pi.getLsbD k = true ∧ j + implemented pi i k = 1 := by
  induction fuel generalizing i j with
  | zero =>
    rw [probeLoop]
    simp
    omega
  | succ fuel ih =>
    have hbit : (pi >>> i) &&& 1 ≠ 0 ↔ pi.getLsbD i = true := by
      have hlow : (pi >>> i).getLsbD 0 = pi.getLsbD i := BitVec.getLsbD_ushiftRight ..
      have hand : (pi >>> i) &&& 1 = BitVec.setWidth 32 (BitVec.ofBool (pi.getLsbD i)) := by
        rw [← hlow]
        exact BitVec.and_one_eq_setWidth_ofBool_getLsbD
      rw [hand]
      cases pi.getLsbD i <;> decide
    have hnext : (pi >>> i) >>> 1 = pi >>> (i + 1) := (BitVec.shiftRight_add ..).symm
    have htype : (match checkType (sig i) with
        | .sata => j + 1
        | .satapi => j + 1
        | .semb => j + 1
        | .pm => j + 1) = j + 1 := by
      cases checkType (sig i) <;> rfl
    rw [probeLoop, hnext]
    dsimp only
    rw [htype]
    by_cases hset : pi.getLsbD i = true
    · rw [if_pos (hbit.mpr hset)]
      split_ifs with h2
      · constructor
        · rintro h
          obtain rfl := Option.some.inj h
          rw [implemented_self]
          exact ⟨Nat.le_refl _, by omega, hset, by omega⟩
        · rintro ⟨hik, -, -, hcount⟩
          rcases Nat.lt_or_eq_of_le hik with hlt | rfl
          · rw [implemented_succ hlt, hset, Bool.toNat_true] at hcount
            omega
          · rfl
      · rw [ih (by omega)]
        rcases Nat.lt_or_ge i k with hlt | hle
        · rw [implemented_succ hlt, hset, Bool.toNat_true]
          exact ⟨fun ⟨h1, h2, h3, h4⟩ => ⟨by omega, by omega, h3, by omega⟩,
            fun ⟨h1, h2, h3, h4⟩ => ⟨by omega, by omega, h3, by omega⟩⟩
        · refine iff_of_false (fun h => by omega) fun h => ?_
          obtain rfl : i = k := by omega
          rw [implemented_self] at h
          omega
    · rw [if_neg (mt hbit.mp hset), ih hj]
      rcases Nat.lt_or_ge i k with hlt | hle
      · rw [implemented_succ hlt, Bool.eq_false_iff.mpr hset, Bool.toNat_false]
        exact ⟨fun ⟨h1, h2, h3, h4⟩ => ⟨by omega, by omega, h3, by omega⟩,
          fun ⟨h1, h2, h3, h4⟩ => ⟨by omega, by omega, h3, by omega⟩⟩
      · refine iff_of_false (fun h => by omega) fun h => ?_
        obtain rfl : i = k := by omega
        exact hset h.2.2.1

/-- `checkAllBuses` finds the first controller below bus 255, if there is one. It writes to no register of the
configuration space but to `BAR5` of this controller, and takes the second of its ports that is implemented. -/
theorem checkAllBuses_spec (pi : BitVec 32) (sig : ℕ → BitVec 32) (p : Ports) :
    (∀ k, probePort pi sig = some k ↔ k < 32 ∧ pi.getLsbD k = true ∧ implemented pi 0 k = 1) ∧
    (((∀ l ∈ places, ¬ IsAhci p.config l) ∧ ∃ q, checkAllBuses pi sig p = (none, q) ∧ q.config = p.config) ∨
      ∃ before l behind, places = before ++ l :: behind ∧ (∀ l ∈ before, ¬ IsAhci p.config l) ∧
        IsAhci p.config l ∧ ∃ q, checkAllBuses pi sig p = (probePort pi sig, q) ∧
          q.config = Function.update p.config (reg l 9) 0x3c000000) := by
  refine ⟨fun k => ?_, ?_⟩
  · have hloop := @probeLoop_eq_some pi sig 0 0 32 k (by decide)
    rw [BitVec.ushiftRight_zero] at hloop
    rw [probePort, hloop, Nat.zero_add, Nat.zero_add]
    exact ⟨And.right, fun h => ⟨Nat.zero_le k, h⟩⟩
  · obtain ⟨q, hsearch, hq⟩ := search_spec (p := p) places_valid
    unfold checkAllBuses
    rw [hsearch]
    cases hfind : places.find? fun l => decide (IsAhci p.config l) with
    | none =>
      refine .inl ⟨fun l hl => ?_, q, rfl, hq⟩
      have hnone := List.find?_eq_none.mp hfind l hl
      simpa using hnone
    | some l =>
      obtain ⟨hl, before, behind, heq, hbefore⟩ := List.find?_eq_some_iff_append.mp hfind
      have hvalid : l.Valid := places_valid l (by rw [heq]; simp)
      refine .inr ⟨before, l, behind, heq, fun l hl => by simpa using hbefore l hl, by simpa using hl, _, rfl, ?_⟩
      show (movebar5 l.1 l.2.1 l.2.2 0x24 0x3c000000 q).config = _
      rw [movebar5_eq hvalid, hq]

end Nascent.Pci
