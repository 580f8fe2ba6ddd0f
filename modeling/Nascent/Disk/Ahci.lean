import Mathlib.Logic.Function.Basic
import Nascent.Lib.Tiling
import Nascent.Tarfs.Model

/-!
# Commands for the disk

`read_write` and `find_cmdslot` of `src/sys/ahci.c`, up to the write to `ci` that issues the command. A
command is a header in a slot of the port and a table with the FIS and the entries for the regions of
physical memory that the disk copies from or to. A region has at most 16 sectors of 512 bytes.

The regions tile the buffer, the header has their number, and the FIS has the first sector. The FIS also
has the number of sectors. But the loop that cuts the buffer into regions takes its sectors from `count`,
so that the FIS gets the number of those that are left for the last region. It is the number for the whole
command only if there is one region (`readWrite_describes_iff`).
-/

namespace Nascent.Ahci

open Memory (Word64)
open Tarfs (CInt)
open Tiling

/-! ## Commands -/

/-- `hba_prdt_entry_t`. -/
structure PrdtEntry where
  /-- The address of the region. -/
  dba : Word64
  /-- The number of its bytes. -/
  dbc : BitVec 22
  /-- Whether its completion interrupts. -/
  i : BitVec 1
deriving DecidableEq

/-- The fields of `fis_reg_h2d_t` that `read_write` sets. -/
structure FisRegH2d where
  /-- The type of the FIS. -/
  fisType : BitVec 8
  /-- Whether it is a command. -/
  c : BitVec 1
  /-- The command. -/
  command : BitVec 8
  /-- The first sector, its lowest byte first. -/
  lba0 : BitVec 8
  lba1 : BitVec 8
  lba2 : BitVec 8
  lba3 : BitVec 8
  lba4 : BitVec 8
  lba5 : BitVec 8
  /-- The mode of the addresses. -/
  device : BitVec 8
  /-- The number of sectors. -/
  count : BitVec 16

/-- The fields of `hba_cmd_header_t` that `read_write` sets. -/
structure CmdHeader where
  /-- The words of the FIS. -/
  cfl : BitVec 5
  /-- Whether the disk is written. -/
  w : BitVec 1
  /-- The number of entries. -/
  prdtl : BitVec 16

/-- A command: its header, and what is in its table. -/
structure Command where
  /-- The header. -/
  header : CmdHeader
  /-- The FIS. -/
  fis : FisRegH2d
  /-- The entries, and what lies behind them. -/
  prdtEntry : ℕ → PrdtEntry

/-- The entry of zeros. -/
def nullEntry : PrdtEntry := ⟨0, 0, 0⟩

/-- The variables of the loop that cuts the buffer into regions. -/
structure Cut where
  /-- The entries. -/
  prdtEntry : ℕ → PrdtEntry
  /-- `buf`. -/
  buf : Word64
  /-- `count`. -/
  count : BitVec 32

/-- An entry for the buffer that is left. -/
def Cut.entry (x : Cut) (i : ℕ) (dbc : BitVec 22) : ℕ → PrdtEntry :=
  Function.update x.prdtEntry i ⟨x.buf, dbc, 1⟩

/-- One round of the loop. The pointer counts words of two bytes. -/
def Cut.step (x : Cut) (i : ℕ) : Cut where
  prdtEntry := x.entry i (8 * 1024)
  buf := x.buf + 2 * (4 * 1024)
  count := x.count - 16

/-- The `memset` of the table: 256 bytes for a table with one entry, of which 128 are in front of the
entries, and 16 bytes for each other entry. -/
def clearEntries (prdtl : BitVec 16) (prdtEntry : ℕ → PrdtEntry) : ℕ → PrdtEntry := fun i =>
  if i < prdtl.toNat + 7 then nullEntry else prdtEntry i

/-- The entries and the count that `read_write` has when it sets up the FIS. -/
def cutBuffer (prdtl : BitVec 16) (prdtEntry : ℕ → PrdtEntry) (buf : Word64) (count : BitVec 32) : Cut :=
  let last := prdtl.toNat - 1
  let x := (List.range last).foldl Cut.step ⟨clearEntries prdtl prdtEntry, buf, count⟩
  { x with prdtEntry := x.entry last ((x.count <<< 9).setWidth 22) }

/-- The command that `read_write` builds in a table. -/
def buildCommand (startl starth count : BitVec 32) (buf : Word64) (rf : CInt)
    (prdtEntry : ℕ → PrdtEntry) : Command :=
  let prdtl := ((count - 1) >>> 4).setWidth 16 + 1
  let x := cutBuffer prdtl prdtEntry buf count
  { header := { cfl := 5, w := if rf = 1 then 0 else 1, prdtl := prdtl }
    fis :=
      { fisType := 0x27
        c := 1
        command := if rf = 1 then 0x25 else 0x35
        lba0 := startl.setWidth 8
        lba1 := (startl >>> 8).setWidth 8
        lba2 := (startl >>> 16).setWidth 8
        device := 1 <<< 6
        lba3 := (startl >>> 24).setWidth 8
        lba4 := starth.setWidth 8
        lba5 := (starth >>> 8).setWidth 8
        count := x.count.setWidth 16 }
    prdtEntry := x.prdtEntry }

/-! ## The port -/

/-- The loop of `find_cmdslot`. -/
def findCmdslotLoop : ℕ → ℕ → BitVec 32 → Option ℕ
  | 0, _, _ => none
  | fuel + 1, i, slots => if slots &&& 1 = 0 then some i else findCmdslotLoop fuel (i + 1) (slots >>> 1)

/-- `find_cmdslot`, on the two registers of the port. Nothing stands for -1. -/
def findCmdslot (sact ci : BitVec 32) : Option ℕ := findCmdslotLoop 32 0 (sact ||| ci)

/-- The loop that waits for the port, on what `tfd` reads in each round. -/
def spinLoop (tfd : ℕ → BitVec 32) : ℕ → ℕ → ℕ
  | 0, spin => spin
  | fuel + 1, spin => if tfd spin &&& (0x80 ||| 0x08) ≠ 0 then spinLoop tfd fuel (spin + 1) else spin

/-- What `read_write` leaves for the disk. -/
structure Request where
  /-- The slot. -/
  slot : ℕ
  /-- The command in the slot. -/
  command : Command
  /-- What is written to `ci`, unless the port is hung. -/
  issue : Option (BitVec 32)

/-- `read_write`, up to the write to `ci`. Without a slot it returns. The tables of the slots have some
entries from the commands before. -/
def readWrite (sact ci : BitVec 32) (tfd : ℕ → BitVec 32) (tables : ℕ → ℕ → PrdtEntry)
    (startl starth count : BitVec 32) (buf : Word64) (rf : CInt) : Option Request :=
  (findCmdslot sact ci).map fun slot =>
    { slot := slot
      command := buildCommand startl starth count buf rf (tables slot)
      issue := if spinLoop tfd 1000000 0 = 1000000 then none else some (1 <<< slot) }

/-! ## What a command says -/

/-- The regions of a command. -/
def Command.regions (cmd : Command) : List (Word64 × ℕ) :=
  (List.range cmd.header.prdtl.toNat).map fun i => ((cmd.prdtEntry i).dba, (cmd.prdtEntry i).dbc.toNat)

/-- The bytes of the first sector. -/
def FisRegH2d.lba (fis : FisRegH2d) : List (BitVec 8) :=
  [fis.lba0, fis.lba1, fis.lba2, fis.lba3, fis.lba4, fis.lba5]

/-- The regions of a command are those of a buffer, and the first sector is the one that was asked for. -/
structure Locates (cmd : Command) (start : BitVec 48) (bytes : ℕ) (buf : Word64) : Prop where
  /-- The regions tile the buffer. -/
  tiles : Tiles buf bytes cmd.regions
  /-- A byte of the buffer is in one region, and in no other. -/
  existsUnique : ∀ x, Within (buf, bytes) x → ∃! i : ℕ, ∃ p ∈ cmd.regions[i]?, Within p x
  /-- No other byte is in a region. -/
  not_within : ∀ x, ¬ Within (buf, bytes) x → ∀ p ∈ cmd.regions, ¬ Within p x
  /-- The header has the number of the entries that have been set. -/
  prdtl : ∀ i < cmd.header.prdtl.toNat + 7, cmd.prdtEntry i ≠ nullEntry ↔ i < cmd.header.prdtl.toNat
  /-- The first sector. -/
  lba : cmd.fis.lba = (List.range 6).map fun k => start.extractLsb' (8 * k) 8

/-- A command describes a transfer of some sectors. -/
structure Describes (cmd : Command) (start : BitVec 48) (count : BitVec 16) (buf : Word64) : Prop where
  /-- The places. -/
  locates : Locates cmd start (512 * count.toNat) buf
  /-- The number of sectors. -/
  count : cmd.fis.count = count

/-! ## The loop -/

variable {c : BitVec 16} {buf : Word64} {i m n : ℕ} {old : ℕ → PrdtEntry}

/-- The loop after some rounds. -/
theorem foldl_step (x : Cut) (n : ℕ) : (List.range n).foldl Cut.step x =
    { prdtEntry := fun i =>
        if i < n then ⟨x.buf + BitVec.ofNat 64 (8192 * i), 8192, 1⟩ else x.prdtEntry i
      buf := x.buf + BitVec.ofNat 64 (8192 * n)
      count := x.count - BitVec.ofNat 32 (16 * n) } := by
  induction n with
  | zero => simp
  | succ n ih =>
    rw [List.range_succ, List.foldl_append, ih, List.foldl_cons, List.foldl_nil]
    unfold Cut.step Cut.entry
    dsimp only
    rw [Cut.mk.injEq]
    refine ⟨?_, ?_, ?_⟩
    · funext i
      rcases Nat.lt_trichotomy i n with hi | rfl | hi
      · rw [Function.update_of_ne hi.ne, if_pos hi, if_pos (by omega)]
      · have hbytes : (8 : BitVec 22) * 1024 = 8192 := by decide
        rw [Function.update_self, if_pos (Nat.lt_succ_self i), hbytes]
      · rw [Function.update_of_ne hi.ne', if_neg (by omega), if_neg (by omega)]
    · have hword : (2 : Word64) * (4 * 1024) = BitVec.ofNat 64 8192 := by decide
      rw [Nat.mul_succ, BitVec.ofNat_add, ← BitVec.add_assoc, hword]
    · rw [Nat.mul_succ, BitVec.ofNat_add, ← BitVec.sub_sub]
      rfl

/-- The entries that are set for `m` whole regions and one behind them. -/
theorem cutBuffer_eq (hm : (BitVec.ofNat 16 (m + 1)).toNat = m + 1) (count : BitVec 32) :
    cutBuffer (BitVec.ofNat 16 (m + 1)) old buf count =
      { prdtEntry := fun i =>
          if i < m then ⟨buf + BitVec.ofNat 64 (8192 * i), 8192, 1⟩
          else if i = m then
            ⟨buf + BitVec.ofNat 64 (8192 * m), ((count - BitVec.ofNat 32 (16 * m)) <<< 9).setWidth 22, 1⟩
          else clearEntries (BitVec.ofNat 16 (m + 1)) old i
        buf := buf + BitVec.ofNat 64 (8192 * m)
        count := count - BitVec.ofNat 32 (16 * m) } := by
  unfold cutBuffer Cut.entry
  rw [hm, Nat.add_sub_cancel]
  dsimp only
  rw [foldl_step]
  dsimp only
  congr 1
  funext i
  rcases Nat.lt_trichotomy i m with hi | rfl | hi
  · rw [Function.update_of_ne hi.ne, if_pos hi, if_pos hi]
  · rw [Function.update_self, if_neg (Nat.lt_irrefl i), if_pos rfl]
  · rw [Function.update_of_ne hi.ne', if_neg (by omega), if_neg (by omega), if_neg (by omega)]

/-! ## The command -/

/-- The number of sectors in front of the last region. -/
def whole (c : BitVec 16) : ℕ := (c.toNat - 1) / 16

theorem whole_lt (c : BitVec 16) : whole c + 1 < 2 ^ 16 := by
  have := c.isLt
  unfold whole
  omega

/-- The header has the number of the whole regions and one more. -/
theorem prdtl_eq (hc : c ≠ 0) :
    ((c.setWidth 32 - 1) >>> 4).setWidth 16 + 1 = BitVec.ofNat 16 (whole c + 1) := by
  have hpos : 0 < c.toNat := Nat.pos_of_ne_zero fun h => hc (BitVec.eq_of_toNat_eq h)
  have hlt := c.isLt
  have hsub : (c.setWidth 32 - 1).toNat = c.toNat - 1 := by
    have hone : (1 : BitVec 32).toNat = 1 := rfl
    rw [BitVec.toNat_sub, BitVec.toNat_setWidth, hone]
    omega
  rw [BitVec.ofNat_add]
  congr 1
  apply BitVec.eq_of_toNat_eq
  rw [BitVec.toNat_setWidth, BitVec.toNat_ushiftRight, hsub, BitVec.toNat_ofNat, Nat.shiftRight_eq_div_pow]
  rfl

/-- The sectors of the last region. -/
theorem toNat_last (hc : c ≠ 0) :
    (c.setWidth 32 - BitVec.ofNat 32 (16 * whole c)).toNat = c.toNat - 16 * whole c ∧
      0 < c.toNat - 16 * whole c ∧ c.toNat - 16 * whole c ≤ 16 := by
  have hpos : 0 < c.toNat := Nat.pos_of_ne_zero fun h => hc (BitVec.eq_of_toNat_eq h)
  have hlt := c.isLt
  unfold whole
  refine ⟨?_, by omega, by omega⟩
  rw [BitVec.toNat_sub, BitVec.toNat_setWidth, BitVec.toNat_ofNat]
  omega

variable {startl starth : BitVec 32} {rf : CInt} {start : BitVec 48}

/-- The number of the entries. -/
theorem toNat_prdtl (hc : c ≠ 0) :
    (buildCommand startl starth (c.setWidth 32) buf rf old).header.prdtl.toNat = whole c + 1 := by
  have hprdtl : (buildCommand startl starth (c.setWidth 32) buf rf old).header.prdtl =
      BitVec.ofNat 16 (whole c + 1) := prdtl_eq hc
  rw [hprdtl, BitVec.toNat_ofNat, Nat.mod_eq_of_lt (whole_lt c)]

/-- The entries and the count of the FIS. -/
theorem buildCommand_eq (hc : c ≠ 0) :
    (buildCommand startl starth (c.setWidth 32) buf rf old).prdtEntry = (fun i =>
        if i < whole c then ⟨buf + BitVec.ofNat 64 (8192 * i), 8192, 1⟩
        else if i = whole c then
          ⟨buf + BitVec.ofNat 64 (8192 * whole c),
            ((c.setWidth 32 - BitVec.ofNat 32 (16 * whole c)) <<< 9).setWidth 22, 1⟩
        else clearEntries (BitVec.ofNat 16 (whole c + 1)) old i) ∧
      (buildCommand startl starth (c.setWidth 32) buf rf old).fis.count =
        (c.setWidth 32 - BitVec.ofNat 32 (16 * whole c)).setWidth 16 := by
  have hm : (BitVec.ofNat 16 (whole c + 1)).toNat = whole c + 1 := by
    rw [BitVec.toNat_ofNat, Nat.mod_eq_of_lt (whole_lt c)]
  unfold buildCommand
  dsimp only
  rw [prdtl_eq hc, cutBuffer_eq hm]
  exact ⟨rfl, rfl⟩

/-- The bytes of the last region. -/
theorem toNat_last_bytes (hc : c ≠ 0) :
    (((c.setWidth 32 - BitVec.ofNat 32 (16 * whole c)) <<< 9).setWidth 22 : BitVec 22).toNat =
      512 * (c.toNat - 16 * whole c) := by
  obtain ⟨hlast, hpos, hle⟩ := toNat_last hc
  rw [BitVec.toNat_setWidth, BitVec.toNat_shiftLeft, hlast, Nat.shiftLeft_eq]
  omega

/-- The regions: the whole ones, and the last one. -/
theorem regions_eq (hc : c ≠ 0) :
    (buildCommand startl starth (c.setWidth 32) buf rf old).regions =
      ((List.range (whole c)).map fun i => (buf + BitVec.ofNat 64 (8192 * i), 8192)) ++
        [(buf + BitVec.ofNat 64 (8192 * whole c), 512 * (c.toNat - 16 * whole c))] := by
  obtain ⟨hentries, -⟩ : (buildCommand startl starth (c.setWidth 32) buf rf old).prdtEntry = _ ∧ _ :=
    buildCommand_eq hc
  unfold Command.regions
  rw [toNat_prdtl hc, hentries, List.range_succ, List.map_append, List.map_singleton]
  dsimp only
  rw [if_neg (Nat.lt_irrefl _), if_pos rfl, toNat_last_bytes hc]
  congr 1
  refine List.map_congr_left fun i hi => ?_
  rw [if_pos (List.mem_range.mp hi)]
  rfl

/-- The regions tile the buffer. -/
theorem tiles_regions (hc : c ≠ 0) :
    Tiles buf (512 * c.toNat) (buildCommand startl starth (c.setWidth 32) buf rf old).regions := by
  obtain ⟨-, hpos, hle⟩ := toNat_last hc
  have htiles : Tiles buf (8192 * whole c + 512 * (c.toNat - 16 * whole c)) _ :=
    (tiles_range (a := buf) (n := whole c) (by decide : 0 < 8192)).concat (by omega)
  rw [regions_eq hc]
  have hsum : 512 * c.toNat = 8192 * whole c + 512 * (c.toNat - 16 * whole c) := by omega
  rw [hsum]
  exact htiles

/-- An entry that is set has bytes. -/
theorem entry_ne (a : Word64) {dbc : BitVec 22} : (⟨a, dbc, 1⟩ : PrdtEntry) ≠ nullEntry := fun h =>
  absurd (congrArg PrdtEntry.i h) (by decide : (1 : BitVec 1) ≠ 0)

/-- The bytes of the FIS are those of the first sector. -/
theorem lba_eq (count : BitVec 32) :
    (buildCommand (start.setWidth 32) ((start >>> 32).setWidth 32) count buf rf old).fis.lba =
      (List.range 6).map fun k => start.extractLsb' (8 * k) 8 := by
  have hlow : ∀ k ≤ 24, ((start.setWidth 32) >>> k).setWidth 8 = start.extractLsb' k 8 := fun k hk => by
    apply BitVec.eq_of_getLsbD_eq
    intro i hi
    simp only [BitVec.getLsbD_setWidth, BitVec.getLsbD_ushiftRight, BitVec.getLsbD_extractLsb']
    simp [hi, show k + i < 32 by omega]
  have hhigh : ∀ k ≤ 8, (((start >>> 32).setWidth 32) >>> k).setWidth 8 = start.extractLsb' (32 + k) 8 :=
    fun k hk => by
      apply BitVec.eq_of_getLsbD_eq
      intro i hi
      simp only [BitVec.getLsbD_setWidth, BitVec.getLsbD_ushiftRight, BitVec.getLsbD_extractLsb']
      simp [hi, show k + i < 32 by omega, Nat.add_assoc]
  have h0 := hlow 0 (by decide)
  have h4 := hhigh 0 (by decide)
  rw [BitVec.ushiftRight_zero] at h0 h4
  have h1 := hlow 8 (by decide)
  have h2 := hlow 16 (by decide)
  have h3 := hlow 24 (by decide)
  have h5 := hhigh 8 (by decide)
  unfold FisRegH2d.lba buildCommand
  dsimp only
  rw [h0, h1, h2, h3, h4, h5]
  rfl

/-- Every command tells where its sectors are. -/
theorem locates_buildCommand (hc : c ≠ 0) :
    Locates (buildCommand (start.setWidth 32) ((start >>> 32).setWidth 32) (c.setWidth 32) buf rf old) start
      (512 * c.toNat) buf := by
  have htiles : Tiles buf (512 * c.toNat) (buildCommand (start.setWidth 32) ((start >>> 32).setWidth 32)
      (c.setWidth 32) buf rf old).regions := tiles_regions hc
  have hlen : 512 * c.toNat ≤ 2 ^ 64 := by
    have := c.isLt
    omega
  refine ⟨htiles, fun x => (htiles.existsUnique hlen x).1, fun x => (htiles.existsUnique hlen x).2,
    fun i hi => ?_, lba_eq _⟩
  obtain ⟨hentries, -⟩ : (buildCommand (start.setWidth 32) ((start >>> 32).setWidth 32) (c.setWidth 32) buf
      rf old).prdtEntry = _ ∧ _ := buildCommand_eq hc
  rw [toNat_prdtl hc] at hi ⊢
  rw [hentries]
  dsimp only
  rcases Nat.lt_trichotomy i (whole c) with hlt | heq | hgt
  · rw [if_pos hlt]
    exact iff_of_true (entry_ne _) (by omega)
  · rw [if_neg (by omega), if_pos heq]
    exact iff_of_true (entry_ne _) (by omega)
  · have hclear : clearEntries (BitVec.ofNat 16 (whole c + 1)) old i = nullEntry := by
      unfold clearEntries
      rw [BitVec.toNat_ofNat, Nat.mod_eq_of_lt (whole_lt c), if_pos (by omega)]
    rw [if_neg (by omega), if_neg (by omega), hclear]
    exact iff_of_false (not_not_intro rfl) (by omega)

/-- The FIS has the number of the sectors of the last region. -/
theorem count_buildCommand (hc : c ≠ 0) :
    (buildCommand startl starth (c.setWidth 32) buf rf old).fis.count =
      (c.setWidth 32 - BitVec.ofNat 32 (16 * whole c)).setWidth 16 := (buildCommand_eq hc).2

/-- The FIS has the number of the sectors if there is one region. -/
theorem count_buildCommand_iff (hc : c ≠ 0) :
    (buildCommand startl starth (c.setWidth 32) buf rf old).fis.count = c ↔ c.toNat ≤ 16 := by
  obtain ⟨hlast, hpos, hle⟩ := toNat_last hc
  have hlt := c.isLt
  rw [count_buildCommand hc, ← BitVec.toNat_inj, BitVec.toNat_setWidth, hlast]
  have hwhole : whole c = (c.toNat - 1) / 16 := rfl
  omega

/-- The command that `read_write` builds for some sectors has regions that tile the buffer, their number,
and the first sector; and it has the number of the sectors exactly if there are at most 16 of them. -/
theorem readWrite_describes_iff (sact ci : BitVec 32) (tfd : ℕ → BitVec 32) (tables : ℕ → ℕ → PrdtEntry)
    (start : BitVec 48) (count : BitVec 16) (buf : Word64) (rf : CInt) (hcount : count ≠ 0) :
    ∀ r ∈ readWrite sact ci tfd tables (start.setWidth 32) ((start >>> 32).setWidth 32)
      (count.setWidth 32) buf rf,
      Locates r.command start (512 * count.toNat) buf ∧
        (Describes r.command start count buf ↔ count.toNat ≤ 16) := by
  intro r hr
  obtain ⟨slot, -, rfl⟩ := Option.map_eq_some_iff.mp hr
  have hlocates : Locates (buildCommand (start.setWidth 32) ((start >>> 32).setWidth 32)
      (count.setWidth 32) buf rf (tables slot)) start _ buf := locates_buildCommand hcount
  refine ⟨hlocates, fun h => (count_buildCommand_iff hcount).mp h.count, fun h => ⟨hlocates, ?_⟩⟩
  exact (count_buildCommand_iff hcount).mpr h

/-- A command to read 8 sectors, where all slots are free. -/
theorem readWrite_describes_eight :
    ∃ r ∈ readWrite 0 0 (fun _ => 0x50) (fun _ _ => nullEntry) ((5 : BitVec 48).setWidth 32)
      (((5 : BitVec 48) >>> 32).setWidth 32) ((8 : BitVec 16).setWidth 32) 0x70000 1,
      Describes r.command 5 8 0x70000 := by
  have hslot : findCmdslot 0 0 = some 0 := by decide
  obtain ⟨r, hr⟩ : ∃ r, readWrite 0 0 (fun _ => 0x50) (fun _ _ => nullEntry) ((5 : BitVec 48).setWidth 32)
      (((5 : BitVec 48) >>> 32).setWidth 32) ((8 : BitVec 16).setWidth 32) 0x70000 1 = some r := by
    unfold readWrite
    rw [hslot]
    exact ⟨_, rfl⟩
  exact ⟨r, hr, (readWrite_describes_iff 0 0 _ _ 5 8 0x70000 1 (by decide) r hr).2.mpr (by decide)⟩

/-- A command to read 17 sectors: the FIS has one. -/
theorem not_describes_seventeen :
    ∃ r ∈ readWrite 0 0 (fun _ => 0x50) (fun _ _ => nullEntry) ((5 : BitVec 48).setWidth 32)
      (((5 : BitVec 48) >>> 32).setWidth 32) ((17 : BitVec 16).setWidth 32) 0x70000 1,
      r.command.fis.count = 1 ∧ ¬ Describes r.command 5 17 0x70000 := by
  have hslot : findCmdslot 0 0 = some 0 := by decide
  have hc : (17 : BitVec 16) ≠ 0 := by decide
  unfold readWrite
  rw [hslot, Option.map_some]
  refine ⟨_, rfl, ?_, fun h => ?_⟩
  · rw [count_buildCommand hc]
    decide
  · exact absurd ((count_buildCommand_iff hc).mp h.count) (by decide)

end Nascent.Ahci
