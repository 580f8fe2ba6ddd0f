import Nascent.Page.Boot

/-!
# Page tables

The model of `sys/virmem.c` and of `create_new_pml_table` of `sys/proc_mngr.c`: the four-level walk
of `get_pte_entry` and `get_mapping`, `set_mapping` with the tables it allocates on demand, the
teardown of `clear_mapping`, and the start of paging in `init_mem`. Tables are reached by their
addresses in the direct map, as in the source.

The four nested loops of `clear_mapping` are the same loop at four levels, so they are one
definition, `clearLoop`, over what is cleared below an entry.
-/

namespace Nascent

namespace Mm

/-- The entry has its present bit. -/
def present (e : Word) : Bool := e &&& 1 != 0

/-- `get_pte_entry`: the entry of the page of an address, or none where some level is not
present. -/
def getPteEntry (s : Mm) (pmlAddr viraddr : Word) : Option Word :=
  let pml4Id := (viraddr >>> 39) &&& 0x1FF
  let pdpteId := (viraddr >>> 30) &&& 0x1FF
  let pdeId := (viraddr >>> 21) &&& 0x1FF
  let pteId := (viraddr >>> 12) &&& 0x1FF
  let tmp := scldn pmlAddr
  if !present (s.kread (tmp + 8 * pml4Id)) then none else
  let pdpte := s.kread (tmp + 8 * pml4Id) + kernBase
  let tmp := scldn pdpte
  if !present (s.kread (tmp + 8 * pdpteId)) then none else
  let pde := s.kread (tmp + 8 * pdpteId) + kernBase
  let tmp := scldn pde
  if !present (s.kread (tmp + 8 * pdeId)) then none else
  let pte := s.kread (tmp + 8 * pdeId) + kernBase
  let tmp := scldn pte
  if !present (s.kread (tmp + 8 * pteId)) then none else
  some (s.kread (tmp + 8 * pteId))

/-- `get_mapping`: the physical address of a virtual one, without a look at the present bits. -/
def getMapping (s : Mm) (pmlAddr viraddr : Word) : Word :=
  let pml4Id := (viraddr >>> 39) &&& 0x1FF
  let pdpteId := (viraddr >>> 30) &&& 0x1FF
  let pdeId := (viraddr >>> 21) &&& 0x1FF
  let pteId := (viraddr >>> 12) &&& 0x1FF
  let offset := viraddr &&& 0xFFF
  let tmp := scldn pmlAddr
  let pdpte := s.kread (tmp + 8 * pml4Id) + kernBase
  let tmp := scldn pdpte
  let pde := s.kread (tmp + 8 * pdpteId) + kernBase
  let tmp := scldn pde
  let pte := s.kread (tmp + 8 * pdeId) + kernBase
  let tmp := scldn pte
  let pageAddr := s.kread (tmp + 8 * pteId)
  scldn pageAddr + offset

/-- `create_dir_table`: the physical address of the table that an entry points to, which is
allocated where the entry is not present. -/
def createDirTable (s : Mm) (virAddr : Word) : Option (Word × Mm) :=
  let phyAddr := s.kread virAddr
  if !present phyAddr then do
    let (newPhyAddr, s) ← s.fetchFreePage
    some (newPhyAddr, s.kwrite virAddr (newPhyAddr ||| 7))
  else
    some (scaleDown phyAddr, s)

/-- `set_mapping`. -/
def setMapping (s : Mm) (pml4Addr viraddr phyaddr flags : Word) : Option Mm := do
  let pml4Offset := (viraddr >>> 39) &&& 0x1FF
  let pdpteOffset := (viraddr >>> 30) &&& 0x1FF
  let pdeOffset := (viraddr >>> 21) &&& 0x1FF
  let pteOffset := (viraddr >>> 12) &&& 0x1FF
  let (pdptePhy, s) ← s.createDirTable (pml4Addr + 8 * pml4Offset)
  let (pdePhy, s) ← s.createDirTable (pdptePhy + kernBase + 8 * pdpteOffset)
  let (ptePhy, s) ← s.createDirTable (pdePhy + kernBase + 8 * pdeOffset)
  some (s.kwrite (ptePhy + kernBase + 8 * pteOffset) (phyaddr ||| flags))

/-- One entry of a table in `clear_mapping`: a present entry has what lies below it cleared, its
frame released, and itself zeroed. -/
def clearEntry (clearBelow : Word → Mm → Mm) (table : Word) (s : Mm) (i : ℕ) : Mm :=
  let slot := table + 8 * BitVec.ofNat 64 i
  if !present (s.kread slot) then
    s.kwrite slot 0
  else
    let s := clearBelow (scldn (s.kread slot + kernBase)) s
    let s := s.freePage (scldn (s.kread slot + kernBase))
    s.kwrite slot 0

/-- The loop of `clear_mapping` over the first `n` entries of a table. -/
def clearLoop (clearBelow : Word → Mm → Mm) (n : ℕ) (table : Word) (s : Mm) : Mm :=
  (List.range n).foldl (clearEntry clearBelow table) s

/-- The loop over `pte`, whose entries point to pages. -/
def clearPte : Word → Mm → Mm := clearLoop (fun _ s => s) 512

/-- The loop over `pde`. -/
def clearPde : Word → Mm → Mm := clearLoop clearPte 512

/-- The loop over `pdpte`. -/
def clearPdpte : Word → Mm → Mm := clearLoop clearPde 512

/-- `clear_mapping`: all entries of a PML4 but the last. -/
def clearMapping (s : Mm) (pml4Addr : Word) : Mm := clearLoop clearPdpte 511 (scldn pml4Addr) s

/-- `create_new_pml_table`: a PML4 with the kernel's last entry. -/
def createNewPmlTable (s : Mm) : Option (Word × Mm) := do
  let (pmlAddr, s) ← s.pageAlloc
  some (pmlAddr, s.kwrite (pmlAddr + 8 * 511) (s.kread (s.kpmlAddr + 8 * 511)))

/-- One page of `create_vir_phy_mapping`. -/
def mapDirect (pmlAddr : Word) (s : Mm) (cnt : ℕ) : Option Mm :=
  s.setMapping pmlAddr (kernBase + pageOffset cnt) (0 + pageOffset cnt) 7

/-- `create_vir_phy_mapping`: the direct map of all pages. -/
def createVirPhyMapping (s : Mm) (pmlAddr : Word) : Option Mm :=
  (List.range s.pageCount).foldlM (mapDirect pmlAddr) s

/-- `init_mem`, from the memory that the boot loader leaves. -/
def initMem (s : Mm) (physfree : Word) (smaps : List Smap) (memEnd : Word) : Option Mm := do
  let s := { s with freePageHead := none, freePageEnd := none }
  let s := s.createPageList physfree smaps memEnd
  let (page1, s) ← s.pageAlloc
  let s := { s with kpmlAddr := page1 }
  s.createVirPhyMapping s.kpmlAddr

end Mm

end Nascent
