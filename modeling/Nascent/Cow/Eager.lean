import Nascent.Cow.Model

/-!
# Processes that share nothing

The abstract system: every process has its own pages, a map from pages to contents, and
`fork_process` copies each present page of the VMAs. There are no frames, no counts, and no entries
here. The actions are those of `CowSys`, and a fault with error code 7 has nothing to do. The
accesses, and the fault of a page that is not present, are those of the source with the map of pages
in place of the page tables.
-/

namespace Nascent

open Bytes (Byte Block)

/-- The pages of a process. -/
abbrev Pages := VPage → Option Block

namespace Pages

/-- The byte at an address. -/
def readByte (m : Pages) (va : Word) : Option Byte := (m (vpage va)).map fun blk => blk (pageOff va)

/-- The pages with one byte set. -/
def writeByte (m : Pages) (va : Word) (b : Byte) : Option Pages :=
  (m (vpage va)).map fun blk =>
    Function.update m (vpage va) (some (Function.update blk (pageOff va) b))

/-- A copy from the archive. -/
def memcopyUser (tar : Word → Byte) (source destination : Word) (n : ℕ) (m : Pages) :
    Option Pages :=
  (List.range n).foldlM (fun m i =>
    writeByte m (destination + BitVec.ofNat 64 i) (tar (source + BitVec.ofNat 64 i))) m

/-- A page of its own with the contents `data`. -/
def mapFresh (m : Pages) (va : Word) (data : Block) : Pages :=
  Function.update m (vpage va) (some data)

/-- The fault of a page of a file. -/
def fileFault (tar : Word → Byte) (m : Pages) (faultingAddr : Word) (vma : Vma) : Option Pages :=
  let vmaStart := vma.startAddr
  let bssAddr := vmaStart + vma.pFilesz
  let sda := scaleDown faultingAddr
  let offset := sda - vmaStart
  let m := m.mapFresh sda Bytes.zero
  if sda < vmaStart ∧ sda + 4096 > bssAddr then
    m.memcopyUser tar vma.tarfsBase vmaStart vma.pFilesz.toNat
  else if sda ≤ vmaStart then
    let n := if vma.pFilesz < 4096 - vmaStart then vma.pFilesz else 4096 - vmaStart
    m.memcopyUser tar vma.tarfsBase vmaStart n.toNat
  else if sda + 4096 > bssAddr then
    m.memcopyUser tar (vma.tarfsBase + offset) sda (bssAddr - sda).toNat
  else
    m.memcopyUser tar (vma.tarfsBase + offset) sda 4096

/-- The fault of a page that is not present. -/
def pageFault (tar : Word → Byte) (m : Pages) (vmas : List Vma) (faultingAddr : Word) :
    Option Pages :=
  match checkVma vmas faultingAddr with
  | none => none
  | some vma =>
    if vma.vmtype = .text ∨ vma.vmtype = .data then
      if faultingAddr < vma.startAddr + vma.pFilesz then m.fileFault tar faultingAddr vma
      else some (m.mapFresh (scaleDown faultingAddr) Bytes.zero)
    else if vma.vmtype = .stack then some (m.mapFresh (scaleDown faultingAddr) Bytes.zero)
    else some m

/-- A load. -/
def load (tar : Word → Byte) (m : Pages) (vmas : List Vma) (va : Word) : Option (Byte × Pages) :=
  match m.readByte va with
  | some b => some (b, m)
  | none => do
    let m ← m.pageFault tar vmas va
    let b ← m.readByte va
    some (b, m)

/-- A store. -/
def store (tar : Word → Byte) (m : Pages) (vmas : List Vma) (va : Word) (b : Byte) : Option Pages :=
  match m.writeByte va b with
  | some m => some m
  | none => do
    let m ← m.pageFault tar vmas va
    m.writeByte va b

end Pages

/-- A process of the abstract system. -/
structure EagerProc where
  /-- Its pages. -/
  pages : Pages
  /-- Its VMAs. -/
  vmas : List Vma

/-- The child of `fork_process`: it has a copy of each present page of the VMAs. -/
def EagerProc.fork (p : EagerProc) : EagerProc :=
  ⟨fun v => if v ∈ vmaPages p.vmas then p.pages v else none, p.vmas⟩

/-- The processes of the abstract system. -/
abbrev EagerSys := List EagerProc

namespace EagerSys

/-- An operation on the pages of a process. -/
def onProc (s : EagerSys) (p : ℕ) (k : EagerProc → Option Pages) : Option EagerSys :=
  s[p]?.bind fun ep => (k ep).map fun m => s.set p { ep with pages := m }

/-- One action. -/
def step (tar : Word → Byte) (s : EagerSys) : CowOp → Option EagerSys
  | .spawn => some (s ++ [⟨fun _ => none, []⟩])
  | .addVma p v => s[p]?.bind fun ep =>
    if Distinct (ep.vmas ++ [v]) then some (s.set p { ep with vmas := ep.vmas ++ [v] }) else none
  | .dropVmas p => s[p]?.map fun ep => s.set p { ep with vmas := [] }
  | .mapFresh p va data => onProc s p fun ep =>
    if (ep.pages (vpage va)).isNone ∧ (vpage va).InUser then some (ep.pages.mapFresh va data)
    else none
  | .fork p => s[p]?.map fun ep => s ++ [ep.fork]
  | .fault p va => onProc s p fun ep =>
    if (vpage va).InUser ∧ (ep.pages (vpage va)).isSome then some ep.pages else none
  | .load p va => onProc s p fun ep =>
    if Covers ep.vmas va then (ep.pages.load tar ep.vmas va).map Prod.snd else none
  | .store p va b => onProc s p fun ep =>
    if Covers ep.vmas va then ep.pages.store tar ep.vmas va b else none
  | .clear p => onProc s p fun _ => some fun _ => none

/-- What a process reads at an address. -/
def read (s : EagerSys) (p : ℕ) (va : Word) : Option Byte :=
  s[p]?.bind fun ep => ep.pages.readByte va

end EagerSys

end Nascent
