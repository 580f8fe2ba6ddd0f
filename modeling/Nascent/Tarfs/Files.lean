import Nascent.Tarfs.Archive
import Nascent.Lib.Runs

/-!
# Open files

A task has ten descriptors. `open_s` takes the first one that is free and points it to the contents of
a file, `read_s` copies from there and moves on by the number of bytes requested, and `close_s` frees
the descriptor (`src/sys/tarfs.c`). After the last part of a file a descriptor points behind the file,
but then nothing is copied any more, so the reads of a descriptor give the file in order
(`reads_in_order`).
-/

namespace Nascent.Tarfs

open Nascent.Bytes (Byte)
open Nascent.Memory Nascent.Strings Nascent.Runs

/-- The number of descriptors of a task. -/
def maxFds : ℕ := 10

/-- What the file calls use of a descriptor. -/
structure Fd where
  /-- Whether the descriptor is in use. -/
  alloted : CInt
  /-- The size of the file. -/
  fileSz : CInt
  /-- The number of bytes that have been requested. -/
  numBytesRead : CInt
  /-- The address to read from. -/
  filePtr : Word64
  /-- The header of the last entry of a directory. -/
  lastMatchedHeader : Word64
  deriving Repr, DecidableEq

/-- The macro `MIN`, of two signed integers. -/
def minInt (a b : CInt) : CInt := if a.slt b then a else b

/-- The part of `read_s` on a descriptor that is in use: what it returns, the bytes that it copies to
the buffer and the descriptor after it. -/
def Fd.read (m : Mem) (x : Fd) (numBytes : CInt) : CInt × List Byte × Fd :=
  let size := minInt numBytes (x.fileSz - x.numBytesRead)
  if x.numBytesRead.slt x.fileSz then
    (size, (List.range (size.signExtend 64).toNat).map (strAt m x.filePtr), { x with
      filePtr := x.filePtr + numBytes.signExtend 64
      numBytesRead := x.numBytesRead + numBytes })
  else (0, [], x)

/-- The files of a task. -/
structure Files where
  /-- The descriptors. -/
  fdArray : ℕ → Fd
  /-- The current directory. -/
  cwd : List Byte

/-- The archive in the memory of the kernel, and the number of steps that a walk may take. -/
structure Tar where
  /-- The memory. -/
  mem : Mem
  /-- `_binary_tarfs_start`. -/
  start : Word64
  /-- `_binary_tarfs_end`. -/
  stop : Word64
  /-- The number of steps. -/
  fuel : ℕ

namespace Files

/-- The descriptors that `fetch_free_pcb` gives a task: the first three are in use. -/
def fresh (cwd : List Byte) : Files where
  fdArray i := ⟨if i < 3 then 1 else 0, 0, 0, 0, 0⟩
  cwd := cwd

variable (s : Files)

/-- The files with one descriptor changed. -/
def modify (fd : ℕ) (f : Fd → Fd) : Files :=
  { s with fdArray := Function.update s.fdArray fd (f (s.fdArray fd)) }

/-- `get_free_fd`, with the number of the descriptor, or nothing for -1. -/
def getFreeFd (filePtr : Word64) : Option (ℕ × Files) :=
  ((List.range maxFds).find? fun i => (s.fdArray i).alloted = 0).map fun i =>
    (i, s.modify i fun x => { x with
      alloted := 1, filePtr := filePtr, lastMatchedHeader := filePtr })

/-- The part of `open_s` that has found a header: out of descriptors, it returns 0. -/
def openEntry (m : Mem) (it : Word64) : CInt × Files :=
  match s.getFreeFd (it + 512) with
  | none => (0, s)
  | some (fd, s) =>
    (BitVec.ofNat 32 fd, s.modify fd fun x => { x with fileSz := convertOctInt m (it + sizeOffset) })

/-- `open_s`: what it returns and the files after it, or nothing where the path leaves its buffer or
the walk does not end. -/
def openS (tar : Tar) (dPath1 : List Byte) : Option (CInt × Files) :=
  (pathSanitize s.cwd dPath1).bind fun dPath2 =>
    let dPath := strOf dPath2.tail
    (fileExists tar.mem tar.start tar.stop tar.fuel dPath).bind fun exists? =>
      if exists? = 1 then
        (lookup (strCompare · dPath) tar.mem tar.stop tar.fuel tar.start).map fun
          | none => (-1, s)
          | some it => s.openEntry tar.mem it
      else some (-1, s)

/-- `file_des_validator`: 0 for a descriptor that is in use. -/
def fileDesValidator (fd : ℕ) : CInt :=
  if fd < maxFds then if (s.fdArray fd).alloted = 1 then 0 else 1 else 1

/-- `read_s`: what it returns, the bytes that it copies to the buffer and the files after it. A line
of the terminal, which is what descriptor 0 reads, comes from elsewhere. -/
def readS (m : Mem) (fd : ℕ) (numBytes : CInt) : CInt × List Byte × Files :=
  if fd = 0 ∨ s.fileDesValidator fd ≠ 0 then (0, [], s)
  else
    let r := (s.fdArray fd).read m numBytes
    (r.1, r.2.1, s.modify fd fun _ => r.2.2)

/-- `close_s`, or nothing where it writes behind the descriptors. -/
def closeS (fd : ℕ) : Option (CInt × Files) :=
  if fd < maxFds then
    some (0, s.modify fd fun x => { x with alloted := 0, fileSz := 0, numBytesRead := 0 })
  else none

end Files

/-- The calls of a task. -/
inductive FileOp
  /-- `open_s`. -/
  | openS (path : List Byte)
  /-- `read_s`. -/
  | readS (fd : ℕ) (numBytes : CInt)
  /-- `close_s`. -/
  | closeS (fd : ℕ)
  deriving Repr, DecidableEq

/-- The number of bytes that a call requests from a descriptor. -/
def FileOp.requested (fd : ℕ) : FileOp → ℕ
  | .readS fd' n => if fd' = fd then n.toNat else 0
  | _ => 0

/-- One call: what it returns, the bytes that it copies, and the files after it. -/
def Files.call (tar : Tar) (s : Files) : FileOp → Option (CInt × List Byte × Files)
  | .openS path => (s.openS tar path).map fun r => (r.1, [], r.2)
  | .readS fd numBytes => some (s.readS tar.mem fd numBytes)
  | .closeS fd => (s.closeS fd).map fun r => (r.1, [], r.2)

/-- One call, without its result. -/
def Files.step (tar : Tar) (s : Files) (op : FileOp) : Option Files := (s.call tar op).map (·.2.2)

/-! ## One descriptor -/

/-- The order of two integers that are not negative. -/
theorem slt_ofNat {a b : ℕ} (ha : a < 2 ^ 31) (hb : b < 2 ^ 31) :
    (BitVec.ofNat 32 a).slt (BitVec.ofNat 32 b) ↔ a < b := by
  have hint : ∀ k < 2 ^ 31, (BitVec.ofNat 32 k).toInt = k := by
    intro k hk
    rw [BitVec.toInt_eq_toNat_of_lt] <;> rw [BitVec.toNat_ofNat] <;> omega
  rw [BitVec.slt_iff_toInt_lt, hint a ha, hint b hb, Nat.cast_lt]

/-- A positive integer is the number that it stands for. -/
theorem eq_ofNat_of_pos {n : CInt} (h : 0 < n.toInt) :
    n = BitVec.ofNat 32 n.toNat ∧ 0 < n.toNat ∧ n.toNat < 2 ^ 31 := by
  rw [BitVec.toInt_eq_toNat_cond] at h
  refine ⟨BitVec.eq_of_toNat_eq (by simp), ?_⟩
  split_ifs at h with hlt
  · omega
  · have := n.isLt
    omega

/-- The bytes that lie in a memory from an address on. -/
theorem map_strAt_range {m : Mem} {ptr : Word64} {c : List Byte} (h : Lies m ptr c) {k n : ℕ}
    (hk : k + n ≤ c.length) :
    (List.range n).map (strAt m (ptr + BitVec.ofNat 64 k)) = (c.drop k).take n := by
  refine List.ext_getElem (by simp; omega) fun i hi _ => ?_
  rw [List.length_map, List.length_range] at hi
  rw [List.getElem_map, List.getElem_range, List.getElem_take, List.getElem_drop, strAt,
    add_ofNat_add, h.get (by omega)]

/-- A descriptor that was opened on a file of `size` bytes at `ptr`, and from which `total` bytes have
been requested since then. Requests do not count any more from the end of the file on. -/
structure Fd.At (x : Fd) (ptr : Word64) (size total : ℕ) : Prop where
  /-- The descriptor is in use. -/
  alloted : x.alloted = 1
  /-- The size of the file. -/
  fileSz : x.fileSz = BitVec.ofNat 32 size
  /-- The requests that have been counted: all of them, or enough for the whole file. -/
  count : ∃ k ≤ total, (k = total ∨ size ≤ k) ∧ x.numBytesRead = BitVec.ofNat 32 k ∧
    x.filePtr = ptr + BitVec.ofNat 64 k

section At

variable {x : Fd} {m : Mem} {ptr : Word64} {c : List Byte} {total : ℕ} {n : CInt}

/-- One read: it gives the part of the file that follows what has been requested, and counts. -/
theorem Fd.At.read (h : x.At ptr c.length total) (hlies : Lies m ptr c) (hc : c.length < 2 ^ 31)
    (hn : 0 < n.toInt) (hsum : total + n.toNat < 2 ^ 31) :
    (x.read m n).1 = BitVec.ofNat 32 (min n.toNat (c.length - total)) ∧
      (x.read m n).2.1 = (c.drop total).take n.toNat ∧
      (x.read m n).2.2.At ptr c.length (total + n.toNat) := by
  obtain ⟨k, hk, hcount, hread, hptr⟩ := h.count
  obtain ⟨hn, hpos, hlt⟩ := eq_ofNat_of_pos hn
  generalize n.toNat = j at hn hpos hlt hsum ⊢
  subst hn
  rw [Fd.read, h.fileSz, hread, hptr]
  by_cases hend : k < c.length
  · -- Not all of the file has been requested.
    obtain rfl : k = total := hcount.resolve_right (Nat.not_le.mpr hend)
    have hrest : BitVec.ofNat 32 c.length - BitVec.ofNat 32 k = BitVec.ofNat 32 (c.length - k) := by
      apply BitVec.eq_of_toNat_eq
      rw [BitVec.toNat_sub, BitVec.toNat_ofNat, BitVec.toNat_ofNat, BitVec.toNat_ofNat]
      omega
    have hmin : minInt (BitVec.ofNat 32 j) (BitVec.ofNat 32 c.length - BitVec.ofNat 32 k) =
        BitVec.ofNat 32 (min j (c.length - k)) := by
      rw [hrest, minInt]
      by_cases hj : j < c.length - k
      · rw [if_pos ((slt_ofNat hlt (by omega)).mpr hj), min_eq_left hj.le]
      · rw [if_neg (mt (slt_ofNat hlt (by omega)).mp hj), min_eq_right (Nat.not_lt.mp hj)]
    rw [if_pos ((slt_ofNat (by omega) hc).mpr hend), hmin]
    refine ⟨rfl, ?_, h.alloted, rfl, k + j, le_rfl, .inl rfl, ?_, ?_⟩
    · rw [signExtend_ofNat (by omega), BitVec.toNat_ofNat, Nat.mod_eq_of_lt (by omega),
        map_strAt_range hlies (by omega)]
      rcases Nat.le_total j (c.length - k) with hj | hj
      · rw [min_eq_left hj]
      · rw [min_eq_right hj, List.take_of_length_le (by simp), List.take_of_length_le (by simpa using hj)]
    · rw [← BitVec.ofNat_add]
    · rw [signExtend_ofNat hlt, add_ofNat_add]
  · -- The end of the file has been reached.
    have hend' : c.length ≤ k := Nat.not_lt.mp hend
    rw [if_neg (mt (slt_ofNat (by omega) hc).mp hend)]
    refine ⟨?_, ?_, h.alloted, h.fileSz, k, by omega, .inr hend', hread, hptr⟩
    · rw [Nat.sub_eq_zero_of_le (by omega), Nat.min_zero]
      rfl
    · rw [List.drop_eq_nil_of_le (by omega), List.take_nil]

end At

theorem Fd.read_alloted (x : Fd) (m : Mem) (n : CInt) : (x.read m n).2.2.alloted = x.alloted := by
  rw [Fd.read]
  split_ifs <;> rfl

namespace Files

variable {s s' : Files} {tar : Tar} {fd i : ℕ} {f : Fd → Fd} {m : Mem} {ptr : Word64}
  {size total : ℕ}

@[simp] theorem modify_fdArray_self : (s.modify fd f).fdArray fd = f (s.fdArray fd) :=
  Function.update_self ..

theorem modify_fdArray_of_ne (h : i ≠ fd) : (s.modify fd f).fdArray i = s.fdArray i :=
  Function.update_of_ne h ..

/-- What `open_s` does where it has found a header: it sets up the first descriptor that is free. -/
theorem openEntry_cases (m : Mem) (it : Word64) : s.openEntry m it = (0, s) ∨
    ∃ fd s', s.openEntry m it = (BitVec.ofNat 32 fd, s') ∧ fd < maxFds ∧
      (s.fdArray fd).alloted = 0 ∧ (∀ i ≠ fd, s'.fdArray i = s.fdArray i) ∧
      s'.fdArray fd = ⟨1, convertOctInt m (it + sizeOffset), (s.fdArray fd).numBytesRead, it + 512,
        it + 512⟩ := by
  rw [openEntry]
  cases hfree : s.getFreeFd (it + 512) with
  | none => exact .inl rfl
  | some x =>
    obtain ⟨fd, hfd, rfl⟩ := Option.map_eq_some_iff.mp hfree
    have hzero : (s.fdArray fd).alloted = 0 := by simpa using List.find?_some hfd
    refine .inr ⟨fd, _, rfl, List.mem_range.mp (List.mem_of_find?_eq_some hfd), hzero,
      fun i hi => ?_, ?_⟩
    · rw [modify_fdArray_of_ne hi, modify_fdArray_of_ne hi]
    · rw [modify_fdArray_self, modify_fdArray_self]

/-- `open_s` leaves the descriptors, or sets up one that was free. -/
theorem openS_cases {path : List Byte} {r : CInt} (h : s.openS tar path = some (r, s')) :
    s' = s ∨ ∃ fd, (s.fdArray fd).alloted = 0 ∧ (∀ i ≠ fd, s'.fdArray i = s.fdArray i) ∧
      (s'.fdArray fd).alloted = 1 := by
  unfold openS at h
  obtain ⟨p, -, h⟩ := Option.bind_eq_some_iff.mp h
  obtain ⟨b, -, h⟩ := Option.bind_eq_some_iff.mp h
  split_ifs at h with hb
  · obtain ⟨found, -, h⟩ := Option.map_eq_some_iff.mp h
    cases found with
    | none => exact .inl (congrArg Prod.snd h).symm
    | some it =>
      have hs' : (s.openEntry tar.mem it).2 = s' := congrArg Prod.snd h
      rcases openEntry_cases (s := s) tar.mem it with heq | ⟨fd, s₁, heq, -, h0, hother, hfd⟩
      · rw [heq] at hs'
        exact .inl hs'.symm
      · rw [heq] at hs'
        obtain rfl : s₁ = s' := hs'
        exact .inr ⟨fd, h0, hother, by rw [hfd]⟩
  · exact .inl (congrArg Prod.snd (Option.some.inj h)).symm

/-- A descriptor that is in use. -/
theorem fileDesValidator_eq_zero : s.fileDesValidator fd = 0 ↔
    fd < maxFds ∧ (s.fdArray fd).alloted = 1 := by
  unfold fileDesValidator
  split_ifs with h1 h2
  · exact iff_of_true rfl ⟨h1, h2⟩
  · exact iff_of_false (by decide) fun h => h2 h.2
  · exact iff_of_false (by decide) fun h => h1 h.1

/-- A read changes its own descriptor only, which must be in use. -/
theorem readS_cases (s : Files) (m : Mem) (fd : ℕ) (n : CInt) : (s.readS m fd n).2.2 = s ∨
    (s.fdArray fd).alloted = 1 ∧
      (s.readS m fd n).2.2 = s.modify fd fun x => (x.read m n).2.2 := by
  rw [readS]
  split_ifs with h
  · exact .inl rfl
  · rw [not_or, not_not] at h
    refine .inr ⟨(fileDesValidator_eq_zero.mp h.2).2, ?_⟩
    simp only [modify]

/-- The descriptors that are free are at the start of what they would read. -/
def Clean (s : Files) : Prop := ∀ i, (s.fdArray i).alloted = 0 → (s.fdArray i).numBytesRead = 0

theorem clean_fresh (cwd : List Byte) : (fresh cwd).Clean := fun _ _ => rfl

/-- Every call leaves the free descriptors clean. -/
theorem Clean.step {op : FileOp} (h : s.Clean) (hs : s.step tar op = some s') : s'.Clean := by
  obtain ⟨⟨r, out, s''⟩, hcall, rfl⟩ := Option.map_eq_some_iff.mp hs
  cases op with
  | openS path =>
    obtain ⟨⟨r', s₁⟩, hopen, heq⟩ := Option.map_eq_some_iff.mp hcall
    obtain rfl : s₁ = s'' := congrArg (·.2.2) heq
    rcases openS_cases hopen with rfl | ⟨fd, -, hother, h1⟩
    · exact h
    · intro i hi
      by_cases hfd : i = fd
      · rw [hfd, h1] at hi
        exact absurd hi (by decide)
      · rw [hother i hfd] at hi ⊢
        exact h i hi
  | readS fd n =>
    obtain rfl : (s.readS tar.mem fd n).2.2 = s'' := congrArg (·.2.2) (Option.some.inj hcall)
    rcases readS_cases s tar.mem fd n with hsame | ⟨h1, hsame⟩ <;> rw [hsame]
    · exact h
    · intro i hi
      by_cases hfd : i = fd
      · rw [hfd, modify_fdArray_self, Fd.read_alloted, h1] at hi
        exact absurd hi (by decide)
      · rw [modify_fdArray_of_ne hfd] at hi ⊢
        exact h i hi
  | closeS fd =>
    obtain ⟨⟨r', s₁⟩, hclose, heq⟩ := Option.map_eq_some_iff.mp hcall
    obtain rfl : s₁ = s'' := congrArg (·.2.2) heq
    unfold closeS at hclose
    split_ifs at hclose
    rw [← congrArg Prod.snd (Option.some.inj hclose)]
    intro i hi
    by_cases hfd : i = fd
    · rw [hfd, modify_fdArray_self]
    · rw [modify_fdArray_of_ne hfd] at hi ⊢
      exact h i hi

/-! ## Runs -/

/-- The calls other than a read or a close of a descriptor leave it, if it is in use. -/
theorem step_other {op : FileOp} (hs : s.step tar op = some s') (h1 : (s.fdArray fd).alloted = 1)
    (hclose : op ≠ .closeS fd) (hread : ∀ n, op ≠ .readS fd n) :
    s'.fdArray fd = s.fdArray fd := by
  obtain ⟨⟨r, out, s''⟩, hcall, rfl⟩ := Option.map_eq_some_iff.mp hs
  cases op with
  | openS path =>
    obtain ⟨⟨r', s₁⟩, hopen, heq⟩ := Option.map_eq_some_iff.mp hcall
    obtain rfl : s₁ = s'' := congrArg (·.2.2) heq
    rcases openS_cases hopen with rfl | ⟨fd', h0, hother, -⟩
    · rfl
    · refine hother fd ?_
      rintro rfl
      rw [h0] at h1
      exact absurd h1 (by decide)
  | readS fd' n =>
    obtain rfl : (s.readS tar.mem fd' n).2.2 = s'' := congrArg (·.2.2) (Option.some.inj hcall)
    rcases readS_cases s tar.mem fd' n with hsame | ⟨-, hsame⟩ <;> rw [hsame]
    refine modify_fdArray_of_ne ?_
    rintro rfl
    exact hread n rfl
  | closeS fd' =>
    obtain ⟨⟨r', s₁⟩, hcl, heq⟩ := Option.map_eq_some_iff.mp hcall
    obtain rfl : s₁ = s'' := congrArg (·.2.2) heq
    unfold closeS at hcl
    split_ifs at hcl
    have hne : fd ≠ fd' := by
      rintro rfl
      exact hclose rfl
    rw [← congrArg Prod.snd (Option.some.inj hcl), modify_fdArray_of_ne hne]

/-- A read of a descriptor that is in use. -/
theorem readS_eq (h0 : fd ≠ 0) (hlt : fd < maxFds) (h1 : (s.fdArray fd).alloted = 1) (n : CInt) :
    s.readS m fd n = (((s.fdArray fd).read m n).1, ((s.fdArray fd).read m n).2.1,
      s.modify fd fun x => (x.read m n).2.2) := by
  have hval := fileDesValidator_eq_zero.mpr ⟨hlt, h1⟩
  rw [readS, if_neg (not_or.mpr ⟨h0, not_not_intro hval⟩)]
  simp only [modify]

variable {c : List Byte}

/-- One call other than a close keeps track of a descriptor. -/
theorem at_step {op : FileOp} (hs : s.step tar op = some s') (h0 : fd ≠ 0) (hlt : fd < maxFds)
    (h : (s.fdArray fd).At ptr c.length total) (hlies : Lies tar.mem ptr c)
    (hc : c.length < 2 ^ 31) (hclose : op ≠ .closeS fd)
    (hpos : ∀ n, op = .readS fd n → 0 < n.toInt) (hsum : total + op.requested fd < 2 ^ 31) :
    (s'.fdArray fd).At ptr c.length (total + op.requested fd) := by
  by_cases hread : ∃ n, op = .readS fd n
  · obtain ⟨n, rfl⟩ := hread
    obtain ⟨⟨r, out, s''⟩, hcall, rfl⟩ := Option.map_eq_some_iff.mp hs
    have hs'' : (s.readS tar.mem fd n).2.2 = s'' := congrArg (·.2.2) (Option.some.inj hcall)
    rw [FileOp.requested, if_pos rfl] at hsum ⊢
    rw [← hs'', readS_eq h0 hlt h.alloted, modify_fdArray_self]
    exact (h.read hlies hc (hpos n rfl) hsum).2.2
  · have hnone : op.requested fd = 0 := by
      cases op with
      | openS path => rfl
      | closeS fd' => rfl
      | readS fd' n =>
        refine if_neg ?_
        rintro rfl
        exact hread ⟨n, rfl⟩
    rw [step_other hs h.alloted hclose fun n hn => hread ⟨n, hn⟩, hnone]
    exact h

/-- Any calls other than a close keep track of a descriptor. -/
theorem at_run {ops : List FileOp} (hrun : run (step tar) s ops = some s') (h0 : fd ≠ 0)
    (hlt : fd < maxFds) (h : (s.fdArray fd).At ptr c.length total) (hlies : Lies tar.mem ptr c)
    (hc : c.length < 2 ^ 31) (hclose : .closeS fd ∉ ops)
    (hpos : ∀ n, .readS fd n ∈ ops → 0 < n.toInt)
    (hsum : total + (ops.map (FileOp.requested fd)).sum < 2 ^ 31) :
    (s'.fdArray fd).At ptr c.length (total + (ops.map (FileOp.requested fd)).sum) := by
  induction ops generalizing s total with
  | nil =>
    obtain rfl := Option.some.inj hrun
    exact h
  | cons op ops ih =>
    obtain ⟨s₁, hs₁, hrun⟩ := Option.bind_eq_some_iff.mp hrun
    rw [List.map_cons, List.sum_cons, ← Nat.add_assoc] at hsum ⊢
    have h₁ := at_step hs₁ h0 hlt h hlies hc (fun heq => hclose (heq ▸ List.mem_cons_self))
      (fun n hn => hpos n (hn ▸ List.mem_cons_self)) (by omega)
    exact ih hrun h₁ (fun hm => hclose (List.mem_cons_of_mem _ hm))
      (fun n hn => hpos n (List.mem_cons_of_mem _ hn)) hsum

variable {es : List Entry} {e : Entry} {path p : List Byte}

/-- `open_s` on the name of a file finds the file, given enough steps. -/
theorem openS_found (s : Files) (hlies : Lies tar.mem tar.start (entryBytes es))
    (hstop : tar.start.toNat + (entryBytes es).length ≤ tar.stop.toNat)
    (hp : pathSanitize s.cwd path = some p) (hname : IsString (strOf p.tail) e.name)
    (hfind : es.find? (·.name = e.name) = some e) :
    ∃ it, Lies tar.mem it e.bytes ∧
      (s.openS tar path = none ∨ s.openS tar path = some (s.openEntry tar.mem it)) ∧
      (es.length ≤ tar.fuel → s.openS tar path = some (s.openEntry tar.mem it)) := by
  have hcmp := Image.compare_entry (m := tar.mem) es hname (by have := e.length_name; omega)
  obtain ⟨it, hit, hlook⟩ := lookup_found (strCompare1 · (strOf p.tail)) hlies hstop hcmp hfind
  have hopen : ∀ {r}, lookup (strCompare1 · (strOf p.tail)) tar.mem tar.stop tar.fuel tar.start = r →
      (r = none → s.openS tar path = none) ∧
        (r = some (some it) → s.openS tar path = some (s.openEntry tar.mem it)) := by
    intro r hr
    have hr' : lookup (strCompare · (strOf p.tail)) tar.mem tar.stop tar.fuel tar.start = r := hr
    refine ⟨?_, ?_⟩ <;> rintro rfl <;> simp only [openS, hp, Option.bind_some, fileExists, hr, hr']
      <;> rfl
  refine ⟨it, hit, ?_, fun hfuel => (hopen rfl).2 ?_⟩
  · cases hr : lookup (strCompare1 · (strOf p.tail)) tar.mem tar.stop tar.fuel tar.start with
    | none => exact .inl ((hopen hr).1 rfl)
    | some r =>
      -- More steps would give the same result.
      have hsame := (lookup_add hr es.length).symm.trans (Nat.add_comm .. ▸ hlook tar.fuel)
      exact .inr ((hopen hr).2 hsame)
  · rw [← Nat.add_sub_of_le hfuel]
    exact hlook _

/-- The descriptor that `open_s` returns is at the start of the file. -/
theorem at_openEntry {it : Word64} (hclean : s.Clean) (hit : Lies tar.mem it e.bytes)
    (hopen : s.openEntry tar.mem it = (BitVec.ofNat 32 fd, s')) (h0 : fd ≠ 0) (hlt : fd < maxFds) :
    (s'.fdArray fd).At (it + 512) e.contents.length 0 := by
  rw [maxFds] at hlt
  rcases openEntry_cases (s := s) tar.mem it with heq | ⟨fd', s₁, heq, hlt', hfree, -, hfd⟩
  · have hzero : BitVec.ofNat 32 0 = BitVec.ofNat 32 fd :=
      congrArg Prod.fst (heq.symm.trans hopen)
    have := congrArg BitVec.toNat hzero
    simp only [BitVec.toNat_ofNat] at this
    omega
  · have heq := heq.symm.trans hopen
    have hnum : BitVec.ofNat 32 fd' = BitVec.ofNat 32 fd := congrArg Prod.fst heq
    obtain rfl : s₁ = s' := congrArg Prod.snd heq
    have hsame : fd' = fd := by
      have := congrArg BitVec.toNat hnum
      simp only [BitVec.toNat_ofNat] at this
      rw [maxFds] at hlt'
      omega
    rw [hsame] at hfd hfree
    rw [hfd, Entry.convertOctInt_size hit, hclean fd hfree]
    exact ⟨rfl, rfl, 0, le_rfl, .inl rfl, rfl, by simp⟩

/-- The descriptor of a file that `open_s` has found by its name. -/
theorem exists_at (hclean : s.Clean) (hlies : Lies tar.mem tar.start (entryBytes es))
    (hstop : tar.start.toNat + (entryBytes es).length ≤ tar.stop.toNat)
    (hp : pathSanitize s.cwd path = some p) (hname : IsString (strOf p.tail) e.name)
    (hfind : es.find? (·.name = e.name) = some e)
    (hopen : s.openS tar path = some (BitVec.ofNat 32 fd, s')) (h0 : fd ≠ 0) (hlt : fd < maxFds) :
    ∃ ptr, Lies tar.mem ptr e.contents ∧ (s'.fdArray fd).At ptr e.contents.length 0 := by
  obtain ⟨it, hit, hfound, -⟩ := s.openS_found hlies hstop hp hname hfind
  have hentry : s.openEntry tar.mem it = (BitVec.ofNat 32 fd, s') := by
    rcases hfound with hfound | hfound <;> rw [hfound] at hopen
    · cases hopen
    · exact Option.some.inj hopen
  exact ⟨it + 512, Entry.lies_contents hit, at_openEntry hclean hit hentry h0 hlt⟩

end Files

/-- In any run of a task, a descriptor that was opened on a file, and not closed since then, gives the
part of the file that follows what has been requested since then, whatever happens to the other
descriptors. -/
theorem reads_in_order (tar : Tar) (es : List Entry)
    (hlies : Lies tar.mem tar.start (entryBytes es))
    (hstop : tar.start.toNat + (entryBytes es).length ≤ tar.stop.toNat)
    (cwd path p : List Byte) (before after : List FileOp) (s₁ s₂ s₃ : Files) (e : Entry) (fd : ℕ)
    (numBytes : CInt) (hbefore : run (Files.step tar) (Files.fresh cwd) before = some s₁)
    (hp : pathSanitize s₁.cwd path = some p) (hname : IsString (strOf p.tail) e.name)
    (hfind : es.find? (·.name = e.name) = some e)
    (hopen : s₁.openS tar path = some (BitVec.ofNat 32 fd, s₂)) (h0 : 1 ≤ fd) (hlt : fd < maxFds)
    (hafter : run (Files.step tar) s₂ after = some s₃) (hclose : .closeS fd ∉ after)
    (hpos : ∀ n, .readS fd n ∈ after → 0 < n.toInt) (hn : 0 < numBytes.toInt)
    (hsum : (after.map (FileOp.requested fd)).sum + numBytes.toNat < 2 ^ 31) :
    (s₃.readS tar.mem fd numBytes).1 = BitVec.ofNat 32
        (min numBytes.toNat (e.contents.length - (after.map (FileOp.requested fd)).sum)) ∧
      (s₃.readS tar.mem fd numBytes).2.1 =
        (e.contents.drop (after.map (FileOp.requested fd)).sum).take numBytes.toNat := by
  have hclean : s₁.Clean := (visits_of_run hbefore).invariant' (fun _ _ _ h hs => h.step hs)
    (Files.clean_fresh cwd)
  have hne : fd ≠ 0 := Nat.one_le_iff_ne_zero.mp h0
  have hc : e.contents.length < 2 ^ 31 := by
    have := e.length_contents
    omega
  obtain ⟨ptr, hcontents, hstart⟩ := Files.exists_at hclean hlies hstop hp hname hfind hopen hne hlt
  -- The descriptor is followed from the call of `open_s` on.
  have hat := Files.at_run hafter hne hlt hstart hcontents hc hclose hpos (by omega)
  rw [Nat.zero_add] at hat
  obtain ⟨hret, hout, -⟩ := hat.read hcontents hc hn hsum
  rw [Files.readS_eq hne hlt hat.alloted]
  exact ⟨hret, hout⟩

/-- The archive of one file of three bytes. -/
def sampleTar : Tar := ⟨sampleMem 3 (by decide), sampleStart, sampleStart + 1536, 1⟩

/-- The archive lies between the start and the stop of the walk. -/
theorem stop_sampleTar : sampleTar.start.toNat + (entryBytes [sampleEntry 3 (by decide)]).length ≤
    sampleTar.stop.toNat := by
  rw [length_sample]
  decide

theorem lies_sampleTar : Lies sampleTar.mem sampleTar.start (entryBytes [sampleEntry 3 (by decide)]) :=
  (sampleMem_image 3 (by decide) (by decide)).lies_entries

/-- `open_s` finds the file of the archive, whatever descriptors are in use. -/
theorem Files.openS_sample (s : Files) (path : List Byte) (hp : pathSanitize s.cwd path = some [47, 97]) :
    ∃ it, Lies sampleTar.mem it (sampleEntry 3 (by decide)).bytes ∧
      s.openS sampleTar path = some (s.openEntry sampleTar.mem it) := by
  have hname : IsString (strOf [97]) (sampleEntry 3 (by decide)).name := isString_strOf (by decide)
  obtain ⟨it, hit, -, hfound⟩ := s.openS_found lies_sampleTar stop_sampleTar hp hname (by simp)
  exact ⟨it, hit, hfound (by decide)⟩

/-- Two bytes of the file `/a` have been read, and then there is one more. -/
theorem reads_in_order_sample : ∃ s₂ s₃, (Files.fresh [47]).openS sampleTar [47, 97] = some (3, s₂) ∧
    run (Files.step sampleTar) s₂ [.readS 3 2] = some s₃ ∧
    (s₃.readS sampleTar.mem 3 2).1 = 1 ∧ (s₃.readS sampleTar.mem 3 2).2.1 = [120] := by
  have hp : pathSanitize (Files.fresh [47]).cwd [47, 97] = some [47, 97] := by decide
  have hname : IsString (strOf [97]) (sampleEntry 3 (by decide)).name := isString_strOf (by decide)
  have hfind : [sampleEntry 3 (by decide)].find? (·.name = (sampleEntry 3 (by decide)).name) =
      some (sampleEntry 3 (by decide)) := by simp
  obtain ⟨it, -, hopen⟩ := (Files.fresh [47]).openS_sample _ hp
  have hopen : (Files.fresh [47]).openS sampleTar [47, 97] =
      some (BitVec.ofNat 32 3, ((Files.fresh [47]).openEntry sampleTar.mem it).2) := hopen
  have hpos : ∀ n, FileOp.readS 3 n ∈ [FileOp.readS 3 2] → 0 < n.toInt := by
    intro n hn
    obtain rfl : n = 2 := by simpa using hn
    decide
  obtain ⟨hret, hout⟩ := reads_in_order sampleTar _ lies_sampleTar stop_sampleTar [47] [47, 97] [47, 97]
    [] [.readS 3 2] _ _ _ _ 3 2 rfl hp hname hfind hopen (by decide) (by decide) rfl (by decide)
    hpos (by decide) (by decide)
  exact ⟨_, _, hopen, rfl, hret, hout⟩

end Nascent.Tarfs
