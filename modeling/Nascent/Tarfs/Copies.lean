import Nascent.Tarfs.Opens

/-!
# What a read copies

`read_s` of `src/sys/tarfs.c` copies `MIN(num_bytes, num_bytes_remaining)` bytes, a signed number that
`memcopy` takes for an unsigned one, and adds the number of bytes requested to `num_bytes_read` and to the
address. The sum may exceed the size of the file, and then nothing is copied any more; but it may also wrap
around. `Tracked` follows a descriptor: either the counter is the distance from the start of the file, or it
has wrapped around and is so low that what remains of the file wraps around too (`Fd.Wrapped`). So a copy is
inside the file if and only if the number requested and the counter are not negative (`insideFile_iff`), and
this is so along whole runs (`copies_inside_iff`).
-/

namespace Nascent.Tarfs

open Nascent.Bytes (Byte)
open Nascent.Memory Nascent.Strings Nascent.Runs

/-! ## One descriptor -/

/-- A read of the descriptor copies, as the end of the file has not been reached. -/
def Fd.Copies (x : Fd) : Prop := x.numBytesRead.slt x.fileSz

instance (x : Fd) : Decidable x.Copies := inferInstanceAs (Decidable (_ = true))

/-- The argument `size` of `memcopy`. -/
def Fd.copyLength (x : Fd) (numBytes : CInt) : ℕ :=
  ((minInt numBytes (x.fileSz - x.numBytesRead)).signExtend 64).toNat

/-- What has been copied from a descriptor since it was opened. -/
structure Delivered where
  /-- The address of the contents of the file. -/
  start : Word64
  /-- The number of bytes. -/
  count : ℕ

/-- A copy is no longer than what has not been delivered, and its source is in the contents of the file. -/
def Fd.Inside (x : Fd) (d : Delivered) (numBytes : CInt) : Prop :=
  x.copyLength numBytes ≤ x.fileSz.toInt.toNat - d.count ∧
    ∃ k, x.filePtr = d.start + BitVec.ofNat 64 k ∧ k + x.copyLength numBytes ≤ x.fileSz.toInt.toNat

/-- The counter is the distance from the start of the file. -/
def Fd.Counts (x : Fd) (d : Delivered) : Prop :=
  ∃ k : ℕ, x.numBytesRead.toInt = k ∧ x.filePtr = d.start + BitVec.ofNat 64 k ∧
    (x.Copies → d.count = k)

/-- The counter has wrapped around at a read that began before the end of the file. -/
def Fd.Wrapped (x : Fd) : Prop :=
  x.numBytesRead.toInt < 0 ∧ x.numBytesRead.toInt + 2 ^ 31 < x.fileSz.toInt

/-- A descriptor in any run. -/
def Fd.Tracked (x : Fd) (d : Delivered) : Prop := x.Counts d ∨ x.Wrapped

section

variable {x : Fd} {d : Delivered} {n : CInt} {m : Mem}

theorem Fd.copies_iff : x.Copies ↔ x.numBytesRead.toInt < x.fileSz.toInt := BitVec.slt_iff_toInt_lt

/-- The minimum of two integers. -/
theorem toInt_minInt (a b : CInt) : (minInt a b).toInt = min a.toInt b.toInt := by
  unfold minInt
  split_ifs with h
  · exact (min_eq_left (BitVec.slt_iff_toInt_lt.mp h).le).symm
  · exact (min_eq_right (not_lt.mp fun hlt => h (BitVec.slt_iff_toInt_lt.mpr hlt))).symm

/-- A length that is not negative is what it stands for. -/
theorem toNat_signExtend_of_nonneg {a : CInt} (h : 0 ≤ a.toInt) :
    ((a.signExtend 64).toNat : ℤ) = a.toInt := by
  have hword := (a.signExtend 64).toInt_eq_toNat_cond
  have hsame := BitVec.toInt_signExtend_of_le (w := 32) (v := 64) (by decide) (x := a)
  split_ifs at hword <;> omega

/-- A negative length is longer than every file. -/
theorem le_toNat_signExtend_of_neg {a : CInt} (h : a.toInt < 0) : 2 ^ 31 ≤ (a.signExtend 64).toNat := by
  have hword := (a.signExtend 64).toInt_eq_toNat_cond
  have hsame := BitVec.toInt_signExtend_of_le (w := 32) (v := 64) (by decide) (x := a)
  split_ifs at hword <;> omega

/-- What a copy is long where the request and the counter are in order. -/
theorem Fd.copyLength_of_nonneg (hn : 0 ≤ n.toInt) (h0 : 0 ≤ x.numBytesRead.toInt) (h : x.Copies) :
    (x.copyLength n : ℤ) = min n.toInt (x.fileSz.toInt - x.numBytesRead.toInt) := by
  have hlt := copies_iff.mp h
  have hsize := x.fileSz.toInt_lt
  have hrest : (x.fileSz - x.numBytesRead).toInt = x.fileSz.toInt - x.numBytesRead.toInt := by
    rw [BitVec.toInt_sub]
    exact Int.bmod_eq_of_le (by omega) (by omega)
  have hmin : (minInt n (x.fileSz - x.numBytesRead)).toInt =
      min n.toInt (x.fileSz.toInt - x.numBytesRead.toInt) := by
    rw [toInt_minInt, hrest]
  rw [copyLength, toNat_signExtend_of_nonneg (by omega), hmin]

/-- A copy of a negative number of bytes is not inside the file. -/
theorem Fd.not_inside (h : (minInt n (x.fileSz - x.numBytesRead)).toInt < 0) : ¬ x.Inside d n := by
  rintro ⟨hle, -⟩
  have hlong : 2 ^ 31 ≤ x.copyLength n := le_toNat_signExtend_of_neg h
  have hsize := x.fileSz.toInt_lt
  omega

/-- A copy is inside the file if and only if neither the request nor the counter is negative. -/
theorem Fd.Tracked.insideFile_iff (h : x.Tracked d) (hcopies : x.Copies) :
    x.Inside d n ↔ 0 ≤ n.toInt ∧ 0 ≤ x.numBytesRead.toInt := by
  have hlt := copies_iff.mp hcopies
  have hsize := x.fileSz.toInt_lt
  rcases h with ⟨k, hk, hptr, hcount⟩ | ⟨hneg, hlow⟩
  · constructor
    · intro hinside
      refine ⟨?_, by omega⟩
      by_contra hn
      refine Fd.not_inside ?_ hinside
      rw [toInt_minInt]
      omega
    · rintro ⟨hn, h0⟩
      have hlen := copyLength_of_nonneg hn h0 hcopies
      have hk' := hcount hcopies
      refine ⟨by omega, k, hptr, by omega⟩
  · refine iff_of_false (Fd.not_inside ?_) fun h => by omega
    have hle := x.numBytesRead.le_toInt
    have hrest : (x.fileSz - x.numBytesRead).toInt < 0 := by
      rw [BitVec.toInt_sub]
      have hbmod := Int.bmod_def (x.fileSz.toInt - x.numBytesRead.toInt) (2 ^ 32)
      rw [hbmod]
      split_ifs <;> omega
    rw [toInt_minInt]
    omega

/-- The number of bytes that a read copies. -/
theorem Fd.length_read : (x.read m n).2.1.length = if x.Copies then x.copyLength n else 0 := by
  unfold read
  by_cases h : x.Copies
  · have hslt : x.numBytesRead.slt x.fileSz = true := h
    rw [if_pos h]
    dsimp only
    rw [if_pos hslt, List.length_map, List.length_range]
    rfl
  · have hslt : ¬ x.numBytesRead.slt x.fileSz = true := h
    rw [if_neg h]
    dsimp only
    rw [if_neg hslt]
    rfl

theorem Fd.read_of_copies (h : x.Copies) : (x.read m n).2.2 =
    { x with filePtr := x.filePtr + n.signExtend 64, numBytesRead := x.numBytesRead + n } := by
  have hslt : x.numBytesRead.slt x.fileSz = true := h
  unfold read
  dsimp only
  rw [if_pos hslt]

theorem Fd.read_of_not_copies (h : ¬ x.Copies) : (x.read m n).2.2 = x := by
  have hslt : ¬ x.numBytesRead.slt x.fileSz = true := h
  unfold read
  dsimp only
  rw [if_neg hslt]

/-- A read keeps track of the descriptor. -/
theorem Fd.Tracked.read (h : x.Tracked d) (hn : x.Copies → 0 ≤ n.toInt ∧ 0 ≤ x.numBytesRead.toInt) :
    (x.read m n).2.2.Tracked ⟨d.start, d.count + (x.read m n).2.1.length⟩ := by
  rw [Fd.length_read]
  by_cases hcopies : x.Copies
  · obtain ⟨hn, h0⟩ := hn hcopies
    have hlen := copyLength_of_nonneg hn h0 hcopies
    have hlt := copies_iff.mp hcopies
    have hsize := x.fileSz.toInt_lt
    have hnlt := n.toInt_lt
    rw [read_of_copies hcopies, if_pos hcopies]
    obtain ⟨k, hk, hptr, hcount⟩ : x.Counts d := h.resolve_right fun hw => by
      have := hw.1
      omega
    have hk' := hcount hcopies
    have hsum : (x.numBytesRead + n).toInt = (k + n.toInt).bmod (2 ^ 32) := by
      rw [BitVec.toInt_add, hk]
    rcases lt_or_ge (k + n.toInt) (2 ^ 31) with hfits | hwraps
    · -- The counter is still the distance from the start.
      rw [Int.bmod_eq_of_le (by omega) (by omega)] at hsum
      have hsign : n.signExtend 64 = BitVec.ofNat 64 n.toInt.toNat := by
        apply BitVec.eq_of_toNat_eq
        have := toNat_signExtend_of_nonneg hn
        rw [BitVec.toNat_ofNat]
        omega
      refine .inl ⟨k + n.toInt.toNat, ?_, ?_, fun hmore => ?_⟩
      · change (x.numBytesRead + n).toInt = _
        omega
      · change x.filePtr + n.signExtend 64 = _
        rw [hptr, hsign, add_ofNat_add]
      · have hmore : (x.numBytesRead + n).toInt < x.fileSz.toInt := copies_iff.mp hmore
        dsimp only
        omega
    · -- The counter wraps around.
      refine .inr ⟨?_, ?_⟩
      all_goals
        dsimp only
        rw [hsum, Int.bmod_def]
        split_ifs <;> omega
  · rw [read_of_not_copies hcopies, if_neg hcopies, Nat.add_zero]
    exact h

end

/-! ## Runs -/

/-- The files of a task, with what has been copied from each descriptor. -/
structure ReadSys where
  /-- The files. -/
  files : Files
  /-- What has been copied. -/
  delivered : ℕ → Delivered

namespace ReadSys

/-- A new task. -/
def start (cwd : List Byte) : ReadSys := ⟨Files.fresh cwd, fun _ => ⟨0, 0⟩⟩

/-- What has been copied after a call that copies `out`: nothing from a descriptor that was opened. -/
def deliver (s : ReadSys) (files : Files) (out : List Byte) : FileOp → ℕ → Delivered
  | .openS _ => fun fd =>
    if (s.files.fdArray fd).alloted = 0 ∧ (files.fdArray fd).alloted = 1 then
      ⟨(files.fdArray fd).filePtr, 0⟩
    else s.delivered fd
  | .readS fd _ =>
    Function.update s.delivered fd ⟨(s.delivered fd).start, (s.delivered fd).count + out.length⟩
  | .closeS _ => s.delivered

/-- One call. -/
def step (tar : Tar) (s : ReadSys) (op : FileOp) : Option ReadSys :=
  (s.files.call tar op).map fun r => ⟨r.2.2, s.deliver r.2.2 r.2.1 op⟩

/-- The copy of a read of an open descriptor, where there is one, is inside the file. -/
def CopiesInside (s : ReadSys) : FileOp → Prop
  | .readS fd n => fd ≠ 0 → s.files.fileDesValidator fd = 0 → (s.files.fdArray fd).Copies →
    (s.files.fdArray fd).Inside (s.delivered fd) n
  | _ => True

/-- A read of an open descriptor that has not reached the end of the file does not request a negative number
of bytes, and the counter has not become negative. -/
def RequestsNonneg (s : ReadSys) : FileOp → Prop
  | .readS fd n => fd ≠ 0 → s.files.fileDesValidator fd = 0 → (s.files.fdArray fd).Copies →
    0 ≤ n.toInt ∧ 0 ≤ (s.files.fdArray fd).numBytesRead.toInt
  | _ => True

/-- The descriptors in use are tracked. -/
structure AllTracked (s : ReadSys) : Prop where
  /-- The free descriptors are at the start of what they would read. -/
  clean : s.files.Clean
  /-- The others. -/
  tracked : ∀ fd, (s.files.fdArray fd).alloted = 1 → (s.files.fdArray fd).Tracked (s.delivered fd)

variable {s s' : ReadSys} {tar : Tar} {op : FileOp}

theorem deliver_openS (s : ReadSys) (files : Files) (out path : List Byte) (fd : ℕ) :
    s.deliver files out (.openS path) fd =
      if (s.files.fdArray fd).alloted = 0 ∧ (files.fdArray fd).alloted = 1 then
        ⟨(files.fdArray fd).filePtr, 0⟩
      else s.delivered fd := rfl

theorem allTracked_start (cwd : List Byte) : (start cwd).AllTracked :=
  ⟨Files.clean_fresh cwd, fun _ _ => .inl ⟨0, rfl, rfl, fun _ => rfl⟩⟩

/-- What `open_s` does to the descriptors. -/
theorem openS_fdArray {files files' : Files} {path : List Byte} {r : CInt}
    (h : files.openS tar path = some (r, files')) : files' = files ∨ ∃ fd it,
      (files.fdArray fd).alloted = 0 ∧ (∀ i ≠ fd, files'.fdArray i = files.fdArray i) ∧
      files'.fdArray fd = ⟨1, convertOctInt tar.mem (it + sizeOffset), (files.fdArray fd).numBytesRead,
        it + 512, it + 512⟩ := by
  rw [Files.openS_eq] at h
  obtain ⟨found, -, h⟩ := Option.map_eq_some_iff.mp h
  cases found with
  | none => exact .inl (congrArg Prod.snd h).symm
  | some it =>
    rw [Option.elim_some] at h
    rcases Files.openEntry_cases (s := files) tar.mem it with heq | ⟨fd, files₁, heq, -, h0, hother, hfd⟩
    · exact .inl (congrArg Prod.snd (heq.symm.trans h)).symm
    · have hfiles : files₁ = files' := congrArg Prod.snd (heq.symm.trans h)
      exact .inr ⟨fd, it, h0, hfiles ▸ hother, hfiles ▸ hfd⟩

/-- Every call of a run whose requests are in order keeps track of the descriptors. -/
theorem AllTracked.step (h : s.AllTracked) (hop : s.RequestsNonneg op) (hs : s.step tar op = some s') :
    s'.AllTracked := by
  obtain ⟨⟨r, out, files⟩, hcall, rfl⟩ := Option.map_eq_some_iff.mp hs
  have hstep : Files.step tar s.files op = some files := by
    rw [Files.step, hcall]
    rfl
  have hclean : files.Clean := h.clean.step hstep
  refine ⟨hclean, fun fd h1 => ?_⟩
  dsimp only at h1 ⊢
  cases op with
  | openS path =>
    obtain ⟨⟨r', files'⟩, hopen, heq⟩ := Option.map_eq_some_iff.mp hcall
    obtain rfl : files' = files := congrArg (·.2.2) heq
    have hkept : files'.fdArray fd = s.files.fdArray fd →
        (files'.fdArray fd).Tracked (s.deliver files' out (.openS path) fd) := by
      intro hsame
      rw [hsame] at h1 ⊢
      have hold : ¬ ((s.files.fdArray fd).alloted = 0 ∧ (files'.fdArray fd).alloted = 1) := by
        rw [h1]
        exact fun h => absurd h.1 (by decide)
      rw [deliver_openS, if_neg hold]
      exact h.tracked fd h1
    rcases openS_fdArray hopen with rfl | ⟨fd', it, h0, hother, hfd⟩
    · exact hkept rfl
    · by_cases hfd' : fd = fd'
      · -- The descriptor that was opened is at the start of the file.
        subst hfd'
        rw [deliver_openS, if_pos ⟨h0, by rw [hfd]⟩, hfd, h.clean fd h0]
        exact .inl ⟨0, rfl, (BitVec.add_zero _).symm, fun _ => rfl⟩
      · exact hkept (hother fd hfd')
  | readS fd' n =>
    obtain heq : s.files.readS tar.mem fd' n = (r, out, files) := Option.some.inj hcall
    unfold Files.readS at heq
    by_cases hval : fd' = 0 ∨ s.files.fileDesValidator fd' ≠ 0
    · rw [if_pos hval] at heq
      obtain ⟨-, hout, rfl⟩ := Prod.mk.inj heq |>.imp_right Prod.mk.inj
      have hsame : s.deliver s.files out (.readS fd' n) = s.delivered := by
        rw [deliver, ← hout, List.length_nil, Nat.add_zero]
        exact Function.update_eq_self _ _
      rw [hsame]
      exact h.tracked fd h1
    · rw [if_neg hval] at heq
      rw [not_or, not_not] at hval
      obtain ⟨-, rfl, rfl⟩ := Prod.mk.inj heq |>.imp_right Prod.mk.inj
      by_cases hfd : fd = fd'
      · subst hfd
        rw [Files.modify_fdArray_self, deliver, Function.update_self]
        exact (h.tracked fd (Files.fileDesValidator_eq_zero.mp hval.2).2).read (hop hval.1 hval.2)
      · rw [Files.modify_fdArray_of_ne hfd] at h1 ⊢
        rw [deliver, Function.update_of_ne hfd]
        exact h.tracked fd h1
  | closeS fd' =>
    obtain ⟨r', hclose, heq⟩ := Option.map_eq_some_iff.mp hcall
    obtain rfl : r'.2 = files := congrArg (·.2.2) heq
    by_cases hfd : fd = fd'
    · subst hfd
      unfold Files.closeS at hclose
      split_ifs at hclose
      rw [← Option.some.inj hclose] at h1
      dsimp only at h1
      rw [Files.modify_fdArray_self] at h1
      have hfree : (0 : CInt) = 1 := h1
      exact absurd hfree (by decide)
    · rw [OpenSys.closeS_other hclose fd hfd] at h1 ⊢
      exact h.tracked fd h1

/-- In a tracked state, the copy of a call is inside the file if and only if the request is in order. -/
theorem AllTracked.copiesInside_iff (h : s.AllTracked) : s.CopiesInside op ↔ s.RequestsNonneg op := by
  cases op with
  | readS fd n =>
    unfold CopiesInside RequestsNonneg
    refine forall_congr' fun h0 => forall_congr' fun hval => forall_congr' fun hcopies => ?_
    exact (h.tracked fd (Files.fileDesValidator_eq_zero.mp hval).2).insideFile_iff hcopies
  | openS path => exact Iff.rfl
  | closeS fd => exact Iff.rfl

end ReadSys

/-- In any run of a new task, every copy of a read is inside the file if and only if every read before the
end of a file requests a number of bytes that is not negative, with a counter that is not negative. -/
theorem copies_inside_iff (tar : Tar) (cwd : List Byte) (ops : List FileOp) :
    Along (ReadSys.step tar) ReadSys.CopiesInside (ReadSys.start cwd) ops ↔
      Along (ReadSys.step tar) ReadSys.RequestsNonneg (ReadSys.start cwd) ops :=
  along_iff (ReadSys.allTracked_start cwd) (fun _ _ h => h.copiesInside_iff)
    fun _ _ _ h hop hs => h.step hop hs

/-- A read of -1 bytes of the file `/a`, which has three, copies 2^64 - 1 bytes. -/
theorem read_negative_leaves_file : ∃ s, run (ReadSys.step sampleTar) (ReadSys.start [47]) [.openS [47, 97]] =
      some s ∧ (s.files.fdArray 3).copyLength (-1) = 2 ^ 64 - 1 ∧
    ¬ Along (ReadSys.step sampleTar) ReadSys.CopiesInside (ReadSys.start [47])
      [.openS [47, 97], .readS 3 (-1)] := by
  obtain ⟨it, hit, hopen⟩ := (Files.fresh [47]).openS_sample [47, 97] (by decide)
  have hopen : (Files.fresh [47]).openS sampleTar [47, 97] =
      some (BitVec.ofNat 32 3, ((Files.fresh [47]).openEntry sampleTar.mem it).2) := hopen
  have hat : (((Files.fresh [47]).openEntry sampleTar.mem it).2.fdArray 3).At (it + 512) 3 0 :=
    Files.at_openEntry (Files.clean_fresh [47]) hit rfl (by decide) (by decide)
  generalize ((Files.fresh [47]).openEntry sampleTar.mem it).2 = files at hopen hat
  have hcall : Files.call sampleTar (Files.fresh [47]) (.openS [47, 97]) = some (3, [], files) := by
    rw [Files.call, hopen]
    rfl
  have hstep : ∃ s, ReadSys.step sampleTar (ReadSys.start [47]) (.openS [47, 97]) = some s ∧
      s.files = files := by
    refine ⟨⟨files, (ReadSys.start [47]).deliver files [] (.openS [47, 97])⟩, ?_, rfl⟩
    rw [ReadSys.step]
    exact congrArg (Option.map _) hcall
  obtain ⟨s, hstep, rfl⟩ := hstep
  obtain ⟨k, hk, -, hread, -⟩ := hat.count
  obtain rfl : k = 0 := Nat.le_zero.mp hk
  refine ⟨s, by rw [run_cons, hstep]; rfl, ?_, fun hinside => ?_⟩
  · rw [Fd.copyLength, hat.fileSz, hread]
    decide
  · -- The minimum is -1.
    have hcopy := (hinside.2 s hstep).1 (by decide) (Files.fileDesValidator_eq_zero.mpr ⟨by decide, hat.alloted⟩)
      (by rw [Fd.Copies, hat.fileSz, hread]; decide)
    refine Fd.not_inside ?_ hcopy
    rw [hat.fileSz, hread]
    decide

end Nascent.Tarfs
