import Nascent.Exec.Model

/-!
# The arguments of a program

`copy_arg_to_stack` of `src/sys/process.c` puts the arguments and the environment of a new program into
the page of its stack, downwards from the end of the page, and `_start` of `src/crt/crt1.c` reads them
there. The pointer is one to words of eight bytes: `user_stack - 0x8` leaves eight words, and a string of
the environment takes a word for each of its bytes, where an argument takes a byte.

The arguments arrive (`argv_arrives`). The vector of the environment lies behind the eight words that
follow the arguments, and `_start` takes it to lie behind the first of them: an environment arrives where
it is empty (`envp_arrives_iff`).
-/

namespace Nascent.Proc

open Bytes (Byte Block)
open Memory (Mem Word64 read write)
open Strings
open Tarfs (CInt len)

/-! ## The new program -/

/-- The `rsp` of the new program. -/
def userRsp (stackStart stackBase : Word64) : Word64 := ustack - (pageSize - (stackStart - stackBase))

/-- The memory that the new program sees: the page is mapped below `USTACK`, and the kernel's addresses
are mapped too. -/
def userMem (m : Mem) (stackBase : Word64) : Mem := fun a =>
  if (a - (ustack - pageSize)).toNat < 4096 then m (stackBase + (a - (ustack - pageSize))) else m a

/-- `_start`, up to the call of `main`: its arguments. The prologue has lowered `rsp` by a word. -/
def start (u : Mem) (rsp : Word64) : CInt × Word64 × Word64 :=
  let resp := rsp - 8
  let a : CInt := (read u (resp + 8)).setWidth 32
  (a, resp + 16, (a * 8 + 8).signExtend 64 + resp + 16)

section program

variable (m : Mem) (stackBase : Word64) (argv envp : Option (List (List Byte)))

/-- The memory of the new program. -/
def programMem : Mem := userMem (buildStack m stackBase argv envp).mem stackBase

/-- What the new program calls `main` with. -/
def mainArgs : CInt × Word64 × Word64 :=
  start (programMem m stackBase argv envp)
    (userRsp (buildStack m stackBase argv envp).userStack stackBase)

end program

/-! ## The array of arguments -/

/-- A row keeps what it has while later rows are filled. -/
theorem row_fillArgs_of_lt : ∀ {argv : List (List Byte)} {argc i : ℕ} {args : Block}, i < argc →
    ∀ j < 100, row (fillArgs argv argc args) i j = row args i j
  | [], _, _, _, _, _, _ => rfl
  | s :: argv, argc, i, args, hi, j, hj => by
    rw [fillArgs, row_fillArgs_of_lt (Nat.lt_succ_of_lt hi) j hj, row, strCopy, if_neg, row]
    omega

/-- Each row has its argument. -/
theorem isString_row : ∀ {argv : List (List Byte)} {argc : ℕ} {args : Block},
    (∀ s ∈ argv, s.length ≤ 99 ∧ (0 : Byte) ∉ s) → ∀ i (hi : i < argv.length),
    IsString (row (fillArgs argv argc args) (argc + i)) argv[i]
  | s :: argv, argc, args, h, 0, _ => by
    obtain ⟨⟨hlen, hs⟩, -⟩ := List.forall_mem_cons.mp h
    -- The first row is filled at once, and later rows are apart from it.
    have hrow : ∀ j ≤ s.length, row (fillArgs (s :: argv) argc args) (argc + 0) j = strOf s j := by
      intro j hj
      have hlater : row (fillArgs argv (argc + 1) (strCopy s args (100 * argc))) argc j =
          row (strCopy s args (100 * argc)) argc j :=
        row_fillArgs_of_lt (Nat.lt_succ_self argc) j (by omega)
      refine hlater.trans ?_
      rw [row, strCopy, if_pos (by omega), Nat.add_sub_cancel_left]
    exact isString_iff.mpr ⟨hrow, hs⟩
  | s :: argv, argc, args, h, i + 1, hi => by
    rw [fillArgs, show argc + (i + 1) = argc + 1 + i by omega]
    exact isString_row (List.forall_mem_cons.mp h).2 i (Nat.lt_of_succ_lt_succ hi)

/-! ## Stores -/

/-- Two stores share a byte. -/
def Overlap (st st' : Word64 × ℕ) : Prop :=
  ∃ x : Word64, (x - st.1).toNat < st.2 ∧ (x - st'.1).toNat < st'.2

/-- Stores at different offsets of a page share nothing. -/
theorem not_overlap {base : Word64} {o n o' n' : ℕ} (h : o + n ≤ o') (h' : o' + n' ≤ 4096) :
    ¬ Overlap (base + BitVec.ofNat 64 o, n) (base + BitVec.ofNat 64 o', n') := by
  rintro ⟨x, hx, hx'⟩
  obtain ⟨w, hw⟩ : ∃ w, w = BitVec.ofNat 64 o := ⟨_, rfl⟩
  obtain ⟨w', hw'⟩ : ∃ w', w' = BitVec.ofNat 64 o' := ⟨_, rfl⟩
  have ho : w.toNat = o := by rw [hw, BitVec.toNat_ofNat, Nat.mod_eq_of_lt (by omega)]
  have ho' : w'.toNat = o' := by rw [hw', BitVec.toNat_ofNat, Nat.mod_eq_of_lt (by omega)]
  rw [← hw] at hx
  rw [← hw'] at hx'
  bv_omega

/-- What is built lies in the page from an offset on, and the page is zero before it. -/
structure Built (base : Word64) (b : Build) (k : ℕ) : Prop where
  /-- The offset. -/
  userStack : b.userStack = base + BitVec.ofNat 64 k
  /-- It is in the page. -/
  le : k ≤ 4096
  /-- Nothing was stored before it. -/
  zero : ∀ i < k, strAt b.mem base i = 0
  /-- The stores are behind it. -/
  stores : ∀ st ∈ b.stores, ∃ o, st.1 = base + BitVec.ofNat 64 o ∧ k ≤ o ∧ o + st.2 ≤ 4096
  /-- They share nothing. -/
  apart : b.stores.Pairwise fun st st' => ¬ Overlap st st'

/-- Two memories have the same bytes in the page from an offset on. -/
def Same (base : Word64) (k : ℕ) (m m' : Mem) : Prop :=
  ∀ i, k ≤ i → i < 4096 → strAt m' base i = strAt m base i

theorem Same.refl {base : Word64} {k : ℕ} {m : Mem} : Same base k m m := fun _ _ _ => rfl

theorem Same.mono {base : Word64} {k k' : ℕ} {m m' : Mem} (h : Same base k m m') (hk : k ≤ k') :
    Same base k' m m' := fun i hi hlt => h i (hk.trans hi) hlt

theorem Same.trans {base : Word64} {k k' : ℕ} {m m' m'' : Mem} (h : Same base k m m')
    (h' : Same base k' m' m'') (hk : k' ≤ k) : Same base k m m'' :=
  fun i hi hlt => (h' i (hk.trans hi) hlt).trans (h i hi hlt)

namespace Built

variable {base : Word64} {b : Build} {k : ℕ} (h : Built base b k)

include h

theorem sub_eq {n : ℕ} (hn : n ≤ k) :
    b.userStack - BitVec.ofNat 64 n = base + BitVec.ofNat 64 (k - n) := by
  have hadd := add_ofNat_add base (k - n) n
  rw [Nat.sub_add_cancel hn] at hadd
  rw [h.userStack, ← hadd, BitVec.add_sub_cancel]

/-- Words are left out. -/
theorem skip {n : ℕ} (hn : n ≤ k) : Built base (b.skip n) (k - n) where
  userStack := h.sub_eq hn
  le := (Nat.sub_le _ _).trans h.le
  zero := fun i hi => h.zero i (by omega)
  stores := fun st hst => by
    obtain ⟨o, ho, hle, hend⟩ := h.stores st hst
    exact ⟨o, ho, by omega, hend⟩
  apart := h.apart

/-- Bytes are stored. -/
theorem store {s : Str} {n lowered : ℕ} (hn : n ≤ lowered) (hk : lowered ≤ k) :
    Built base (b.store s n lowered) (k - lowered) ∧ Same base k b.mem (b.store s n lowered).mem ∧
      ∀ j < n, strAt (b.store s n lowered).mem base (k - lowered + j) = s j := by
  have hle := h.le
  have hsub := h.sub_eq hk
  have hget : ∀ i < 4096, strAt (b.store s n lowered).mem base i =
      if k - lowered ≤ i ∧ i < k - lowered + n then s (i - (k - lowered)) else strAt b.mem base i := by
    intro i hi
    rw [Build.store, hsub, strAt_copied (by omega) (by omega)]
  refine ⟨⟨hsub, by omega, fun i hi => ?_, ?_, ?_⟩, fun i hi hlt => ?_, fun j hj => ?_⟩
  · rw [hget i (by omega), if_neg (by omega), h.zero i (by omega)]
  · refine List.forall_mem_cons.mpr ⟨⟨k - lowered, hsub, le_rfl, by omega⟩, fun st hst => ?_⟩
    obtain ⟨o, ho, hko, hend⟩ := h.stores st hst
    exact ⟨o, ho, by omega, hend⟩
  · refine List.pairwise_cons.mpr ⟨fun st hst => ?_, h.apart⟩
    obtain ⟨o, ho, hko, hend⟩ := h.stores st hst
    obtain ⟨a, c⟩ := st
    obtain rfl : a = _ := ho
    rw [hsub]
    exact not_overlap (by omega) hend
  · rw [hget i hlt, if_neg (by omega)]
  · rw [hget _ (by omega), if_pos (by omega), Nat.add_sub_cancel_left]

/-- Words are pushed. -/
theorem pushAll (ptrs : List Word64) (hk : 8 * ptrs.length ≤ k) :
    Built base (b.pushAll ptrs) (k - 8 * ptrs.length) ∧ Same base k b.mem (b.pushAll ptrs).mem ∧
      Memory.Holds (b.pushAll ptrs).mem (b.pushAll ptrs).userStack ptrs := by
  have hle := h.le
  induction ptrs with
  | nil => exact ⟨h, Same.refl, trivial⟩
  | cons p ptrs ih =>
    rw [List.length_cons] at hk
    obtain ⟨hbuilt, hsame, hholds⟩ := ih (by omega)
    have hpush := hbuilt.store (s := fun j => p.extractLsb' (8 * j) 8) (le_refl 8) (by omega)
    refine ⟨?_, hsame.trans hpush.2.1 (Nat.sub_le _ _), ?_⟩
    · rw [List.length_cons, Nat.mul_succ, ← Nat.sub_sub]
      exact hpush.1
    · exact hholds.push (by omega)

end Built

/-- A string lies in a part of the page. -/
def Placed (base : Word64) (m : Mem) (lo hi : ℕ) (ptr : Word64) (s : List Byte) : Prop :=
  ∃ o, ptr = base + BitVec.ofNat 64 o ∧ lo ≤ o ∧ o + s.length + 1 ≤ hi ∧
    ∀ j ≤ s.length, strAt m base (o + j) = strOf s j

/-- A string stays where it lies. -/
theorem Placed.mono {base : Word64} {m m' : Mem} {lo lo' hi hi' : ℕ} {ptr : Word64} {s : List Byte}
    (h : Placed base m lo hi ptr s) (hlo : lo' ≤ lo) (hhi : hi ≤ hi') (hend : hi ≤ 4096)
    (hsame : Same base lo m m') : Placed base m' lo' hi' ptr s := by
  obtain ⟨o, hptr, hle, hlt, hget⟩ := h
  exact ⟨o, hptr, by omega, by omega, fun j hj =>
    (hsame (o + j) (by omega) (by omega)).trans (hget j hj)⟩

/-- Strings are stored. -/
theorem Built.storeStrings {base : Word64} {b : Build} {k unit : ℕ} (h : Built base b k)
    (hunit : 0 < unit) : ∀ {ps : List Str} {ss : List (List Byte)}, List.Forall₂ IsString ps ss →
    stringBytes unit ss ≤ k →
    Built base (b.storeStrings unit ps).2 (k - stringBytes unit ss) ∧
      Same base k b.mem (b.storeStrings unit ps).2.mem ∧
      List.Forall₂ (Placed base (b.storeStrings unit ps).2.mem (k - stringBytes unit ss) k)
        (b.storeStrings unit ps).1 ss
  | [], [], _, _ => ⟨h, Same.refl, .nil⟩
  | p :: ps, s :: ss, .cons hp hps, hk => by
    have hle := h.le
    have hsum : stringBytes unit (s :: ss) = unit * (s.length + 1) + stringBytes unit ss := by
      rw [stringBytes, List.map_cons, List.sum_cons, stringBytes]
    have hpos : s.length + 1 ≤ unit * (s.length + 1) := Nat.le_mul_of_pos_left _ hunit
    rw [hsum] at hk ⊢
    obtain ⟨hbuilt, hsame, hplaced⟩ := h.storeStrings hunit hps (by omega)
    obtain ⟨hbuilt', hsame', hget⟩ := hbuilt.store (s := p) hpos (by omega)
    have hlen : len p = s.length := Tarfs.len_eq hp (by omega)
    have hoff : k - stringBytes unit ss - unit * (s.length + 1) =
        k - (unit * (s.length + 1) + stringBytes unit ss) := by omega
    rw [Build.storeStrings, hlen]
    rw [hoff] at hbuilt' hget
    refine ⟨hbuilt', hsame.trans hsame' (Nat.sub_le _ _), .cons ?_ ?_⟩
    · refine ⟨_, hbuilt'.userStack, le_rfl, by omega, fun j hj => ?_⟩
      rw [hget j (by omega)]
      exact (isString_iff.mp hp).1 j hj
    · exact hplaced.imp fun ptr s' h => h.mono (by omega) (le_refl k) hle hsame'

/-! ## The whole stack -/

/-- A page that `page_alloc` returns: a frame of the direct map, filled with zeros. -/
structure FreshPage (m : Mem) (stackBase : Word64) : Prop where
  /-- It is a frame. -/
  frame : ∃ f < 2 ^ 19, stackBase = convertVA f
  /-- It is filled with zeros. -/
  zero : ∀ i < 4096, strAt m stackBase i = 0

/-- The strings of the environment, as `copy_arg_to_stack` gets them. -/
theorem forall₂_strOf {ss : List (List Byte)} (h : ∀ s ∈ ss, (0 : Byte) ∉ s) :
    List.Forall₂ IsString (ss.map strOf) ss := by
  rw [List.forall₂_map_left_iff, List.forall₂_same]
  exact fun s hs => isString_strOf (h s hs)

/-- The rows of `args`, as `copy_arg_to_stack` gets them. -/
theorem forall₂_row {argv : List (List Byte)} (h : ∀ s ∈ argv, s.length ≤ 99 ∧ (0 : Byte) ∉ s) :
    List.Forall₂ IsString
      ((List.range argv.length).map (row (fillArgs argv 0 Bytes.zero))) argv := by
  refine List.forall₂_of_length_eq_of_get (by simp) fun i hi hi' => ?_
  have hrow : IsString (row (fillArgs argv 0 Bytes.zero) (0 + i)) argv[i] := isString_row h i hi'
  rw [Nat.zero_add] at hrow
  simpa using hrow

/-- What the stack has: the number of arguments and the pointers to them, then eight words of zeros. -/
theorem buildStack_spec {m : Mem} {stackBase : Word64} {argv envp : Option (List (List Byte))}
    (hpage : FreshPage m stackBase) (hpass : Passable (argv.getD []) (envp.getD [])) :
    ∃ k ptrs, Built stackBase (buildStack m stackBase argv envp) k ∧
      k + 8 + 8 * (argv.getD []).length + 64 ≤ 4096 ∧
      Memory.Holds (buildStack m stackBase argv envp).mem (stackBase + BitVec.ofNat 64 k)
        (BitVec.ofNat 64 (argv.getD []).length :: ptrs) ∧
      (∀ i < 64, strAt (buildStack m stackBase argv envp).mem stackBase
        (k + 8 + 8 * (argv.getD []).length + i) = 0) ∧
      List.Forall₂ (Placed stackBase (buildStack m stackBase argv envp).mem 0 4096) ptrs
        (argv.getD []) := by
  have hstart : Built stackBase ⟨stackBase + pageSize, m, []⟩ 4096 :=
    ⟨rfl, le_rfl, hpage.zero, fun _ h => absurd h List.not_mem_nil, .nil⟩
  have hfits := hpass.fits
  rw [stackBytes] at hfits
  have henvp : List.Forall₂ IsString ((envp.map fun e => e.map strOf).getD []) (envp.getD []) := by
    cases envp with
    | none => exact .nil
    | some e => exact forall₂_strOf hpass.envp_string
  have hargv := forall₂_row hpass.argv_string
  rw [buildStack, copyArgToStack]
  generalize argv.getD [] = as at *
  generalize envp.getD [] = es at *
  -- The strings.
  have h₀ := hstart.skip (n := 8 * 8) (by omega)
  obtain ⟨h₁, -, hes⟩ := h₀.storeStrings (show 0 < 8 by decide) henvp (by omega)
  generalize Build.storeStrings 8 _ _ = r₁ at *
  obtain ⟨argv1, b₁⟩ := r₁
  dsimp only at h₁ hes ⊢
  obtain ⟨h₂, -, has⟩ := h₁.storeStrings (show 0 < 1 by decide) hargv (by omega)
  generalize Build.storeStrings 1 _ _ = r₂ at *
  obtain ⟨ptrs, b₂⟩ := r₂
  have hlen₁ := hes.length_eq
  have hlen₂ := has.length_eq
  dsimp only at h₂ has hlen₁ hlen₂ ⊢
  -- The pointers to the environment.
  have h₃ := h₂.skip (n := 8 * 8) (by omega)
  obtain ⟨h₄, hsame₄, -⟩ := h₃.pushAll argv1 (by omega)
  -- The number of arguments and the pointers to them.
  have h₅ := h₄.skip (n := 8 * 8) (by omega)
  obtain ⟨h₆, hsame₆, hholds⟩ := h₅.pushAll (BitVec.ofNat 64 as.length :: ptrs)
    (by rw [List.length_cons]; omega)
  rw [h₆.userStack] at hholds
  rw [List.length_cons, hlen₂] at h₆ hholds
  refine ⟨_, ptrs, h₆, by omega, hholds, fun i hi => ?_, has.imp fun ptr s hs => ?_⟩
  · -- The words that were left out are still zero.
    refine (hsame₆ _ (by omega) (by omega)).trans (h₄.zero _ ?_)
    omega
  · exact hs.mono (Nat.zero_le _) (by omega) (by omega) 
      ((hsame₄.trans hsame₆ (by omega)).mono (Nat.sub_le _ _))

/-! ## The view of the program -/

/-- A vector of pointers to strings that ends with the null pointer. -/
structure IsVector (u : Mem) (p : Word64) (ss : List (List Byte)) : Prop where
  /-- The pointers. -/
  get : ∀ i (hi : i < ss.length), read u (p + BitVec.ofNat 64 (8 * i)) ≠ 0 ∧
    IsString (strAt u (read u (p + BitVec.ofNat 64 (8 * i)))) ss[i]
  /-- The end. -/
  null : read u (p + BitVec.ofNat 64 (8 * ss.length)) = 0

section view

variable {m : Mem} {stackBase : Word64}

/-- The page as the program sees it below `USTACK`. -/
theorem strAt_userMem {i : ℕ} (hi : i < 4096) :
    strAt (userMem m stackBase) (ustack - pageSize) i = strAt m stackBase i := by
  have hsub : ustack - pageSize + BitVec.ofNat 64 i - (ustack - pageSize) = BitVec.ofNat 64 i := by
    rw [BitVec.add_comm, BitVec.add_sub_cancel]
  have hlt : (BitVec.ofNat 64 i).toNat < 4096 := by
    rw [BitVec.toNat_ofNat]
    omega
  rw [strAt, userMem, hsub, if_pos hlt, strAt]

/-- A word of the page as the program sees it. -/
theorem read_userMem {i : ℕ} (hi : i + 8 ≤ 4096) :
    read (userMem m stackBase) (ustack - pageSize + BitVec.ofNat 64 i) =
      read m (stackBase + BitVec.ofNat 64 i) :=
  read_congr_strAt fun j hj => strAt_userMem (by omega)

/-- The direct map is far from the stack, and does not reach the null pointer. -/
theorem frame_far {i : ℕ} (hframe : ∃ f < 2 ^ 19, stackBase = convertVA f) (hi : i < 4096) :
    4096 ≤ (stackBase + BitVec.ofNat 64 i - (ustack - pageSize)).toNat ∧
      stackBase + BitVec.ofNat 64 i ≠ 0 := by
  obtain ⟨f, hf, rfl⟩ := hframe
  have hw : (BitVec.ofNat 64 f).toNat = f := by
    rw [BitVec.toNat_ofNat]
    omega
  have hi' : (BitVec.ofNat 64 i).toNat = i := by
    rw [BitVec.toNat_ofNat]
    omega
  rw [convertVA, getViraddr, getPA, kernBase, ustack, pageSize]
  generalize BitVec.ofNat 64 f = w at hw
  generalize BitVec.ofNat 64 i = w' at hi'
  constructor
  · bv_omega
  · bv_omega

/-- A byte of the page as the program sees it at the kernel's address. -/
theorem strAt_userMem_frame {i : ℕ} (hframe : ∃ f < 2 ^ 19, stackBase = convertVA f) (hi : i < 4096) :
    strAt (userMem m stackBase) stackBase i = strAt m stackBase i := by
  rw [strAt, userMem, if_neg (Nat.not_lt.mpr (frame_far hframe hi).1), strAt]

/-- The program finds its arguments from its `rsp` on. -/
theorem userRsp_eq {b : Build} {k : ℕ} (h : Built stackBase b k) :
    userRsp b.userStack stackBase = ustack - pageSize + BitVec.ofNat 64 k := by
  rw [userRsp, h.userStack, BitVec.add_comm, BitVec.add_sub_cancel]
  generalize BitVec.ofNat 64 k = w
  bv_omega

end view

/-- What `_start` calls `main` with: the vectors are behind the number of arguments, the second one a word
behind the end of the first. -/
theorem start_eq {u : Mem} {base : Word64} {k n : ℕ}
    (hargc : read u (base + BitVec.ofNat 64 k) = BitVec.ofNat 64 n) (hn : n ≤ 10) :
    start u (base + BitVec.ofNat 64 k) = (BitVec.ofNat 32 n, base + BitVec.ofNat 64 (k + 8),
      base + BitVec.ofNat 64 (k + 8 + 8 * (n + 1))) := by
  have hresp : base + BitVec.ofNat 64 k - 8 + 8 = base + BitVec.ofNat 64 k := BitVec.sub_add_cancel _ _
  have hwidth : (BitVec.ofNat 64 n).setWidth 32 = BitVec.ofNat 32 n := by
    apply BitVec.eq_of_toNat_eq
    rw [BitVec.toNat_setWidth, BitVec.toNat_ofNat, BitVec.toNat_ofNat]
    omega
  have hsign : ∀ n ≤ 10, (BitVec.ofNat 32 n * 8 + 8).signExtend 64 = BitVec.ofNat 64 (8 * (n + 1)) := by
    decide
  rw [start, hresp, hargc, hwidth, hsign n hn, ← add_ofNat_add, ← add_ofNat_add, ← add_ofNat_add]
  generalize BitVec.ofNat 64 (8 * (n + 1)) = x
  generalize base + BitVec.ofNat 64 k = rsp
  refine Prod.ext rfl (Prod.ext ?_ ?_)
  · bv_omega
  · bv_omega

section arrival

variable {m : Mem} {stackBase : Word64} {argv envp : Option (List (List Byte))}

/-- The words that `main` gets: the pointers to the arguments, and zeros behind them. -/
theorem mainArgs_spec (hpage : FreshPage m stackBase) (hpass : Passable (argv.getD []) (envp.getD [])) :
    ∃ p ptrs, mainArgs m stackBase argv envp =
        (BitVec.ofNat 32 (argv.getD []).length, p,
          p + BitVec.ofNat 64 (8 * ((argv.getD []).length + 1))) ∧
      List.Forall₂ (Placed stackBase (buildStack m stackBase argv envp).mem 0 4096) ptrs
        (argv.getD []) ∧
      (∀ i (hi : i < ptrs.length),
        read (programMem m stackBase argv envp) (p + BitVec.ofNat 64 (8 * i)) = ptrs[i]) ∧
      ∀ i < 8, read (programMem m stackBase argv envp)
        (p + BitVec.ofNat 64 (8 * ((argv.getD []).length + i))) = 0 := by
  obtain ⟨k, ptrs, hbuilt, hk, hholds, hzero, hplaced⟩ := buildStack_spec hpage hpass
  have hlen := hplaced.length_eq
  have hargc : read (programMem m stackBase argv envp) (ustack - pageSize + BitVec.ofNat 64 k) =
      BitVec.ofNat 64 (argv.getD []).length := by
    rw [programMem, read_userMem (by omega)]
    exact hholds.1
  refine ⟨ustack - pageSize + BitVec.ofNat 64 (k + 8), ptrs, ?_, hplaced, fun i hi => ?_,
    fun i hi => ?_⟩
  · rw [mainArgs, userRsp_eq hbuilt, start_eq hargc hpass.length_argv, add_ofNat_add]
  · have hget := hholds.get (i := i + 1) (Nat.succ_lt_succ hi)
    rw [add_ofNat_add, programMem, read_userMem (by omega)]
    rwa [add_ofNat_add, Nat.mul_succ, Nat.add_comm (8 * i), ← Nat.add_assoc] at hget
  · rw [add_ofNat_add, programMem, read_userMem (by omega)]
    refine read_of_zero fun j hj => ?_
    have hgap := hzero (8 * i + j) (by omega)
    rwa [← Nat.add_assoc, Nat.add_assoc (k + 8), ← Nat.mul_add] at hgap

/-- The arguments arrive: `main` gets their number and a vector of pointers to copies of them. No string
and no pointer on the stack shares a byte with another. -/
theorem argv_arrives (hpage : FreshPage m stackBase) (hpass : Passable (argv.getD []) (envp.getD [])) :
    (mainArgs m stackBase argv envp).1.toInt = (argv.getD []).length ∧
      IsVector (programMem m stackBase argv envp) (mainArgs m stackBase argv envp).2.1 (argv.getD []) ∧
      (buildStack m stackBase argv envp).stores.Pairwise fun st st' => ¬ Overlap st st' := by
  obtain ⟨_, _, hbuilt, -⟩ := buildStack_spec hpage hpass
  obtain ⟨p, ptrs, hmain, hplaced, hget, hzero⟩ := mainArgs_spec hpage hpass
  have hlen := hpass.length_argv
  rw [hmain]
  refine ⟨?_, ⟨fun i hi => ?_, hzero 0 (by omega)⟩, hbuilt.apart⟩
  · have hsmall : ∀ n ≤ 10, (BitVec.ofNat 32 n).toInt = n := by decide
    exact hsmall _ hlen
  · have hi' : i < ptrs.length := by rwa [hplaced.length_eq]
    obtain ⟨o, hptr, -, hend, hbytes⟩ := hplaced.get hi' hi
    have hptr : ptrs[i] = stackBase + BitVec.ofNat 64 o := hptr
    rw [hget i hi', hptr]
    refine ⟨(frame_far hpage.frame (by omega)).2, isString_iff.mpr ⟨fun j hj => ?_, ?_⟩⟩
    · have hj : j ≤ ((argv.getD []).get ⟨i, hi⟩).length := hj
      rw [strAt, add_ofNat_add]
      exact (strAt_userMem_frame hpage.frame (by omega)).trans (hbytes j hj)
    · exact (hpass.argv_string _ (List.getElem_mem hi)).2

/-- The vector of the environment that `main` gets starts with the null pointer. -/
theorem read_envp (hpage : FreshPage m stackBase) (hpass : Passable (argv.getD []) (envp.getD [])) :
    read (programMem m stackBase argv envp) (mainArgs m stackBase argv envp).2.2 = 0 := by
  obtain ⟨p, -, hmain, -, -, hzero⟩ := mainArgs_spec hpage hpass
  rw [hmain]
  exact hzero 1 (by omega)

/-- An environment with a string does not arrive. -/
theorem not_isVector_envp (hpage : FreshPage m stackBase)
    (hpass : Passable (argv.getD []) (envp.getD [])) (hne : envp.getD [] ≠ []) :
    ¬ IsVector (programMem m stackBase argv envp) (mainArgs m stackBase argv envp).2.2
      (envp.getD []) := by
  intro h
  have hfirst := (h.get 0 (List.length_pos_of_ne_nil hne)).1
  rw [Nat.mul_zero, BitVec.add_zero] at hfirst
  exact hfirst (read_envp hpage hpass)

/-- An environment arrives where it is empty. -/
theorem envp_arrives_iff (hpage : FreshPage m stackBase)
    (hpass : Passable (argv.getD []) (envp.getD [])) :
    IsVector (programMem m stackBase argv envp) (mainArgs m stackBase argv envp).2.2 (envp.getD []) ↔
      envp.getD [] = [] := by
  constructor
  · intro h
    by_contra hne
    exact not_isVector_envp hpage hpass hne h
  · intro hnil
    rw [hnil]
    refine ⟨fun i hi => absurd hi (Nat.not_lt_zero i), ?_⟩
    rw [List.length_nil, Nat.mul_zero, BitVec.add_zero]
    exact read_envp hpage hpass

end arrival

/-! ## A program with two arguments -/

/-- `{"/bin/test1", "3", 0}`. -/
def sampleArgv : List (List Byte) := [[47, 98, 105, 110, 47, 116, 101, 115, 116, 49], [51]]

/-- `{"A=1", 0}`. -/
def sampleEnvp : List (List Byte) := [[65, 61, 49]]

theorem passable_sample : Passable sampleArgv sampleEnvp where
  length_argv := by decide
  argv_string := by decide
  length_envp := by decide
  envp_string := by decide
  fits := by decide

theorem freshPage_zero : FreshPage (fun _ => 0) (convertVA 300) :=
  ⟨⟨300, by decide, rfl⟩, fun _ _ => rfl⟩

/-- The arguments of `mfork` arrive. -/
theorem argv_arrives_sample :
    FreshPage (fun _ => 0) (convertVA 300) ∧ Passable sampleArgv sampleEnvp ∧
      (mainArgs (fun _ => 0) (convertVA 300) (some sampleArgv) (some sampleEnvp)).1.toInt = 2 ∧
      IsVector (programMem (fun _ => 0) (convertVA 300) (some sampleArgv) (some sampleEnvp))
        (mainArgs (fun _ => 0) (convertVA 300) (some sampleArgv) (some sampleEnvp)).2.1 sampleArgv :=
  have h := argv_arrives freshPage_zero (show Passable ((some sampleArgv).getD []) ((some sampleEnvp).getD [])
    from passable_sample)
  ⟨freshPage_zero, passable_sample, h.1, h.2.1⟩

/-- With these arguments, the environment arrives if and only if there is none. -/
theorem envp_arrives_iff_sample :
    FreshPage (fun _ => 0) (convertVA 300) ∧ Passable sampleArgv sampleEnvp ∧
      (IsVector (programMem (fun _ => 0) (convertVA 300) (some sampleArgv) (some sampleEnvp))
        (mainArgs (fun _ => 0) (convertVA 300) (some sampleArgv) (some sampleEnvp)).2.2 sampleEnvp ↔
        sampleEnvp = []) :=
  ⟨freshPage_zero, passable_sample, envp_arrives_iff freshPage_zero
    (show Passable ((some sampleArgv).getD []) ((some sampleEnvp).getD []) from passable_sample)⟩

/-- A variable does not arrive. -/
theorem envp_lost : ¬ ∀ (m : Mem) (stackBase : Word64) (argv envp : List (List Byte)),
    FreshPage m stackBase → Passable argv envp →
    IsVector (programMem m stackBase (some argv) (some envp))
      (mainArgs m stackBase (some argv) (some envp)).2.2 envp := by
  intro h
  have hne : (some sampleEnvp).getD [] ≠ [] := by decide
  have hpass : Passable ((some sampleArgv).getD []) ((some sampleEnvp).getD []) := passable_sample
  exact not_isVector_envp freshPage_zero hpass hne
    (h _ _ _ _ freshPage_zero passable_sample)

end Nascent.Proc
