import Nascent.Page.Model

/-!
# Addresses, frame numbers, and entries

The address arithmetic of `Page/Model.lean` in terms of frame numbers. `frameOf` is the frame
number of a physical address, or of a page-table entry, whose flags are in the bits below the page
size. All the ways in which the source computes it agree: `ScaleDown`, `SCLDN`,
`get_page_from_PA`, and the detour through the direct map.
-/

namespace Nascent

/-- The frame number of a physical address or of a page-table entry. -/
def frameOf (e : Word) : ℕ := (e >>> 12).toNat

theorem frameOf_eq_div (e : Word) : frameOf e = e.toNat / 4096 := by
  simp [frameOf, Nat.shiftRight_eq_div_pow]

theorem frameOf_lt (e : Word) : frameOf e < 2^52 := by
  rw [frameOf_eq_div]
  have := e.isLt
  omega

/-- `ScaleDown` clears the offset. -/
theorem toNat_scaleDown (a : Word) : (scaleDown a).toNat = a.toNat / 4096 * 4096 := by
  have h : (a % pageSize).toNat = a.toNat % 4096 := by rw [BitVec.toNat_umod]; rfl
  have hle : a % pageSize ≤ a := by rw [BitVec.le_def, h]; omega
  rw [scaleDown, BitVec.toNat_sub_of_le hle, h]
  omega

/-- `SCLDN` clears the offset. -/
theorem toNat_scldn (a : Word) : (scldn a).toNat = a.toNat / 4096 * 4096 := by
  have := a.isLt
  simp only [scldn, BitVec.toNat_shiftLeft, BitVec.toNat_ushiftRight, Nat.shiftRight_eq_div_pow,
    Nat.shiftLeft_eq]
  omega

/-- The two roundings of the source are the same. -/
theorem scldn_eq_scaleDown (a : Word) : scldn a = scaleDown a :=
  BitVec.eq_of_toNat_eq (by rw [toNat_scldn, toNat_scaleDown])

/-- `get_page_from_PA` is the frame number. -/
@[simp] theorem getPageFromPA_eq (e : Word) : getPageFromPA e = frameOf e := by
  have h : (pageSize : Word).toNat = 4096 := rfl
  rw [getPageFromPA, BitVec.toNat_udiv, toNat_scaleDown, h, frameOf_eq_div]
  omega

@[simp] theorem frameOf_scaleDown (e : Word) : frameOf (scaleDown e) = frameOf e := by
  rw [frameOf_eq_div, toNat_scaleDown, frameOf_eq_div]
  omega

@[simp] theorem frameOf_scldn (e : Word) : frameOf (scldn e) = frameOf e := by
  rw [scldn_eq_scaleDown, frameOf_scaleDown]

/-- The physical address of a frame, as a number. -/
theorem toNat_getPA {f : ℕ} (h : f < 2^52) : (getPA f).toNat = f * 4096 := by
  have h' : (pageSize : Word).toNat = 4096 := rfl
  rw [getPA, BitVec.toNat_mul, BitVec.toNat_ofNat, h']
  omega

@[simp] theorem frameOf_getPA {f : ℕ} (h : f < 2^52) : frameOf (getPA f) = f := by
  rw [frameOf_eq_div, toNat_getPA h]
  omega

/-- The start of an entry's frame is the frame's physical address. -/
theorem scaleDown_eq_getPA (e : Word) : scaleDown e = getPA (frameOf e) := by
  apply BitVec.eq_of_toNat_eq
  rw [toNat_scaleDown, toNat_getPA (frameOf_lt e), frameOf_eq_div]

@[simp] theorem scaleDown_getPA {f : ℕ} (h : f < 2^52) : scaleDown (getPA f) = getPA f := by
  rw [scaleDown_eq_getPA, frameOf_getPA h]

/-- The offset in a page is the remainder. -/
theorem toNat_and_pageOff (x : Word) : (x &&& 0xFFF).toNat = x.toNat % 4096 := by
  rw [BitVec.toNat_and]
  exact Nat.and_two_pow_sub_one_eq_mod _ 12

/-- The offset of a page below `2^19` is not cut off. -/
theorem toNat_pageOffset {i : ℕ} (hi : i < 2^19) : (pageOffset i).toNat = i * 4096 := by
  have hprod : (BitVec.ofNat 32 i * 4096).toNat = i * 4096 := by
    rw [BitVec.toNat_mul, BitVec.toNat_ofNat]
    show i % 2^32 * 4096 % 2^32 = _
    omega
  have hmsb : (BitVec.ofNat 32 i * 4096).msb = false := by
    rw [BitVec.msb_eq_false_iff_two_mul_lt, hprod]
    omega
  rw [pageOffset, BitVec.signExtend_eq_setWidth_of_msb_false hmsb, BitVec.toNat_setWidth, hprod]
  omega

/-- The offset of a page below `2^19` is its physical address. -/
theorem pageOffset_eq_getPA {f : ℕ} (hf : f < 2^19) : pageOffset f = getPA f :=
  BitVec.eq_of_toNat_eq (by rw [toNat_pageOffset hf, toNat_getPA (by omega)])

/-- The kernel address of a frame lies above `KERNBASE` by the physical one. -/
theorem convertVA_sub_kernBase (f : ℕ) : convertVA f - kernBase = getPA f := by
  rw [convertVA, getViraddr, BitVec.add_comm, BitVec.add_sub_cancel]

/-- The direct map takes the kernel address of a frame back to the frame. -/
@[simp] theorem kframe_convertVA {f : ℕ} (h : f < 2^52) : Mm.kframe (convertVA f) = f := by
  have : Mm.kframe (convertVA f) = frameOf (getPA f) := by
    rw [Mm.kframe, getPhyaddr, convertVA_sub_kernBase, frameOf]
  rw [this, frameOf_getPA h]

end Nascent
