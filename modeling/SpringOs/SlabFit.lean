import SpringOs.SlabAlloc

/-!
How many objects `caculate_nr_object` puts into a slab of any order, for objects of any size.

* `nrObjectLoop_largest`: the search from above ends at the largest number of objects that fits;
* `nrObjectIn_largest`: so does the function, wherever the pages end;
* `caculate_nr_object_largest_iff`: the bytes of the pages are computed as an `int`, so the
  function has its answer for the orders up to 18 and for no other.
-/

namespace SpringOs.SlabAlloc
open Lib.Word Kernel

/-! ## The layout -/

/-- The end of `n` objects behind the free list for them, in a slab at `slab`. -/
def layoutEnd (slab size n : Nat) : Nat := maskUp (slab + 64 + 2 * n) size + n * size

/-- The most objects that the space behind the header could hold: where the search starts. -/
def mostObjects (bytes size : Nat) : Nat := (bytes - 64) / size

structure NoWrap (slab bytes size : Nat) : Prop where
  pages : slab + bytes < 2 ^ 64
  aligned : ∀ n ≤ mostObjects bytes size, slab + 64 + 2 * n + (size - 1) < 2 ^ 64
  objects : ∀ n ≤ mostObjects bytes size, layoutEnd slab size n < 2 ^ 64

/-- `n` is the largest number of objects whose layout ends within the pages. -/
structure Largest (slab bytes size n : Nat) : Prop where
  pos : 0 < n
  fits : layoutEnd slab size n ≤ slab + bytes
  most : ∀ m, layoutEnd slab size m ≤ slab + bytes → m ≤ n

variable {slab bytes size : Nat}

/-- The end of the layout grows with the number of objects, whatever the alignment does. -/
theorem fits_le_most (hsize : 0 < size) {m : Nat} (h : layoutEnd slab size m ≤ slab + bytes) :
    m ≤ mostObjects bytes size := by
  have hstart := le_maskUp (slab + 64 + 2 * m) size
  unfold layoutEnd at h
  exact (Nat.le_div_iff_mul_le hsize).2 (by omega)

variable {n order : Nat}

theorem most_mul_le (bytes size : Nat) (h : n ≤ mostObjects bytes size) : n * size ≤ bytes - 64 :=
  (Nat.mul_le_mul_right size h).trans (Nat.div_mul_le_self _ _)

/-! ## The search -/

theorem objStart_eq (hsize : 0 < size) (hno : NoWrap slab bytes size)
    (hn : n ≤ mostObjects bytes size) :
    alignUp (u64 (((slab + 64 : Nat) : Int) + 2 * n)) size = maskUp (slab + 64 + 2 * n) size := by
  have hlt := hno.aligned n hn
  have hu : u64 (((slab + 64 : Nat) : Int) + 2 * n) = slab + 64 + 2 * n := by
    unfold u64
    omega
  rw [hu, alignUp_eq_maskUp hsize hlt]

theorem objEnd_eq (hno : NoWrap slab bytes size) (hbytes : bytes < 2 ^ 31)
    (hn : n ≤ mostObjects bytes size) :
    u64 ((maskUp (slab + 64 + 2 * n) size : Nat) + i32 ((n : Int) * size)) =
      layoutEnd slab size n := by
  have hmul := most_mul_le bytes size hn
  have hlt := hno.objects n hn
  unfold layoutEnd at hlt ⊢
  rw [← Int.natCast_mul, i32_of_lt (by omega) (by omega)]
  unfold u64
  omega

/-- The search goes down from `n`, so what it passes does not fit; something does, so it ends
in front of 0. -/
theorem nrObjectLoop_largest (hsize : 0 < size) (hno : NoWrap slab bytes size)
    (hbytes : bytes < 2 ^ 31) (fuel n : Nat) (hfuel : n < fuel) (hn : n ≤ mostObjects bytes size)
    (hex : ∃ m, 0 < m ∧ m ≤ n ∧ layoutEnd slab size m ≤ slab + bytes) :
    ∃ r : Nat, nrObjectLoop (slab + bytes) (slab + 64) size fuel n = some (r : Int) ∧ 0 < r ∧
      layoutEnd slab size r ≤ slab + bytes ∧
      ∀ m ≤ n, layoutEnd slab size m ≤ slab + bytes → m ≤ r := by
  induction fuel generalizing n with
  | zero => omega
  | succ fuel ih =>
    obtain ⟨m, hpos, hle, hfit⟩ := hex
    simp only [nrObjectLoop, objStart_eq hsize hno hn, objEnd_eq hno hbytes hn]
    split
    · rename_i hbig
      have hlt : m < n := by
        refine Nat.lt_of_le_of_ne hle ?_
        rintro rfl
        omega
      obtain ⟨k, rfl⟩ : ∃ k, n = k + 1 := ⟨n - 1, by omega⟩
      rw [show ((k + 1 : Nat) : Int) - 1 = (k : Nat) by omega]
      obtain ⟨r, hr, hrpos, hrfit, hrmost⟩ :=
        ih k (by omega) (by omega) ⟨m, hpos, by omega, hfit⟩
      refine ⟨r, hr, hrpos, hrfit, fun j hj hjfit => ?_⟩
      have hne : j ≠ k + 1 := by
        rintro rfl
        omega
      exact hrmost j (by omega) hjfit
    · rename_i hfits
      exact ⟨n, rfl, by omega, by omega, fun j hj _ => hj⟩

/-- **The number of objects**, for pages of fewer than 2 GiB. -/
theorem nrObjectIn_largest (hsize : 0 < size) (hno : NoWrap slab bytes size)
    (hbytes : bytes < 2 ^ 31) (hex : ∃ m, 0 < m ∧ layoutEnd slab size m ≤ slab + bytes) :
    ∃ n, nrObjectIn (slab + bytes) (slab + 64) size = .ok n ∧ Largest slab bytes size n := by
  obtain ⟨m, hpos, hfit⟩ := hex
  have hroom : 64 ≤ bytes := by
    have hstart := le_maskUp (slab + 64 + 2 * m) size
    unfold layoutEnd at hfit
    omega
  have hspace : u64 (((slab + bytes : Nat) : Int) - (slab + 64 : Nat)) = bytes - 64 := by
    unfold u64
    omega
  have hmost : mostObjects bytes size ≤ bytes - 64 := Nat.div_le_self _ _
  have hint : i32 ((bytes - 64) / size : Nat) = mostObjects bytes size := by
    change i32 (mostObjects bytes size) = _
    exact i32_of_lt (by omega) (by omega)
  obtain ⟨r, hr, hrpos, hrfit, hrmost⟩ := nrObjectLoop_largest hsize hno hbytes
    (mostObjects bytes size + 2) _ (by omega) (le_refl _) ⟨m, hpos, fits_le_most hsize hfit, hfit⟩
  refine ⟨r, ?_, hrpos, hrfit, fun j hj => hrmost j (fits_le_most hsize hj) hj⟩
  unfold nrObjectIn
  simp only [hspace, hint, Int.toNat_natCast, hr]
  rw [if_pos (by omega)]

/-! ## Orders -/

theorem pageBytes_ok (h : order ≤ 18) :
    pageBytes order = .ok (4096 * 2 ^ order : Nat) ∧ 4096 * 2 ^ order < 2 ^ 31 := by
  have hlt : 4096 * 2 ^ order < 2 ^ 31 := by
    have := Nat.pow_le_pow_right (show 0 < 2 by decide) h
    omega
  refine ⟨?_, hlt⟩
  rw [pageBytes, if_pos hlt]
  push_cast
  rfl

theorem pageBytes_overflow (h : 18 < order) : pageBytes order = .error .overflow := by
  have hge := Nat.pow_le_pow_right (show 0 < 2 by decide) h
  rw [pageBytes, if_neg (by omega)]

/-- The slab as `slab_refill` sets it up with the number it is given: the free list ends in
front of the objects, and these end within the pages. -/
def LaidApart (slab bytes size n : Nat) : Prop :=
  let s := freshSlab slab 0 size n
  s.freelist.length = n ∧ slab + 64 + 2 * n ≤ s.objStart ∧ s.objStart + n * size ≤ slab + bytes

theorem Largest.laidApart (hsize : 0 < size) (hno : NoWrap slab bytes size)
    (h : Largest slab bytes size n) : LaidApart slab bytes size n := by
  have hn := fits_le_most hsize h.fits
  have hlt := hno.aligned n hn
  have hfl : u64 ((slab : Int) + 64) = slab + 64 := by
    unfold u64
    omega
  have hstart : (freshSlab slab 0 size n).objStart = maskUp (slab + 64 + 2 * n) size := by
    unfold freshSlab
    rw [hfl]
    exact objStart_eq hsize hno hn
  refine ⟨?_, ?_, ?_⟩
  · simp [freshSlab]
  · rw [hstart]
    exact le_maskUp _ _
  · rw [hstart]
    exact h.fits

/-- **What `caculate_nr_object` computes.** Where an object fits and no address leaves the 64
bits, the function returns the largest number of objects that fit behind their free list, for
any alignment, exactly for the orders whose pages have fewer than 2 GiB. -/
theorem caculate_nr_object_largest_iff (slab order size : Nat) (hsize : 0 < size)
    (hno : NoWrap slab (4096 * 2 ^ order) size)
    (hex : ∃ m, 0 < m ∧ layoutEnd slab size m ≤ slab + 4096 * 2 ^ order) :
    (∃ n, caculateNrObject slab (u64 (slab + 64)) order size = .ok n ∧
      Largest slab (4096 * 2 ^ order) size n ∧ LaidApart slab (4096 * 2 ^ order) size n) ↔
    order ≤ 18 := by
  have hfl : u64 ((slab : Int) + 64) = slab + 64 := by
    have := hno.aligned 0 (Nat.zero_le _)
    unfold u64
    omega
  constructor
  · rintro ⟨n, hn, -⟩
    by_contra hlarge
    rw [caculateNrObject, pageBytes_overflow (by omega)] at hn
    cases hn
  · intro horder
    obtain ⟨hbytes, hlt⟩ := pageBytes_ok horder
    obtain ⟨n, hn, hlargest⟩ := nrObjectIn_largest hsize hno hlt hex
    refine ⟨n, ?_, hlargest, hlargest.laidApart hsize hno⟩
    have hend : u64 ((slab : Int) + (4096 * 2 ^ order : Nat)) = slab + 4096 * 2 ^ order := by
      have := hno.pages
      unfold u64
      omega
    rw [caculateNrObject, hbytes, hfl]
    change nrObjectIn (u64 _) _ _ = _
    rw [hend, hn]

/-- A page of 24-byte objects, a size that is no power of two. -/
theorem caculate_nr_object_largest_page :
    ∃ n, caculateNrObject 0x40000000 (u64 (0x40000000 + 64)) 0 24 = .ok n ∧
      Largest 0x40000000 (4096 * 2 ^ 0) 24 n ∧ LaidApart 0x40000000 (4096 * 2 ^ 0) 24 n := by
  refine (caculate_nr_object_largest_iff 0x40000000 0 24 (by decide)
    ⟨by decide, by decide +kernel, by decide +kernel⟩ ⟨1, by decide, by decide +kernel⟩).2
    (by decide)

/-- In 4 GiB of pages more than a million objects of 2048 bytes fit. The product is no `int`; with
the 0 that a wrapping product gives, the search ends at once with `-1` and the assertion fails. -/
theorem caculate_nr_object_order_20 :
    NoWrap 0x100000000 (4096 * 2 ^ 20) 2048 ∧
    layoutEnd 0x100000000 2048 2000000 ≤ 0x100000000 + 4096 * 2 ^ 20 ∧
    caculateNrObject 0x100000000 (u64 (0x100000000 + 64)) 20 2048 = .error .overflow ∧
    nrObjectIn (u64 (0x100000000 + i32 (4096 * 2 ^ 20))) (u64 (0x100000000 + 64)) 2048 =
      .error (.assertion .caculateNrObject) := by
  refine ⟨⟨by decide, fun n hn => ?_, fun n hn => ?_⟩, by decide +kernel, rfl, by decide +kernel⟩
  · have hmost : mostObjects (4096 * 2 ^ 20) 2048 < 2 ^ 31 := by decide
    omega
  · have hmost : mostObjects (4096 * 2 ^ 20) 2048 < 2 ^ 31 := by decide
    have hle := maskUp_le (0x100000000 + 64 + 2 * n) 2048
    unfold layoutEnd
    omega

end SpringOs.SlabAlloc
