import Mathlib.Data.Nat.Bitwise

/-!
Fixed-width integers of an LP64 C compiler, as `Nat` and `Int` with the
wrap-around written out, and the power-of-two alignment macros.

* `i32`, `i16`: conversion to `int` and `short`; `u64`: conversion to a 64-bit
  unsigned integer;
* `alignUp_pow`, `alignDown_pow`, `isAligned_pow`: on a power of two the mask
  arithmetic of the macros is division and remainder;
* `alignUp_eq_maskUp`, `isAligned_land`: what it is on any other number.
-/

namespace SpringOs.Lib.Word

variable {k a x : Nat}

/-- Conversion to `int`: 32 bits, two's complement. -/
def i32 (n : Int) : Int := (2147483648 + n) % 4294967296 - 2147483648

/-- Conversion to `short` and `int16_t`. -/
def i16 (n : Int) : Int := (32768 + n) % 65536 - 32768

/-- Conversion to `unsigned long`. -/
def u64 (n : Int) : Nat := (n % 18446744073709551616).toNat

theorem i32_of_lt {n : Int} (h : -2147483648 ≤ n) (h' : n < 2147483648) : i32 n = n := by
  unfold i32; omega

theorem i16_of_lt {n : Int} (h : -32768 ≤ n) (h' : n < 32768) : i16 n = n := by
  unfold i16; omega

theorem u64_natCast (n : Nat) : u64 n = n % 18446744073709551616 := by
  unfold u64; omega

theorem u64_lt (n : Int) : u64 n < 18446744073709551616 := by
  unfold u64; omega

/-! ## Alignment macros -/

/-- `align_up(addr, x)` on a 64-bit address. -/
def alignUp (addr x : Nat) : Nat :=
  ((BitVec.ofNat 64 addr + (BitVec.ofNat 64 x - 1#64)) &&& ~~~(BitVec.ofNat 64 x - 1#64)).toNat

/-- `align_down(addr, x)` on a 64-bit address. -/
def alignDown (addr x : Nat) : Nat :=
  (BitVec.ofNat 64 addr &&& ~~~(BitVec.ofNat 64 x - 1#64)).toNat

/-- `isaligned(addr, x)`. -/
def isAligned (addr x : Nat) : Bool :=
  BitVec.ofNat 64 addr &&& (BitVec.ofNat 64 x - 1#64) == 0#64

theorem mask_eq (k : Nat) : BitVec.ofNat 64 (2 ^ k) - 1#64 = BitVec.ofNat 64 (2 ^ k - 1) :=
  BitVec.ofNat_sub_ofNat_of_le (2 ^ k) 1 (by decide) Nat.one_le_two_pow

theorem mask_lt (hk : k < 64) : 2 ^ k - 1 < 2 ^ 64 := by
  have h := Nat.pow_le_pow_right (show 0 < 2 by decide) hk.le
  have := Nat.two_pow_pos k
  omega

theorem and_not_mask (ha : a < 2 ^ 64) :
    (BitVec.ofNat 64 a &&& ~~~(BitVec.ofNat 64 (2 ^ k) - 1#64)).toNat = a / 2 ^ k * 2 ^ k := by
  rw [mask_eq]
  apply Nat.eq_of_testBit_eq
  intro i
  rw [← Nat.shiftRight_eq_div_pow, ← Nat.shiftLeft_eq, Nat.testBit_shiftLeft,
    Nat.testBit_shiftRight]
  change BitVec.getLsbD _ i = _
  rw [BitVec.getLsbD_and, BitVec.getLsbD_not, BitVec.getLsbD_ofNat, BitVec.getLsbD_ofNat,
    Nat.testBit_two_pow_sub_one]
  by_cases hi : i < 64
  · by_cases hki : k ≤ i
    · simp [hi, hki, show ¬ i < k by omega]
    · simp [hi, hki, show i < k by omega]
  · -- beyond the word `a` itself has no bit left
    have hz : a.testBit i = false :=
      Nat.testBit_lt_two_pow (lt_of_lt_of_le ha (Nat.pow_le_pow_right (by decide) (by omega)))
    by_cases hki : k ≤ i
    · simp [hi, hki, hz]
    · simp [hi, hki]

theorem and_mask (hk : k < 64) (ha : a < 2 ^ 64) :
    (BitVec.ofNat 64 a &&& (BitVec.ofNat 64 (2 ^ k) - 1#64)).toNat = a % 2 ^ k := by
  rw [mask_eq, BitVec.toNat_and, BitVec.toNat_ofNat, BitVec.toNat_ofNat,
    Nat.mod_eq_of_lt ha, Nat.mod_eq_of_lt (mask_lt hk), Nat.and_two_pow_sub_one_eq_mod]

theorem alignUp_mod (a k : Nat) :
    alignUp a (2 ^ k) = (a + (2 ^ k - 1)) % 2 ^ 64 / 2 ^ k * 2 ^ k := by
  have h := and_not_mask (k := k) (Nat.mod_lt (a + (2 ^ k - 1)) (show 0 < 2 ^ 64 by decide))
  have hmod : BitVec.ofNat 64 ((a + (2 ^ k - 1)) % 2 ^ 64) = BitVec.ofNat 64 (a + (2 ^ k - 1)) := by
    apply BitVec.eq_of_toNat_eq
    simp
  rw [hmod, BitVec.ofNat_add, ← mask_eq] at h
  exact h

theorem alignUp_pow (ha : a + (2 ^ k - 1) < 2 ^ 64) :
    alignUp a (2 ^ k) = (a + (2 ^ k - 1)) / 2 ^ k * 2 ^ k := by
  rw [alignUp_mod, Nat.mod_eq_of_lt ha]

theorem alignDown_pow (ha : a < 2 ^ 64) : alignDown a (2 ^ k) = a / 2 ^ k * 2 ^ k := and_not_mask ha

theorem isAligned_pow (hk : k < 64) (ha : a < 2 ^ 64) :
    isAligned a (2 ^ k) = decide (a % 2 ^ k = 0) := by
  have h := and_mask hk ha
  unfold isAligned
  by_cases hz : a % 2 ^ k = 0
  · rw [hz] at h
    rw [BitVec.eq_of_toNat_eq (y := 0#64) h, hz]
    rfl
  · have hne : BitVec.ofNat 64 a &&& (BitVec.ofNat 64 (2 ^ k) - 1#64) ≠ 0#64 := by
      intro e
      rw [e] at h
      exact hz h.symm
    rw [beq_eq_false_iff_ne.mpr hne]
    simp only [hz, decide_false]

theorem alignUp_bounds (ha : a + (2 ^ k - 1) < 2 ^ 64) :
    a ≤ alignUp a (2 ^ k) ∧ alignUp a (2 ^ k) < a + 2 ^ k ∧ alignUp a (2 ^ k) % 2 ^ k = 0 := by
  have hpos := Nat.two_pow_pos k
  rw [alignUp_pow ha]
  have hdiv := Nat.div_add_mod (a + (2 ^ k - 1)) (2 ^ k)
  rw [Nat.mul_comm] at hdiv
  exact ⟨by omega, by omega, Nat.mul_mod_left _ _⟩

/-! ## Masks that are not all ones -/

theorem and_not_add_and {w : Nat} (a m : BitVec w) :
    (a &&& ~~~m).toNat + (a &&& m).toNat = a.toNat := by
  have hzero : (a &&& ~~~m) &&& (a &&& m) = 0#w := by
    ext i hi
    simp only [BitVec.getElem_and, BitVec.getElem_not, BitVec.getElem_zero]
    cases a[i] <;> cases m[i] <;> rfl
  have hsum : (a &&& ~~~m) + (a &&& m) = a := by
    rw [BitVec.add_eq_or_of_and_eq_zero _ _ hzero]
    ext i hi
    simp only [BitVec.getElem_or, BitVec.getElem_and, BitVec.getElem_not]
    cases a[i] <;> cases m[i] <;> rfl
  rw [← BitVec.toNat_add_of_and_eq_zero hzero, hsum]

theorem sub_one_toNat (hlo : 1 ≤ x) (hhi : x ≤ 2 ^ 64) :
    (BitVec.ofNat 64 x - 1#64).toNat = x - 1 := by
  rw [BitVec.ofNat_sub_ofNat_of_le x 1 (by decide) hlo, BitVec.toNat_ofNat]
  omega

/-- `align_up` without wrap-around, for any `x`. -/
def maskUp (a x : Nat) : Nat := a + (x - 1) - ((a + (x - 1)) &&& (x - 1))

theorem le_maskUp (a x : Nat) : a ≤ maskUp a x := by
  have hmask : (a + (x - 1)) &&& (x - 1) ≤ x - 1 := Nat.and_le_right
  unfold maskUp
  omega

theorem maskUp_le (a x : Nat) : maskUp a x ≤ a + (x - 1) := Nat.sub_le _ _

theorem alignUp_eq_maskUp (hlo : 1 ≤ x) (ha : a + (x - 1) < 2 ^ 64) : alignUp a x = maskUp a x := by
  have hmask := sub_one_toNat hlo (by omega)
  have hsum : (BitVec.ofNat 64 a + (BitVec.ofNat 64 x - 1#64)).toNat = a + (x - 1) := by
    rw [BitVec.toNat_add, hmask, BitVec.toNat_ofNat]
    omega
  have h := and_not_add_and (BitVec.ofNat 64 a + (BitVec.ofNat 64 x - 1#64))
    (BitVec.ofNat 64 x - 1#64)
  rw [BitVec.toNat_and (BitVec.ofNat 64 a + _) (BitVec.ofNat 64 x - 1#64), hsum, hmask] at h
  exact Nat.eq_sub_of_add_eq h

theorem isAligned_land (hlo : 1 ≤ x) (hx : x ≤ 2 ^ 64) (ha : a < 2 ^ 64) :
    isAligned a x = decide (a &&& (x - 1) = 0) := by
  have hmask := sub_one_toNat hlo hx
  rw [isAligned, Bool.eq_iff_iff, beq_iff_eq, decide_eq_true_iff, ← BitVec.toNat_inj,
    BitVec.toNat_and, hmask, BitVec.toNat_ofNat, Nat.mod_eq_of_lt ha, BitVec.toNat_ofNat]

/-- A small mask only sees the low bits. -/
theorem land_add_mul {p b m : Nat} (hp : p % 2 ^ k = 0) (hm : m < 2 ^ k) :
    (p + b) &&& m = b &&& m := by
  have hlow : ∀ c, c &&& m = c % 2 ^ k &&& m := by
    intro c
    have hlt : c &&& m < 2 ^ k := Nat.lt_of_le_of_lt Nat.and_le_right hm
    rw [← Nat.mod_eq_of_lt hlt, Nat.and_mod_two_pow, Nat.mod_eq_of_lt hm]
  rw [hlow (p + b), hlow b, Nat.add_mod, hp, Nat.zero_add, Nat.mod_mod]

theorem maskUp_add {p : Nat} (hp : p % 2 ^ k = 0) (hlo : 1 ≤ x) (hx : x ≤ 2 ^ k) :
    maskUp (p + a) x = p + maskUp a x := by
  have hmask : (a + (x - 1)) &&& (x - 1) ≤ a + (x - 1) := Nat.and_le_left
  rw [maskUp, maskUp, Nat.add_assoc, land_add_mul hp (by omega), Nat.add_sub_assoc hmask]

/-! The page-sized case, with the numbers spelled out. -/

theorem alignUp_page (ha : a + 4095 < 2 ^ 64) : alignUp a 4096 = (a + 4095) / 4096 * 4096 :=
  alignUp_pow (k := 12) ha

/-- A size that is not rounded to 0 has been rounded up without wrapping around. -/
theorem alignUp_page_of_pos (ha : a < 2 ^ 64) (hpos : 0 < alignUp a 4096) :
    alignUp a 4096 = (a + 4095) / 4096 * 4096 := by
  have hmod : alignUp a 4096 = (a + 4095) % 2 ^ 64 / 4096 * 4096 := alignUp_mod a 12
  rw [hmod] at hpos ⊢
  omega

theorem alignDown_page (ha : a < 2 ^ 64) : alignDown a 4096 = a / 4096 * 4096 :=
  alignDown_pow (k := 12) ha

theorem isAligned_page (ha : a < 2 ^ 64) : isAligned a 4096 = decide (a % 4096 = 0) :=
  isAligned_pow (k := 12) (by decide) ha

end SpringOs.Lib.Word
