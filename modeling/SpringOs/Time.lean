import SpringOs.Lib.Numeral

/-!
`src/math.c` and `inc/time.h`: a product of 96 bits divided in two steps, and the conversions
between nanoseconds and ticks of the timer that rest on it.

* `quotient_digits`: the two steps are long division with digits of 32 bits;
* `rh_toNat`, `lowDividend_toNat`: the values in between, which all fit into 64 bits;
* `muldiv64_toNat`: the result is the quotient, where it fits;
* `ns2tick_toNat`, `tick2ns_toNat`: the conversions;
* `muldiv64_exact`: a time converted to ticks and back is off by less than a tick.
-/

namespace SpringOs.Time
open Lib.Numeral

/-! ## The code -/

/-- `u.l.low` and `u.l.high` of the union. -/
def low (ll : BitVec 64) : BitVec 32 := ll.setWidth 32
def high (ll : BitVec 64) : BitVec 32 := (ll >>> 32).setWidth 32

/-- Conversion to `uint64_t`. -/
def wide (x : BitVec 32) : BitVec 64 := x.setWidth 64

def div64U64 (dividend divisor : BitVec 64) : BitVec 64 := dividend / divisor

def mod64 (x y : BitVec 64) : BitVec 64 := x % y

/-- `rl` of `muldiv64`. -/
def rl (a : BitVec 64) (b : BitVec 32) : BitVec 64 := wide (low a) * wide b

/-- `rh` of `muldiv64`, with the carry of `rl`. -/
def rh (a : BitVec 64) (b : BitVec 32) : BitVec 64 := wide (high a) * wide b + rl a b >>> 32

/-- What the second step of `muldiv64` divides. -/
def lowDividend (a : BitVec 64) (b c : BitVec 32) : BitVec 64 :=
  mod64 (rh a b) (wide c) <<< 32 + (rl a b &&& 0xffffffff#64)

def muldiv64 (a : BitVec 64) (b c : BitVec 32) : BitVec 64 :=
  low (div64U64 (rh a b) (wide c)) ++ low (div64U64 (lowDividend a b c) (wide c))

/-- `SECONDS(s)`. -/
def seconds (s : BitVec 64) : BitVec 64 := s * 1000000000#64

def tick2ns (cpukhz ticks : BitVec 64) : BitVec 64 :=
  muldiv64 ticks (low (seconds 1)) (low (1000 * cpukhz))

def ns2tick (cpukhz ns : BitVec 64) : BitVec 64 :=
  muldiv64 ns (low (1000 * cpukhz)) (low (seconds 1))

/-- No product, sum or shift of `muldiv64` leaves the 64 bits, and no quotient the 32 bits of
its half of the result. -/
structure NoOverflow (a : BitVec 64) (b c : BitVec 32) : Prop where
  lowProduct : BitVec.umulOverflow (wide (low a)) (wide b) = false
  highProduct : BitVec.umulOverflow (wide (high a)) (wide b) = false
  carry : BitVec.uaddOverflow (wide (high a) * wide b) (rl a b >>> 32) = false
  shift : (mod64 (rh a b) (wide c)).toNat * 2 ^ 32 < 2 ^ 64
  sum : BitVec.uaddOverflow (mod64 (rh a b) (wide c) <<< 32) (rl a b &&& 0xffffffff#64) = false
  quotients : (div64U64 (rh a b) (wide c)).toNat < 2 ^ 32 ∧
    (div64U64 (lowDividend a b c) (wide c)).toNat < 2 ^ 32

/-! ## The values in between -/

theorem mul_digits_le {x y : Nat} (hx : x < 2 ^ 32) (hy : y < 2 ^ 32) :
    x * y ≤ (2 ^ 32 - 1) * (2 ^ 32 - 1) :=
  Nat.mul_le_mul (by omega) (by omega)

theorem wide_toNat (x : BitVec 32) : (wide x).toNat = x.toNat :=
  BitVec.toNat_setWidth_of_le (by decide)

theorem low_toNat (ll : BitVec 64) : (low ll).toNat = ll.toNat % 2 ^ 32 :=
  BitVec.toNat_setWidth ..

theorem high_toNat (ll : BitVec 64) : (high ll).toNat = ll.toNat / 2 ^ 32 := by
  have hlt := ll.isLt
  rw [high, BitVec.toNat_setWidth, BitVec.toNat_ushiftRight, Nat.shiftRight_eq_div_pow]
  omega

variable (a : BitVec 64) (b c : BitVec 32)

theorem rl_toNat : (rl a b).toNat = a.toNat % 2 ^ 32 * b.toNat := by
  have hle := mul_digits_le (Nat.mod_lt a.toNat (by decide)) b.isLt
  rw [rl, BitVec.toNat_mul, wide_toNat, wide_toNat, low_toNat, Nat.mod_eq_of_lt (by omega)]

theorem product_toNat : (wide (high a) * wide b).toNat = a.toNat / 2 ^ 32 * b.toNat := by
  have hle := mul_digits_le (high a).isLt b.isLt
  rw [high_toNat] at hle
  rw [BitVec.toNat_mul, wide_toNat, wide_toNat, high_toNat, Nat.mod_eq_of_lt (by omega)]

theorem carry_toNat : (rl a b >>> 32).toNat = a.toNat % 2 ^ 32 * b.toNat / 2 ^ 32 := by
  rw [BitVec.toNat_ushiftRight, rl_toNat, Nat.shiftRight_eq_div_pow]

theorem rh_lt : a.toNat / 2 ^ 32 * b.toNat + a.toNat % 2 ^ 32 * b.toNat / 2 ^ 32 < 2 ^ 64 := by
  have hlow := mul_digits_le (Nat.mod_lt a.toNat (by decide)) b.isLt
  have hhigh := mul_digits_le (high a).isLt b.isLt
  rw [high_toNat] at hhigh
  omega

/-- The upper 64 of the 96 bits of the product. -/
theorem rh_toNat : (rh a b).toNat = a.toNat * b.toNat / 2 ^ 32 := by
  have hlt := rh_lt a b
  have hsplit : a.toNat * b.toNat =
      a.toNat % 2 ^ 32 * b.toNat + 2 ^ 32 * (a.toNat / 2 ^ 32 * b.toNat) := by
    calc a.toNat * b.toNat = (a.toNat % 2 ^ 32 + 2 ^ 32 * (a.toNat / 2 ^ 32)) * b.toNat := by
          rw [Nat.mod_add_div]
      _ = _ := by rw [Nat.add_mul, Nat.mul_assoc]
  rw [rh, BitVec.toNat_add, product_toNat, carry_toNat, Nat.mod_eq_of_lt hlt, hsplit,
    Nat.add_mul_div_left _ _ (by decide), Nat.add_comm]

theorem rl_low_toNat : (rl a b &&& 0xffffffff#64).toNat = a.toNat * b.toNat % 2 ^ 32 := by
  have hmask := Nat.and_two_pow_sub_one_eq_mod (a.toNat % 2 ^ 32 * b.toNat) 32
  rw [BitVec.toNat_and, rl_toNat]
  exact hmask.trans (Nat.mod_mul_mod ..)

theorem mod64_toNat : (mod64 (rh a b) (wide c)).toNat =
    a.toNat * b.toNat / 2 ^ 32 % c.toNat := by
  rw [mod64, BitVec.toNat_umod, rh_toNat, wide_toNat]

section
variable {c : BitVec 32} (hc : 0 < c.toNat)
include hc

theorem shift_lt : a.toNat * b.toNat / 2 ^ 32 % c.toNat * 2 ^ 32 + a.toNat * b.toNat % 2 ^ 32 <
    2 ^ 64 := by
  have hmod := Nat.mod_lt (a.toNat * b.toNat / 2 ^ 32) hc
  omega

theorem shift_toNat : (mod64 (rh a b) (wide c) <<< 32).toNat =
    a.toNat * b.toNat / 2 ^ 32 % c.toNat * 2 ^ 32 := by
  have hlt := Nat.lt_of_le_of_lt (Nat.le_add_right _ _) (shift_lt a b hc)
  rw [BitVec.toNat_shiftLeft, mod64_toNat, Nat.shiftLeft_eq, Nat.mod_eq_of_lt hlt]

theorem lowDividend_toNat : (lowDividend a b c).toNat =
    a.toNat * b.toNat / 2 ^ 32 % c.toNat * 2 ^ 32 + a.toNat * b.toNat % 2 ^ 32 := by
  rw [lowDividend, BitVec.toNat_add, shift_toNat a b hc, rl_low_toNat,
    Nat.mod_eq_of_lt (shift_lt a b hc)]

theorem quotient_digits : a.toNat * b.toNat / c.toNat =
    (div64U64 (rh a b) (wide c)).toNat * 2 ^ 32 +
      (div64U64 (lowDividend a b c) (wide c)).toNat := by
  have hdigits := div_two_digits (a.toNat * b.toNat / 2 ^ 32) (a.toNat * b.toNat % 2 ^ 32)
    (2 ^ 32) hc
  rw [Nat.div_add_mod'] at hdigits
  rw [hdigits, div64U64, div64U64, BitVec.toNat_udiv, BitVec.toNat_udiv, rh_toNat,
    lowDividend_toNat a b hc, wide_toNat]

theorem low_quotient_lt : (div64U64 (lowDividend a b c) (wide c)).toNat < 2 ^ 32 := by
  rw [div64U64, BitVec.toNat_udiv, lowDividend_toNat a b hc, wide_toNat]
  exact second_digit_lt hc (Nat.mod_lt _ (by decide))

variable (hfit : a.toNat * b.toNat / c.toNat < 2 ^ 64)
include hfit

theorem high_quotient_lt : (div64U64 (rh a b) (wide c)).toNat < 2 ^ 32 := by
  rw [quotient_digits a b hc] at hfit
  omega

theorem noOverflow : NoOverflow a b c := by
  have hlow := mul_digits_le (low a).isLt b.isLt
  have hhigh := mul_digits_le (high a).isLt b.isLt
  have hrh := rh_lt a b
  have hshift := shift_lt a b hc
  refine ⟨?_, ?_, ?_, ?_, ?_, high_quotient_lt a b hc hfit, low_quotient_lt a b hc⟩
  · rw [BitVec.umulOverflow, decide_eq_false_iff_not, wide_toNat, wide_toNat]
    omega
  · rw [BitVec.umulOverflow, decide_eq_false_iff_not, wide_toNat, wide_toNat]
    omega
  · rw [BitVec.uaddOverflow, decide_eq_false_iff_not, product_toNat, carry_toNat]
    omega
  · rw [mod64_toNat]
    exact Nat.lt_of_le_of_lt (Nat.le_add_right _ _) hshift
  · rw [BitVec.uaddOverflow, decide_eq_false_iff_not, shift_toNat a b hc, rl_low_toNat]
    omega

theorem muldiv64_toNat : (muldiv64 a b c).toNat = a.toNat * b.toNat / c.toNat := by
  have hhigh := high_quotient_lt a b hc hfit
  have hlow := low_quotient_lt a b hc
  rw [muldiv64, BitVec.toNat_append, low_toNat, low_toNat, Nat.mod_eq_of_lt hhigh,
    Nat.mod_eq_of_lt hlow, ← Nat.shiftLeft_add_eq_or_of_lt hlow, Nat.shiftLeft_eq,
    quotient_digits a b hc]

end

/-! ## Nanoseconds and ticks -/

theorem seconds_toNat : (low (seconds 1)).toNat = 1000000000 := rfl

theorem khz_toNat {cpukhz : BitVec 64} (h : 1000 * cpukhz.toNat < 2 ^ 32) :
    (low (1000 * cpukhz)).toNat = 1000 * cpukhz.toNat := by
  rw [low_toNat, BitVec.toNat_mul]
  change 1000 * cpukhz.toNat % 2 ^ 64 % 2 ^ 32 = _
  omega

section
variable {cpukhz : BitVec 64} (hlt : 1000 * cpukhz.toNat < 2 ^ 32)
include hlt

theorem ns2tick_toNat {ns : BitVec 64}
    (hfit : ns.toNat * (1000 * cpukhz.toNat) / 1000000000 < 2 ^ 64) :
    (ns2tick cpukhz ns).toNat = ns.toNat * (1000 * cpukhz.toNat) / 1000000000 := by
  have hres := muldiv64_toNat ns (low (1000 * cpukhz)) (c := low (seconds 1)) (by decide)
  rw [khz_toNat hlt, seconds_toNat] at hres
  exact hres hfit

theorem tick2ns_toNat (hpos : 0 < 1000 * cpukhz.toNat) {ticks : BitVec 64}
    (hfit : ticks.toNat * 1000000000 / (1000 * cpukhz.toNat) < 2 ^ 64) :
    (tick2ns cpukhz ticks).toNat = ticks.toNat * 1000000000 / (1000 * cpukhz.toNat) := by
  have hres := muldiv64_toNat ticks (low (seconds 1)) (c := low (1000 * cpukhz))
  rw [khz_toNat hlt, seconds_toNat] at hres
  exact hres hpos hfit

end

theorem div_mul_div_le {n f g : Nat} (hf : 0 < f) : n * f / g * g / f ≤ n :=
  calc n * f / g * g / f ≤ n * f / f := Nat.div_le_div_right (Nat.div_mul_le_self _ _)
    _ = n := Nat.mul_div_cancel _ hf

theorem le_succ_div_mul_div {n f g : Nat} (hf : 0 < f) (hg : 0 < g) :
    n ≤ (n * f / g + 1) * g / f := by
  have hlt := Nat.lt_div_mul_add (a := n * f) hg
  rw [Nat.le_div_iff_mul_le hf, Nat.add_mul, Nat.one_mul]
  omega

/-- **`muldiv64` is exact** wherever its result fits, without an overflow on the way; and a time
lies between its ticks and one tick more, for every frequency of the timer. -/
theorem muldiv64_exact :
    (∀ (a : BitVec 64) (b c : BitVec 32), c ≠ 0 → a.toNat * b.toNat / c.toNat < 2 ^ 64 →
      NoOverflow a b c ∧ (muldiv64 a b c).toNat = a.toNat * b.toNat / c.toNat) ∧
    ∀ cpukhz ns : BitVec 64, 0 < 1000 * cpukhz.toNat → 1000 * cpukhz.toNat < 2 ^ 32 →
      ns.toNat * (1000 * cpukhz.toNat) / 1000000000 < 2 ^ 64 →
      (ns2tick cpukhz ns).toNat + 1 < 2 ^ 64 →
      ((ns2tick cpukhz ns).toNat + 1) * 1000000000 / (1000 * cpukhz.toNat) < 2 ^ 64 →
      tick2ns cpukhz (ns2tick cpukhz ns) ≤ ns ∧ ns ≤ tick2ns cpukhz (ns2tick cpukhz ns + 1) := by
  constructor
  · intro a b c hne hfit
    have hc : 0 < c.toNat := Nat.pos_of_ne_zero fun hz => hne (BitVec.eq_of_toNat_eq hz)
    exact ⟨noOverflow a b hc hfit, muldiv64_toNat a b hc hfit⟩
  · intro cpukhz ns hpos hlt hticks hnext hback
    have hk := ns2tick_toNat hlt hticks
    have hsucc : (ns2tick cpukhz ns + 1).toNat = (ns2tick cpukhz ns).toNat + 1 := by
      rw [BitVec.toNat_add]
      exact Nat.mod_eq_of_lt hnext
    have hle : (ns2tick cpukhz ns).toNat * 1000000000 / (1000 * cpukhz.toNat) < 2 ^ 64 :=
      Nat.lt_of_le_of_lt (Nat.div_le_div_right (by omega)) hback
    rw [← hsucc] at hback
    rw [BitVec.le_def, BitVec.le_def, tick2ns_toNat hlt hpos hle,
      tick2ns_toNat hlt hpos hback, hsucc, hk]
    exact ⟨div_mul_div_le hpos, le_succ_div_mul_div hpos (by decide)⟩

/-- One second of a timer of 62.5 MHz, the one QEMU has. -/
theorem muldiv64_exact_second :
    tick2ns 62500 (ns2tick 62500 1000000000) ≤ 1000000000 ∧
      1000000000 ≤ tick2ns 62500 (ns2tick 62500 1000000000 + 1) :=
  muldiv64_exact.2 62500 1000000000 (by decide) (by decide) (by decide) (by decide) (by decide)

end SpringOs.Time
