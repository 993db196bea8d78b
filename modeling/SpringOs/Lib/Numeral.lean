import Mathlib.Data.Nat.Digits.Defs
import Mathlib.Data.Nat.Digits.Lemmas

/-!
Positional numerals as programs write and read them: digits come out least significant first
and at least one of them, and they are read from the front by Horner's rule.

* `revDigits_step`: one round of the loop that writes;
* `length_revDigits_le`, `length_revDigits_mono`: how many rounds there are;
* **`value_revDigits`**: what was written is read back;
* `le_foldl_horner`: no prefix of a numeral is larger than its value;
* `div_two_digits`: a quotient from the quotients of two digits.
-/

namespace SpringOs.Lib.Numeral

/-- The digits of `n`, the least significant first. Zero has one. -/
def revDigits (b n : Nat) : List Nat := if n = 0 then [0] else Nat.digits b n

section
variable {b : Nat} (hb : 2 ≤ b)
include hb

theorem revDigits_step (n : Nat) :
    revDigits b n = n % b :: if n / b = 0 then [] else revDigits b (n / b) := by
  rcases Nat.eq_zero_or_pos n with hzero | hpos
  · subst hzero
    simp [revDigits]
  · rw [revDigits, if_neg (by omega), Nat.digits_def' hb hpos]
    congr 1
    split
    · rename_i hlast
      rw [hlast, Nat.digits_zero]
    · rename_i hmore
      rw [revDigits, if_neg hmore]

theorem revDigits_lt {n d : Nat} (hd : d ∈ revDigits b n) : d < b := by
  rw [revDigits] at hd
  split at hd
  · rw [List.mem_singleton.1 hd]
    omega
  · exact Nat.digits_lt_base hb hd

theorem length_revDigits_le {n k : Nat} (hk : 1 ≤ k) (hn : n < b ^ k) :
    (revDigits b n).length ≤ k := by
  rw [revDigits]
  split
  · exact hk
  · exact (Nat.digits_length_le_iff hb n).2 hn

end

theorem length_revDigits_pos (b n : Nat) : 1 ≤ (revDigits b n).length := by
  rw [revDigits]
  split
  · exact Nat.le_refl 1
  · rename_i hne
    exact List.length_pos_iff.2 (Nat.digits_ne_nil_iff_ne_zero.2 hne)

theorem length_revDigits_mono (b : Nat) {m n : Nat} (h : m ≤ n) :
    (revDigits b m).length ≤ (revDigits b n).length := by
  rcases Nat.eq_zero_or_pos m with hzero | hpos
  · rw [revDigits, if_pos hzero]
    exact length_revDigits_pos b n
  · rw [revDigits, revDigits, if_neg (by omega), if_neg (by omega)]
    exact Nat.le_length_digits_le b m n h

/-! ## Horner's rule -/

def horner (b acc d : Nat) : Nat := acc * b + d

def value (b : Nat) (digits : List Nat) : Nat := digits.foldl (horner b) 0

theorem le_foldl_horner {b : Nat} (hb : 1 ≤ b) (acc : Nat) (digits : List Nat) :
    acc ≤ digits.foldl (horner b) acc := by
  induction digits generalizing acc with
  | nil => exact Nat.le_refl acc
  | cons d digits ih =>
    have hstep : acc ≤ horner b acc d := by
      have := Nat.le_mul_of_pos_right acc hb
      unfold horner
      omega
    exact hstep.trans (ih (horner b acc d))

theorem value_reverse (b : Nat) (digits : List Nat) :
    value b digits.reverse = Nat.ofDigits b digits := by
  rw [value, List.foldl_reverse, Nat.ofDigits_eq_foldr]
  congr 1
  funext d acc
  rw [horner, Nat.mul_comm, Nat.add_comm]
  rfl

theorem value_revDigits (b n : Nat) : value b (revDigits b n).reverse = n := by
  rw [value_reverse, revDigits]
  split
  · rename_i hzero
    rw [Nat.ofDigits_singleton, hzero]
  · exact Nat.ofDigits_digits b n

/-! ## Long division of two digits -/

/-- The remainder of the first digit goes in front of the second. -/
theorem div_two_digits (h l base : Nat) {c : Nat} (hc : 0 < c) :
    (h * base + l) / c = h / c * base + (h % c * base + l) / c := by
  have hsplit : h * base + l = h % c * base + l + c * (h / c * base) := by
    calc h * base + l = (h % c + c * (h / c)) * base + l := by rw [Nat.mod_add_div]
      _ = h % c * base + l + c * (h / c * base) := by
        rw [Nat.add_mul, Nat.mul_assoc, Nat.add_right_comm]
  rw [hsplit, Nat.add_mul_div_left _ _ hc, Nat.add_comm]

theorem second_digit_lt {h l base c : Nat} (hc : 0 < c) (hl : l < base) :
    (h % c * base + l) / c < base := by
  have hmod := Nat.mod_lt h hc
  have hle : (h % c + 1) * base ≤ c * base := Nat.mul_le_mul_right base hmod
  rw [Nat.div_lt_iff_lt_mul hc, Nat.mul_comm base c]
  rw [Nat.add_mul] at hle
  omega

end SpringOs.Lib.Numeral
